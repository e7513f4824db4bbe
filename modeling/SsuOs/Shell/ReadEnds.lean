import SsuOs.Shell.Pipeline

/-! Who holds the read ends of a pipeline. The process that runs the loop of `execute_commands`
duplicates each read end onto its standard input and leaves the first descriptor open, so that
every process forked later inherits it. -/
namespace SsuOs.Shell
open Lib

variable {X : Type}

def Reads (S : System X) (p k : ℕ) : Prop :=
  ∃ q fd, S.procs[p]? = some q ∧ q.fds.get fd = some (.readEnd k)

/-- Process `p` and nobody else can read from pipe `k`. -/
def SoleReader (S : System X) (p k : ℕ) : Prop := ∀ p', Reads S p' k ↔ p' = p

/-- Nobody can read from pipe `k` any more, so that writing to it raises `SIGPIPE`. -/
def Broken (k : ℕ) (S : System X) : Prop :=
  ∀ q ∈ S.procs, ∀ fd, q.fds.get fd ≠ some (.readEnd k)

theorem broken_exit_iff {S : System X} {p k : ℕ} :
    Broken k (exit p S) ↔ ∀ p', Reads S p' k → p' = p := by
  constructor
  · rintro h p' ⟨q, fd, hq, hfd⟩
    by_contra hne
    have hmem : q ∈ (exit p S).procs := by
      refine List.mem_iff_getElem?.mpr ⟨p', ?_⟩
      rw [exit, List.getElem?_modify, hq, Option.map_eq_map, Option.map_some,
        if_neg (Ne.symm hne)]
    exact h q hmem fd hfd
  · intro h q hq fd hfd
    obtain ⟨p', hp'⟩ := List.mem_iff_getElem?.mp hq
    rw [exit, List.getElem?_modify] at hp'
    obtain ⟨q₀, hq₀, rfl⟩ := Option.map_eq_some_iff.mp hp'
    split_ifs at hfd with hp
    · simp at hfd
    · exact hp (h p' ⟨q₀, fd, hq₀, hfd⟩).symm

/-! ### The read ends in one table -/

/-- Exactly the read ends of the first `m` pipes are open, each also behind standard input and
output, where no `dup2` of the source reaches it. -/
structure Keeps (m : ℕ) (fds : FdTable (File X)) : Prop where
  held : ∀ k < m, ∃ fd, 2 ≤ fd ∧ fds.get fd = some (.readEnd k)
  only : ∀ fd k, fds.get fd = some (.readEnd k) → k < m

/-- The newest read end has one descriptor only. -/
def Single (i : ℕ) (pipeFd : ℕ × ℕ) (fds : FdTable (File X)) : Prop :=
  ∀ fd, fds.get fd = some (.readEnd i) → fd = pipeFd.1

section Tables

variable {t fds : FdTable (File X)} {f : File X} {i m old new : ℕ} {pipeFd : ℕ × ℕ}

theorem ShellTable.keeps (ht : ShellTable t) : Keeps 0 t := by
  refine ⟨fun k hk => absurd hk (Nat.not_lt_zero k), fun fd k hfd => ?_⟩
  obtain ⟨x, hx⟩ := ht.own fd _ hfd
  cases hx

theorem Keeps.pipe (ht : ShellTable t) (hidle : Idle t i fds) (h : Keeps i fds) :
    Keeps (i + 1) (fds.pipe (.readEnd i) (.writeEnd i)).2 ∧
      Single i (fds.pipe (.readEnd i) (.writeEnd i)).1
        (fds.pipe (.readEnd i) (.writeEnd i)).2 := by
  have hpiped := hidle.pipe ht
  have hold : ∀ fd k, (fds.pipe (.readEnd i) (.writeEnd i)).2.get fd = some (.readEnd k) →
      fd = (fds.pipe (.readEnd i) (.writeEnd i)).1.1 ∧ k = i ∨ k < i := by
    intro fd k hfd
    rw [FdTable.get_pipe] at hfd
    split_ifs at hfd with hw hr
    · simp at hfd
    · exact .inl ⟨hr, by simpa using hfd.symm⟩
    · exact .inr (h.only fd k hfd)
  refine ⟨⟨fun k hk => ?_, fun fd k hfd => ?_⟩, fun fd hfd => ?_⟩
  · by_cases hki : k = i
    · subst hki
      exact ⟨_, hpiped.readFd, hpiped.read⟩
    · obtain ⟨fd, hfd, hget⟩ := h.held k (by omega)
      have hopen : fds.get fd ≠ none := by simp [hget]
      refine ⟨fd, hfd, ?_⟩
      rw [FdTable.get_pipe, if_neg (FdTable.pipe_snd_ne hopen).symm,
        if_neg (FdTable.pipe_fst_ne hopen).symm, hget]
  · rcases hold fd k hfd with ⟨-, hk⟩ | hk <;> omega
  · rcases hold fd i hfd with ⟨hr, -⟩ | hi
    · exact hr
    · omega

theorem Keeps.close_write (hpiped : Piped t i pipeFd fds) (h : Keeps m fds) :
    Keeps m (fds.close pipeFd.2) := by
  refine ⟨fun k hk => ?_, fun fd k hfd => ?_⟩
  · obtain ⟨fd, hfd, hget⟩ := h.held k hk
    have hne : fd ≠ pipeFd.2 := by
      rintro rfl
      rw [hpiped.write] at hget
      cases hget
    exact ⟨fd, hfd, by rw [FdTable.get_close, if_neg hne, hget]⟩
  · rw [FdTable.get_close] at hfd
    split_ifs at hfd
    exact h.only fd k hfd

theorem Keeps.close_read (hpiped : Piped t i pipeFd fds) (h : Keeps (i + 1) fds)
    (hsingle : Single i pipeFd fds) : Keeps i (fds.close pipeFd.1) := by
  refine ⟨fun k hk => ?_, fun fd k hfd => ?_⟩
  · obtain ⟨fd, hfd, hget⟩ := h.held k (by omega)
    have hne : fd ≠ pipeFd.1 := by
      rintro rfl
      rw [hpiped.read] at hget
      cases hget
      omega
    exact ⟨fd, hfd, by rw [FdTable.get_close, if_neg hne, hget]⟩
  · rw [FdTable.get_close] at hfd
    split_ifs at hfd with hne
    have hk := h.only fd k hfd
    have hki : k ≠ i := by
      rintro rfl
      exact hne (hsingle fd hfd)
    omega

theorem Keeps.dup (hold : fds.get old = some f) (hnew : new < 2) (h : Keeps m fds) :
    Keeps m (fds.dup2 old new) := by
  refine ⟨fun k hk => ?_, fun fd k hfd => ?_⟩
  · obtain ⟨fd, hfd, hget⟩ := h.held k hk
    exact ⟨fd, hfd, by rw [FdTable.get_dup2 hold, if_neg (by omega), hget]⟩
  · rw [FdTable.get_dup2 hold] at hfd
    split_ifs at hfd
    · exact h.only old k (hold.trans hfd)
    · exact h.only fd k hfd

end Tables

/-! ### The read ends along a run -/

variable {n pipes g : ℕ} {t : FdTable (File X)} {q q' : Proc X} {new : List (Proc X)}
  {S S' : System X}

/-- The read ends a process holds, by what it does next. -/
def Proc.Holds (q : Proc X) : Prop :=
  match q.pc with
  | .main | .wait => Keeps 0 q.fds
  | .loop | .execute | .childDup | .childExecute | .running => Keeps q.i q.fds
  | .fork | .parentClose | .childClose =>
    Keeps (q.i + 1) q.fds ∧ Single q.i q.pipeFd q.fds
  | .parentDup => Keeps (q.i + 1) q.fds

theorem ParentOk.holds_step {c : ℕ} (ht : ShellTable t) (hok : ParentOk n t pipes c q)
    (h : q.Holds) (hstep : q.step n pipes = .ok (q', new, g)) :
    q'.Holds ∧ ∀ x ∈ new, x.Holds := by
  obtain ⟨pc, i, pipeFd, fds⟩ := q
  cases pc with
  | main | wait | childClose | childDup | childExecute => exact hok.elim
  | loop =>
    obtain ⟨-, rfl, -, hidle⟩ := hok
    simp only [Proc.step] at hstep
    split_ifs at hstep
    · cases hstep
      exact ⟨Keeps.pipe ht hidle h, by simp⟩
    · cases hstep
      exact ⟨h, by simp⟩
  | fork =>
    cases hstep
    exact ⟨h, List.forall_mem_singleton.mpr h⟩
  | parentClose =>
    obtain ⟨-, -, -, hpiped⟩ := hok
    cases hstep
    exact ⟨h.1.close_write hpiped, by simp⟩
  | parentDup =>
    obtain ⟨-, -, -, hpassing⟩ := hok
    cases hstep
    exact ⟨Keeps.dup hpassing.read Nat.two_pos h, by simp⟩
  | execute =>
    cases hstep
    exact ⟨h, by simp⟩
  | running => cases hstep

theorem ChildOk.holds_step {k : ℕ} (hok : ChildOk n t k q) (h : q.Holds)
    (hstep : q.step n pipes = .ok (q', new, g)) : q'.Holds ∧ ∀ x ∈ new, x.Holds := by
  obtain ⟨pc, i, pipeFd, fds⟩ := q
  obtain ⟨-, -, hok⟩ := hok
  cases pc with
  | main | wait | loop | fork | parentClose | parentDup | execute => exact hok.elim
  | childClose =>
    cases hstep
    exact ⟨h.1.close_read hok h.2, by simp⟩
  | childDup =>
    cases hstep
    exact ⟨Keeps.dup hok.write Nat.one_lt_two h, by simp⟩
  | childExecute =>
    cases hstep
    exact ⟨h, by simp⟩
  | running => cases hstep

theorem Inv.holds_step {p : ℕ} (ht : ShellTable t) (hinv : Inv n t S)
    (hq : S.procs[p]? = some q) (h : q.Holds)
    (hstep : q.step n S.shared = .ok (q', new, g)) : q'.Holds ∧ ∀ x ∈ new, x.Holds := by
  cases hinv with
  | before =>
    cases p with
    | zero =>
      cases hq
      cases hstep
      exact ⟨ht.keeps, List.forall_mem_singleton.mpr ht.keeps⟩
    | succ p => simp at hq
  | @forked i pipes pipeFd parent children hparent hchildren =>
    match p with
    | 0 =>
      cases hq
      cases hstep
    | 1 =>
      cases hq
      exact hparent.holds_step ht h hstep
    | k + 2 =>
      have hq' : children[k]? = some q := by simpa using hq
      exact (hchildren k q hq').holds_step h hstep

theorem Interleaving.holds {tr : List (Event (System X) ℕ Unit)} (hn : 1 ≤ n)
    (ht : ShellTable t) (h : Interleaving n t tr S) : ∀ q ∈ S.procs, q.Holds := by
  have hboth : Inv n t S ∧ ∀ q ∈ S.procs, q.Holds := by
    refine h.invariant (I := fun S => Inv n t S ∧ ∀ q ∈ S.procs, q.Holds) ?_ ?_
    · rintro _ ⟨i, pipeFd, rfl⟩
      exact ⟨.before, List.forall_mem_singleton.mpr ht.keeps⟩
    · intro S p r S' hS _ hstep
      obtain ⟨hinv, hall⟩ := hS
      obtain ⟨S₁, hS₁, heq⟩ := map_eq_ok.mp hstep
      cases heq
      obtain ⟨q, q', new, g, hq, hs, rfl⟩ := Sys.step_eq_ok.mp hS₁
      have hnext := hinv.holds_step ht hq (hall q (List.mem_of_getElem? hq)) hs
      refine ⟨(hinv.proc_step hn ht hq hs).1, fun x hx => ?_⟩
      rcases List.mem_append.mp hx with hx | hx
      · rcases List.mem_or_eq_of_mem_set hx with hx | rfl
        · exact hall x hx
        · exact hnext.1
      · exact hnext.2 x hx
  exact hboth.2

/-! ### The finished pipeline -/

/-- Once every command runs, the read end of a pipe is with all commands behind it. -/
theorem Interleaving.reads_iff {tr : List (Event (System X) ℕ Unit)} (hn : 1 ≤ n)
    (ht : ShellTable t) (h : Interleaving n t tr S) (hall : AllRunning n S) (p k : ℕ) :
    Reads S p k ↔ ∃ j, k < j ∧ Runs S p j := by
  have hinv := (h.inv hn ht).1
  have hkeeps : ∀ q, S.procs[p]? = some q → q.pc = .running → Keeps q.i q.fds := by
    intro q hq hrun
    have hholds := h.holds hn ht q (List.mem_of_getElem? hq)
    rwa [Proc.Holds, hrun] at hholds
  constructor
  · rintro ⟨q, fd, hq, hfd⟩
    rcases hinv.eq_or_running hn hall hq with heq | hrun
    · rw [heq] at hfd
      exact absurd (ht.keeps.only fd k hfd) (Nat.not_lt_zero k)
    · exact ⟨q.i, (hkeeps q hq hrun).only fd k hfd, q, hq, hrun, rfl⟩
  · rintro ⟨_, hk, q, hq, hrun, rfl⟩
    obtain ⟨fd, -, hfd⟩ := (hkeeps q hq hrun).held k hk
    exact ⟨q, fd, hq, hfd⟩

theorem Inv.lt_of_runs {p k : ℕ} (h : Inv n t S) (hk : Runs S p k) : k < n := by
  obtain ⟨q, hq, hrun, rfl⟩ := hk
  rcases h.of_running hq hrun with ⟨-, hi, -⟩ | ⟨-, hi, -⟩ <;> omega

theorem Runs.index_unique {p j k : ℕ} (hj : Runs S p j) (hk : Runs S p k) : j = k := by
  obtain ⟨q, hq, -, rfl⟩ := hj
  obtain ⟨q', hq', -, rfl⟩ := hk
  rw [hq] at hq'
  rw [Option.some.inj hq']

/-- Besides the command behind a pipe all later ones read from it. It is alone exactly at the
last pipe, so that only there its exit is noticed. -/
theorem Interleaving.others_read_iff {tr : List (Event (System X) ℕ Unit)} {p k : ℕ}
    (hn : 1 ≤ n) (ht : ShellTable t) (h : Interleaving n t tr S) (hall : AllRunning n S)
    (hk : Runs S p (k + 1)) : (∀ p', Reads S p' k → p' = p) ↔ k + 2 = n := by
  have hinv := (h.inv hn ht).1
  have hlt := hinv.lt_of_runs hk
  constructor
  · intro hsole
    by_contra hne
    obtain ⟨p', hp'⟩ := hall (k + 2) (by omega)
    have hreads : Reads S p' k := (h.reads_iff hn ht hall p' k).mpr ⟨k + 2, by omega, hp'⟩
    rw [hsole p' hreads] at hp'
    have := hp'.index_unique hk
    omega
  · intro hlast p' hreads
    obtain ⟨j, hj, hp'⟩ := (h.reads_iff hn ht hall p' k).mp hreads
    have hjn := hinv.lt_of_runs hp'
    obtain rfl : j = k + 1 := by omega
    exact (hinv.eq_of_runs hp').trans (hinv.eq_of_runs hk).symm

/-- The read end of the pipe behind `commands[k]` is open in all commands from `k + 1` on. The
next command is its only reader, and `commands[k]` gets `SIGPIPE` when that one exits, exactly at
the last pipe; at all pipes exactly when there are at most two commands. -/
theorem soleReader_iff_two {tr : List (Event (System X) ℕ Unit)} (hn : 1 ≤ n)
    (ht : ShellTable t) (h : Interleaving n t tr S) (hall : AllRunning n S) :
    (∀ p k, Reads S p k ↔ ∃ j, k < j ∧ Runs S p j) ∧
    (∀ k p, Runs S p (k + 1) →
      (SoleReader S p k ↔ k + 2 = n) ∧ (Broken k (exit p S) ↔ k + 2 = n)) ∧
    ((∀ k p, Runs S p (k + 1) → SoleReader S p k ∧ Broken k (exit p S)) ↔ n ≤ 2) := by
  have hreads := h.reads_iff hn ht hall
  have hpipe : ∀ k p, Runs S p (k + 1) →
      (SoleReader S p k ↔ k + 2 = n) ∧ (Broken k (exit p S) ↔ k + 2 = n) := by
    intro k p hk
    have hothers := h.others_read_iff hn ht hall hk
    have hself : Reads S p k := (hreads p k).mpr ⟨k + 1, by omega, hk⟩
    refine ⟨?_, broken_exit_iff.trans hothers⟩
    rw [← hothers]
    constructor
    · exact fun hsole p' => (hsole p').mp
    · exact fun hsole p' => ⟨hsole p', fun hp' => hp' ▸ hself⟩
  refine ⟨hreads, hpipe, ?_⟩
  constructor
  · intro hsole
    by_contra hn2
    obtain ⟨p, hp⟩ := hall 1 (by omega)
    have := (hpipe 0 p hp).1.mp (hsole 0 p hp).1
    omega
  · intro hn2 k p hk
    have hlt := (h.inv hn ht).1.lt_of_runs hk
    have hlast : k + 2 = n := by omega
    exact ⟨(hpipe k p hk).1.mpr hlast, (hpipe k p hk).2.mpr hlast⟩

/-- With two commands the exit of the second one breaks the pipe. -/
theorem soleReader_of_two :
    ∃ tr S, Interleaving 2 terminal tr S ∧ AllRunning 2 S ∧ Runs S 1 1 ∧ SoleReader S 1 0 ∧
      Broken 0 (exit 1 S) := by
  obtain ⟨tr, S, h, hp⟩ : ∃ (tr : List (Event (System ℕ) ℕ Unit)) (S : System ℕ),
      Interleaving 2 terminal tr S ∧ decide (Runs S 2 0 ∧ Runs S 1 1) = true :=
    Run.exists_of_replayCheck [0, 1, 1, 1, 1, 1, 1, 2, 2, 2] ⟨0, (0, 0), rfl⟩ (by decide +kernel)
  obtain ⟨h₀, h₁⟩ := of_decide_eq_true hp
  have hall : AllRunning 2 S := by
    intro k hk
    match k with
    | 0 => exact ⟨2, h₀⟩
    | 1 => exact ⟨1, h₁⟩
  obtain ⟨-, -, hiff⟩ := soleReader_iff_two (by decide) shellTable_terminal h hall
  obtain ⟨hsole, hbroken⟩ := hiff.mpr (by decide) 0 1 h₁
  exact ⟨tr, S, h, hall, h₁, hsole, hbroken⟩

/-- With three commands the last one holds the read end of the first pipe on descriptor 3, so
that the first command outlives the exit of the second one, its reader. -/
theorem third_command_reads_first_pipe :
    ∃ tr S, Interleaving 3 terminal tr S ∧ AllRunning 3 S ∧ Runs S 3 1 ∧ Runs S 1 2 ∧
      Reads S 1 0 ∧ ¬SoleReader S 3 0 ∧ ¬Broken 0 (exit 3 S) := by
  obtain ⟨tr, S, h, hp⟩ : ∃ (tr : List (Event (System ℕ) ℕ Unit)) (S : System ℕ),
      Interleaving 3 terminal tr S ∧
        decide (Runs S 2 0 ∧ Runs S 3 1 ∧ Runs S 1 2 ∧
          S.procs[1]?.bind (fun q : Proc ℕ => q.fds.get 3) = some (File.readEnd 0)) = true :=
    Run.exists_of_replayCheck [0, 1, 1, 1, 1, 1, 1, 1, 1, 1, 1, 2, 2, 2, 3, 3, 3]
      ⟨0, (0, 0), rfl⟩ (by decide +kernel)
  obtain ⟨h₀, h₁, h₂, hfd⟩ := of_decide_eq_true hp
  have hall : AllRunning 3 S := by
    intro k hk
    match k with
    | 0 => exact ⟨2, h₀⟩
    | 1 => exact ⟨3, h₁⟩
    | 2 => exact ⟨1, h₂⟩
  have hreads : Reads S 1 0 := by
    obtain ⟨q, hq, hget⟩ := Option.bind_eq_some_iff.mp hfd
    exact ⟨q, 3, hq, hget⟩
  have hne : ¬(1 = 3) := by decide
  refine ⟨tr, S, h, hall, h₁, h₂, hreads, fun hsole => hne ((hsole 1).mp hreads), ?_⟩
  exact fun hbroken => hne (broken_exit_iff.mp hbroken 1 hreads)

end SsuOs.Shell
