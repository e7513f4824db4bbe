import SsuOs.Lib.FdTable
import SsuOs.Lib.Procs
import SsuOs.Lib.Run

/-! How `execute_commands` of `ssu_shell.c` connects the commands of a line: every interleaving
of the shell, of the process it forks for the line and of that process's children. Descriptors
are never marked close-on-exec, so `execvp` keeps them all. -/
namespace SsuOs.Shell
open Lib

/-- What a descriptor refers to: a file the shell had open, or an end of the pipe created
after `k` others. -/
inductive File (X : Type)
  | inherited (x : X)
  | readEnd (k : ℕ)
  | writeEnd (k : ℕ)
  deriving DecidableEq

/-- The next system call: of `main` up to its `wait`, of `execute_commands` in the process that
runs the loop (`loop` tests the condition and calls `pipe`) and of its children. -/
inductive Pc
  | main
  | wait
  | loop
  | fork
  | parentClose
  | parentDup
  | execute
  | childClose
  | childDup
  | childExecute
  | running
  deriving DecidableEq

/-- A process in `running` is `commands[i]`. -/
structure Proc (X : Type) where
  pc : Pc
  i : ℕ
  pipeFd : ℕ × ℕ
  fds : FdTable (File X)

inductive Stop
  | waiting
  | replaced

variable {X : Type}

/-- The process after its next call, the process it forks and the number of pipes created. The
results of `close` and `dup2` are not looked at. -/
def Proc.step (commandNo pipes : ℕ) (q : Proc X) :
    Except Stop (Proc X × List (Proc X) × ℕ) :=
  match q.pc with
  | .main => .ok ({ q with pc := .wait }, [{ q with pc := .loop, i := 0 }], pipes)
  | .wait => .error .waiting
  | .loop =>
    if q.i < commandNo - 1 then
      let (pipeFd, fds) := q.fds.pipe (.readEnd pipes) (.writeEnd pipes)
      .ok ({ q with pc := .fork, pipeFd, fds }, [], pipes + 1)
    else .ok ({ q with pc := .execute }, [], pipes)
  | .fork => .ok ({ q with pc := .parentClose }, [{ q with pc := .childClose }], pipes)
  | .parentClose =>
    .ok ({ q with pc := .parentDup, fds := q.fds.close q.pipeFd.2 }, [], pipes)
  | .parentDup =>
    .ok ({ q with pc := .loop, i := q.i + 1, fds := q.fds.dup2 q.pipeFd.1 0 }, [], pipes)
  | .childClose =>
    .ok ({ q with pc := .childDup, fds := q.fds.close q.pipeFd.1 }, [], pipes)
  | .childDup =>
    .ok ({ q with pc := .childExecute, fds := q.fds.dup2 q.pipeFd.2 1 }, [], pipes)
  | .execute | .childExecute => .ok ({ q with pc := .running }, [], pipes)
  | .running => .error .replaced

abbrev System (X : Type) := Sys (Proc X) ℕ

def exec (commandNo p : ℕ) (S : System X) : Except (Blocked Stop) (Unit × System X) :=
  (S.step (Proc.step commandNo) p).map ((), ·)

/-- Only the shell is there. Its `i` and `pipe_fd` are not set yet. -/
def Initial (t : FdTable (File X)) (S : System X) : Prop :=
  ∃ i pipeFd, S = ⟨[⟨.main, i, pipeFd, t⟩], 0⟩

abbrev Interleaving (commandNo : ℕ) (t : FdTable (File X)) :
    List (Event (System X) ℕ Unit) → System X → Prop :=
  Run (exec commandNo) (fun _ _ => True) (Initial t)

/-- The descriptors of the shell when it forks. -/
structure ShellTable (t : FdTable (File X)) : Prop where
  own : ∀ fd f, t.get fd = some f → ∃ x, f = .inherited x
  std : ∀ fd < 3, t.get fd ≠ none

def stdin (t : FdTable (File X)) : ℕ → Option (File X)
  | 0 => t.get 0
  | k + 1 => some (.readEnd k)

def stdout (commandNo : ℕ) (t : FdTable (File X)) (k : ℕ) : Option (File X) :=
  if k + 1 = commandNo then t.get 1 else some (.writeEnd k)

/-! ### What the processes hold -/

/-- The table of the process in the loop between two iterations. -/
structure Idle (t : FdTable (File X)) (i : ℕ) (fds : FdTable (File X)) : Prop where
  input : fds.get 0 = stdin t i
  output : fds.get 1 = t.get 1
  writers : ∀ fd k, fds.get fd ≠ some (.writeEnd k)

/-- The table behind `pipe`, which a child inherits. -/
structure Piped (t : FdTable (File X)) (i : ℕ) (pipeFd : ℕ × ℕ) (fds : FdTable (File X)) :
    Prop where
  input : fds.get 0 = stdin t i
  output : fds.get 1 = t.get 1
  readFd : 2 ≤ pipeFd.1
  writeFd : 2 ≤ pipeFd.2
  ne : pipeFd.1 ≠ pipeFd.2
  read : fds.get pipeFd.1 = some (.readEnd i)
  write : fds.get pipeFd.2 = some (.writeEnd i)
  writers : ∀ fd k, fds.get fd = some (.writeEnd k) → fd = pipeFd.2 ∧ k = i

/-- The table of the process in the loop once it has closed the write end. -/
structure Passing (t : FdTable (File X)) (i : ℕ) (pipeFd : ℕ × ℕ) (fds : FdTable (File X)) :
    Prop where
  output : fds.get 1 = t.get 1
  read : fds.get pipeFd.1 = some (.readEnd i)
  writers : ∀ fd k, fds.get fd ≠ some (.writeEnd k)

/-- The table of a child once it has closed the read end. -/
structure Writing (t : FdTable (File X)) (i : ℕ) (pipeFd : ℕ × ℕ) (fds : FdTable (File X)) :
    Prop where
  input : fds.get 0 = stdin t i
  write : fds.get pipeFd.2 = some (.writeEnd i)
  writers : ∀ fd k, fds.get fd = some (.writeEnd k) → k = i

/-- The table of a child that is ready to run its command. -/
structure Connected (t : FdTable (File X)) (i : ℕ) (fds : FdTable (File X)) : Prop where
  input : fds.get 0 = stdin t i
  output : fds.get 1 = some (.writeEnd i)
  writers : ∀ fd k, fds.get fd = some (.writeEnd k) → k = i

section Tables

variable {t fds : FdTable (File X)} {i : ℕ} {pipeFd : ℕ × ℕ}

theorem stdin_ne_none (ht : ShellTable t) (k : ℕ) : stdin t k ≠ none := by
  cases k with
  | zero => exact ht.std 0 (by omega)
  | succ k => simp [stdin]

theorem Idle.pipe (ht : ShellTable t) (h : Idle t i fds) :
    Piped t i (fds.pipe (.readEnd i) (.writeEnd i)).1 (fds.pipe (.readEnd i) (.writeEnd i)).2 := by
  have h0 : fds.get 0 ≠ none := h.input ▸ stdin_ne_none ht i
  have h1 : fds.get 1 ≠ none := h.output ▸ ht.std 1 (by omega)
  have hr0 := FdTable.pipe_fst_ne (r := .readEnd i) (w := .writeEnd i) h0
  have hr1 := FdTable.pipe_fst_ne (r := .readEnd i) (w := .writeEnd i) h1
  have hw0 := FdTable.pipe_snd_ne (r := .readEnd i) (w := .writeEnd i) h0
  have hw1 := FdTable.pipe_snd_ne (r := .readEnd i) (w := .writeEnd i) h1
  have hne := FdTable.pipe_fst_ne_snd (t := fds) (r := .readEnd i) (w := .writeEnd i)
  refine ⟨?_, ?_, by omega, by omega, hne, ?_, ?_, ?_⟩
  · rw [FdTable.get_pipe, if_neg hw0.symm, if_neg hr0.symm, h.input]
  · rw [FdTable.get_pipe, if_neg hw1.symm, if_neg hr1.symm, h.output]
  · rw [FdTable.get_pipe, if_neg hne, if_pos rfl]
  · rw [FdTable.get_pipe, if_pos rfl]
  · intro fd k hfd
    rw [FdTable.get_pipe] at hfd
    split_ifs at hfd with hw hr
    · exact ⟨hw, by simpa using hfd.symm⟩
    · simp at hfd
    · exact absurd hfd (h.writers fd k)

theorem Piped.close_write (h : Piped t i pipeFd fds) :
    Passing t i pipeFd (fds.close pipeFd.2) := by
  refine ⟨?_, ?_, ?_⟩
  · rw [FdTable.get_close, if_neg (by have := h.writeFd; omega), h.output]
  · rw [FdTable.get_close, if_neg h.ne, h.read]
  · intro fd k
    rw [FdTable.get_close]
    split_ifs with hfd
    · simp
    · exact fun hget => hfd (h.writers fd k hget).1

theorem Passing.dup (h : Passing t i pipeFd fds) : Idle t (i + 1) (fds.dup2 pipeFd.1 0) := by
  refine ⟨?_, ?_, ?_⟩
  · rw [FdTable.get_dup2 h.read, if_pos rfl, stdin]
  · rw [FdTable.get_dup2 h.read, if_neg (by omega), h.output]
  · intro fd k
    rw [FdTable.get_dup2 h.read]
    split_ifs
    · simp
    · exact h.writers fd k

theorem Piped.close_read (h : Piped t i pipeFd fds) :
    Writing t i pipeFd (fds.close pipeFd.1) := by
  refine ⟨?_, ?_, ?_⟩
  · rw [FdTable.get_close, if_neg (by have := h.readFd; omega), h.input]
  · rw [FdTable.get_close, if_neg h.ne.symm, h.write]
  · intro fd k hget
    rw [FdTable.get_close] at hget
    split_ifs at hget
    exact (h.writers fd k hget).2

theorem Writing.dup (h : Writing t i pipeFd fds) : Connected t i (fds.dup2 pipeFd.2 1) := by
  refine ⟨?_, ?_, ?_⟩
  · rw [FdTable.get_dup2 h.write, if_neg (by omega), h.input]
  · rw [FdTable.get_dup2 h.write, if_pos rfl]
  · intro fd k hget
    rw [FdTable.get_dup2 h.write] at hget
    split_ifs at hget
    · simpa using hget.symm
    · exact h.writers fd k hget

end Tables

/-! ### The steps of the processes -/

variable {n pipes : ℕ} {t : FdTable (File X)} {q q' : Proc X} {new : List (Proc X)}

/-- The process that runs the loop, when `pipes` pipes were created and `c` children forked. -/
def ParentOk (n : ℕ) (t : FdTable (File X)) (pipes c : ℕ) (q : Proc X) : Prop :=
  match q.pc with
  | .loop => q.i < n ∧ pipes = q.i ∧ c = q.i ∧ Idle t q.i q.fds
  | .fork => q.i + 1 < n ∧ pipes = q.i + 1 ∧ c = q.i ∧ Piped t q.i q.pipeFd q.fds
  | .parentClose => q.i + 1 < n ∧ pipes = q.i + 1 ∧ c = q.i + 1 ∧ Piped t q.i q.pipeFd q.fds
  | .parentDup => q.i + 1 < n ∧ pipes = q.i + 1 ∧ c = q.i + 1 ∧ Passing t q.i q.pipeFd q.fds
  | .execute | .running => q.i + 1 = n ∧ c = q.i ∧ Idle t q.i q.fds
  | _ => False

/-- The child forked after `k` others. -/
def ChildOk (n : ℕ) (t : FdTable (File X)) (k : ℕ) (q : Proc X) : Prop :=
  q.i = k ∧ k + 1 < n ∧
    match q.pc with
    | .childClose => Piped t q.i q.pipeFd q.fds
    | .childDup => Writing t q.i q.pipeFd q.fds
    | .childExecute | .running => Connected t q.i q.fds
    | _ => False

/-- The number of steps that a process and the children it has yet to fork take until they
run their commands. -/
def Proc.todo (n : ℕ) (q : Proc X) : ℕ :=
  match q.pc with
  | .main => 7 * (n - 1) + 3
  | .loop => 7 * (n - 1 - q.i) + 2
  | .fork => 7 * (n - 1 - q.i) + 1
  | .parentClose => 7 * (n - 1 - q.i) - 3
  | .parentDup => 7 * (n - 1 - q.i) - 4
  | .childClose => 3
  | .childDup => 2
  | .childExecute | .execute => 1
  | .wait | .running => 0

theorem Proc.exists_step (h : q.todo n ≠ 0) : ∃ r, q.step n pipes = .ok r := by
  obtain ⟨pc, i, pipeFd, fds⟩ := q
  cases pc with
  | wait => exact absurd rfl h
  | running => exact absurd rfl h
  | loop =>
    simp only [Proc.step]
    split_ifs <;> exact ⟨_, rfl⟩
  | _ => exact ⟨_, rfl⟩

theorem ParentOk.running {c : ℕ} (h : ParentOk n t pipes c q) (h₀ : q.todo n = 0) :
    q.pc = .running ∧ q.i + 1 = n ∧ c = q.i := by
  obtain ⟨pc, i, pipeFd, fds⟩ := q
  cases pc with
  | running => exact ⟨rfl, h.1, h.2.1⟩
  | parentClose | parentDup =>
    have hi : i + 1 < n := h.1
    simp only [Proc.todo] at h₀
    omega
  | main | wait | childClose | childDup | childExecute => exact h.elim
  | loop | fork | execute => simp [Proc.todo] at h₀

theorem ChildOk.running {k : ℕ} (h : ChildOk n t k q) (h₀ : q.todo n = 0) : q.pc = .running := by
  obtain ⟨pc, i, pipeFd, fds⟩ := q
  obtain ⟨-, -, h⟩ := h
  cases pc with
  | running => rfl
  | childClose | childDup | childExecute => simp [Proc.todo] at h₀
  | _ => exact h.elim

theorem ParentOk.step {c pipes' : ℕ} (ht : ShellTable t) (h : ParentOk n t pipes c q)
    (hstep : q.step n pipes = .ok (q', new, pipes')) :
    ParentOk n t pipes' (c + new.length) q' ∧ (∀ x ∈ new, ChildOk n t c x) ∧ new.length ≤ 1 ∧
      q'.todo n + (new.map (Proc.todo n)).sum + 1 = q.todo n := by
  obtain ⟨pc, i, pipeFd, fds⟩ := q
  cases pc with
  | main | wait | childClose | childDup | childExecute => exact h.elim
  | loop =>
    obtain ⟨hi, rfl, rfl, hidle⟩ := h
    dsimp only at hi
    simp only [Proc.step] at hstep
    split_ifs at hstep with hlt
    · cases hstep
      refine ⟨⟨by dsimp only; omega, rfl, rfl, hidle.pipe ht⟩, by simp, by simp, ?_⟩
      simp [Proc.todo]
    · cases hstep
      refine ⟨⟨by dsimp only; omega, rfl, hidle⟩, by simp,
        by simp, ?_⟩
      simp only [Proc.todo, List.map_nil, List.sum_nil]
      omega
  | fork =>
    obtain ⟨hi, rfl, rfl, hpiped⟩ := h
    dsimp only at hi
    cases hstep
    have hchild : ChildOk n t c ⟨.childClose, c, pipeFd, fds⟩ := ⟨rfl, hi, hpiped⟩
    refine ⟨⟨hi, rfl, rfl, hpiped⟩, by simpa using hchild, by simp, ?_⟩
    simp only [Proc.todo, List.map_cons, List.map_nil, List.sum_cons, List.sum_nil]
    omega
  | parentClose =>
    obtain ⟨hi, rfl, rfl, hpiped⟩ := h
    dsimp only at hi
    cases hstep
    refine ⟨⟨hi, rfl, rfl, hpiped.close_write⟩, by simp, by simp, ?_⟩
    simp only [Proc.todo, List.map_nil, List.sum_nil]
    omega
  | parentDup =>
    obtain ⟨hi, rfl, rfl, hpassing⟩ := h
    dsimp only at hi
    cases hstep
    refine ⟨⟨hi, rfl, rfl, hpassing.dup⟩, by simp, by simp, ?_⟩
    simp only [Proc.todo, List.map_nil, List.sum_nil]
    omega
  | execute =>
    obtain ⟨hi, rfl, hidle⟩ := h
    cases hstep
    exact ⟨⟨hi, rfl, hidle⟩, by simp, by simp, rfl⟩
  | running => cases hstep

theorem ChildOk.step {k pipes' : ℕ} (h : ChildOk n t k q)
    (hstep : q.step n pipes = .ok (q', new, pipes')) :
    ChildOk n t k q' ∧ new = [] ∧ pipes' = pipes ∧ q'.todo n + 1 = q.todo n := by
  obtain ⟨pc, i, pipeFd, fds⟩ := q
  obtain ⟨hi, hk, h⟩ := h
  cases pc with
  | main | wait | loop | fork | parentClose | parentDup | execute => exact h.elim
  | childClose =>
    cases hstep
    exact ⟨⟨hi, hk, h.close_read⟩, rfl, rfl, rfl⟩
  | childDup =>
    cases hstep
    exact ⟨⟨hi, hk, h.dup⟩, rfl, rfl, rfl⟩
  | childExecute =>
    cases hstep
    exact ⟨⟨hi, hk, h⟩, rfl, rfl, rfl⟩
  | running => cases hstep

/-! ### The whole system -/

/-- Before the shell forks, and from then on: the shell waits, its child runs the loop and the
children of that one come behind it in the order of their commands. -/
inductive Inv (n : ℕ) (t : FdTable (File X)) : System X → Prop
  | before {i : ℕ} {pipeFd : ℕ × ℕ} : Inv n t ⟨[⟨.main, i, pipeFd, t⟩], 0⟩
  | forked {i pipes : ℕ} {pipeFd : ℕ × ℕ} {parent : Proc X} {children : List (Proc X)} :
      ParentOk n t pipes children.length parent →
      (∀ k q, children[k]? = some q → ChildOk n t k q) →
      Inv n t ⟨⟨.wait, i, pipeFd, t⟩ :: parent :: children, pipes⟩

theorem ShellTable.idle (ht : ShellTable t) : Idle t 0 t := by
  refine ⟨rfl, rfl, fun fd k hfd => ?_⟩
  obtain ⟨x, hx⟩ := ht.own fd _ hfd
  cases hx

namespace Inv

variable {S S' : System X} {p g : ℕ}

theorem proc_step (hn : 1 ≤ n) (ht : ShellTable t) (h : Inv n t S) (hq : S.procs[p]? = some q)
    (hstep : q.step n S.shared = .ok (q', new, g)) :
    Inv n t ⟨S.procs.set p q' ++ new, g⟩ ∧
      q'.todo n + (new.map (Proc.todo n)).sum + 1 = q.todo n := by
  cases h with
  | @before i pipeFd =>
    cases p with
    | zero =>
      cases hq
      cases hstep
      have hparent : ParentOk n t 0 ([] : List (Proc X)).length ⟨.loop, 0, pipeFd, t⟩ :=
        ⟨hn, rfl, rfl, ht.idle⟩
      exact ⟨.forked hparent (by simp), by simp [Proc.todo]⟩
    | succ p => simp at hq
  | @forked i pipes pipeFd parent children hparent hchildren =>
    match p with
    | 0 =>
      cases hq
      cases hstep
    | 1 =>
      cases hq
      obtain ⟨hparent', hnew, hlen, htodo⟩ := hparent.step ht hstep
      rw [← List.length_append] at hparent'
      have hchildren' : ∀ k x, (children ++ new)[k]? = some x → ChildOk n t k x := by
        intro k x hx
        rw [List.getElem?_append] at hx
        split_ifs at hx with hk
        · exact hchildren k x hx
        · -- at most one process is new, so it is the child forked last
          have hlt : k - children.length < new.length := (List.getElem?_eq_some_iff.mp hx).1
          obtain rfl : k = children.length := by omega
          exact hnew x (List.mem_of_getElem? hx)
      exact ⟨.forked hparent' hchildren', htodo⟩
    | k + 2 =>
      have hq' : children[k]? = some q := by simpa using hq
      obtain ⟨hchild, rfl, rfl, htodo⟩ := (hchildren k q hq').step hstep
      refine ⟨?_, by simpa using htodo⟩
      rw [List.append_nil]
      refine .forked (by rwa [List.length_set]) fun j x hx => ?_
      rw [List.getElem?_set] at hx
      split_ifs at hx with hj hlt
      · cases hx
        exact hj ▸ hchild
      · exact hchildren j x hx

theorem step (hn : 1 ≤ n) (ht : ShellTable t) (h : Inv n t S)
    (hstep : S.step (Proc.step n) p = .ok S') :
    Inv n t S' ∧ S'.weight (Proc.todo n) + 1 = S.weight (Proc.todo n) := by
  refine ⟨?_, Sys.weight_step (fun q q' new g hq hs => (h.proc_step hn ht hq hs).2) hstep⟩
  obtain ⟨q, q', new, g, hq, hs, rfl⟩ := Sys.step_eq_ok.mp hstep
  exact (h.proc_step hn ht hq hs).1

end Inv

theorem Interleaving.inv {tr : List (Event (System X) ℕ Unit)} {S : System X} (hn : 1 ≤ n)
    (ht : ShellTable t) (h : Interleaving n t tr S) :
    Inv n t S ∧ tr.length + S.weight (Proc.todo n) = 7 * (n - 1) + 3 := by
  refine Run.invariant_history
    (fun tr S => Inv n t S ∧ tr.length + S.weight (Proc.todo n) = 7 * (n - 1) + 3) ?_ ?_ h
  · rintro _ ⟨i, pipeFd, rfl⟩
    exact ⟨.before, by simp [Sys.weight, Proc.todo]⟩
  · intro tr S p r S' h _ hstep
    obtain ⟨hinv, hlen⟩ := h
    obtain ⟨S₁, hS₁, heq⟩ := map_eq_ok.mp hstep
    cases heq
    obtain ⟨hinv', htodo⟩ := hinv.step hn ht hS₁
    refine ⟨hinv', ?_⟩
    rw [List.length_cons]
    omega

/-! ### The finished pipeline -/

def Runs (S : System X) (p k : ℕ) : Prop :=
  ∃ q, S.procs[p]? = some q ∧ q.pc = .running ∧ q.i = k

instance (S : System X) (p k : ℕ) : Decidable (Runs S p k) :=
  match h : S.procs[p]? with
  | none => .isFalse fun ⟨q, hq, _⟩ => by rw [h] at hq; cases hq
  | some q => decidable_of_iff (q.pc = .running ∧ q.i = k) (by simp [Runs, h])

def AllRunning (n : ℕ) (S : System X) : Prop := ∀ k < n, ∃ p, Runs S p k

/-- Process `p` exits, which closes its descriptors. -/
def exit (p : ℕ) (S : System X) : System X :=
  { S with procs := S.procs.modify p fun q => { q with fds := .empty } }

/-- Nobody can write to pipe `k` any more. -/
def EndOfFile (k : ℕ) (S : System X) : Prop :=
  ∀ q ∈ S.procs, ∀ fd, q.fds.get fd ≠ some (.writeEnd k)

theorem endOfFile_exit {S : System X} {p k : ℕ} (h : ∀ p' q fd, S.procs[p']? = some q →
    q.fds.get fd = some (.writeEnd k) → p' = p) : EndOfFile k (exit p S) := by
  intro q hq fd hfd
  obtain ⟨j, hj⟩ := List.mem_iff_getElem?.mp hq
  rw [exit, List.getElem?_modify] at hj
  obtain ⟨q₀, hq₀, rfl⟩ := Option.map_eq_some_iff.mp hj
  split_ifs at hfd with hp
  · simp at hfd
  · exact hp (h j q₀ fd hq₀ hfd).symm

namespace Inv

variable {S : System X} {p fd k : ℕ}

theorem proc_cases (h : Inv n t S) (hq : S.procs[p]? = some q) :
    p = 0 ∧ q.fds = t ∧ q.pc ≠ .running ∨ (p = 1 ∧ ∃ c, ParentOk n t S.shared c q) ∨
      ∃ j, p = j + 2 ∧ ChildOk n t j q := by
  cases h with
  | before =>
    cases p with
    | zero =>
      cases hq
      exact .inl ⟨rfl, rfl, by simp⟩
    | succ p => simp at hq
  | forked hparent hchildren =>
    match p with
    | 0 =>
      cases hq
      exact .inl ⟨rfl, rfl, by simp⟩
    | 1 =>
      cases hq
      exact .inr (.inl ⟨rfl, _, hparent⟩)
    | j + 2 => exact .inr (.inr ⟨j, rfl, hchildren j q (by simpa using hq)⟩)

theorem of_running (h : Inv n t S) (hq : S.procs[p]? = some q) (hrun : q.pc = .running) :
    p = 1 ∧ q.i + 1 = n ∧ Idle t q.i q.fds ∨
      p = q.i + 2 ∧ q.i + 1 < n ∧ Connected t q.i q.fds := by
  rcases h.proc_cases hq with ⟨-, -, hne⟩ | ⟨hp, c, hparent⟩ | ⟨j, hp, hi, hj, hchild⟩
  · exact absurd hrun hne
  · simp only [ParentOk, hrun] at hparent
    exact .inl ⟨hp, hparent.1, hparent.2.2⟩
  · rw [hrun] at hchild
    subst hi
    exact .inr ⟨hp, hj, hchild⟩

theorem eq_of_runs (h : Inv n t S) (hk : Runs S p k) : p = if k + 1 = n then 1 else k + 2 := by
  obtain ⟨q, hq, hrun, rfl⟩ := hk
  rcases h.of_running hq hrun with ⟨hp, hi, -⟩ | ⟨hp, hi, -⟩
  · rw [if_pos hi, hp]
  · rw [if_neg (by omega), hp]

/-- The shell keeps the descriptors it had, and once every command runs nobody else is left. -/
theorem eq_or_running (h : Inv n t S) (hn : 1 ≤ n) (hall : AllRunning n S)
    (hq : S.procs[p]? = some q) : q.fds = t ∨ q.pc = .running := by
  have hrunning : ∀ k < n, p = (if k + 1 = n then 1 else k + 2) → q.pc = .running := by
    intro k hk hp
    obtain ⟨p', hp'⟩ := hall k hk
    rw [← h.eq_of_runs hp'] at hp
    obtain ⟨q', hq', hrun, -⟩ := hp'
    rw [hp, hq'] at hq
    exact Option.some.inj hq ▸ hrun
  rcases h.proc_cases hq with ⟨-, ht, -⟩ | ⟨hp, -⟩ | ⟨j, hp, -, hj, -⟩
  · exact .inl ht
  · exact .inr (hrunning (n - 1) (by omega) (by rw [if_pos (by omega), hp]))
  · exact .inr (hrunning j (by omega) (by rw [if_neg (by omega), hp]))

theorem writer (h : Inv n t S) (hn : 1 ≤ n) (ht : ShellTable t) (hall : AllRunning n S)
    (hq : S.procs[p]? = some q) (hfd : q.fds.get fd = some (.writeEnd k)) : Runs S p k := by
  rcases h.eq_or_running hn hall hq with heq | hrun
  · exact absurd (heq ▸ hfd) (ht.idle.writers fd k)
  · rcases h.of_running hq hrun with ⟨-, -, hidle⟩ | ⟨-, -, hconn⟩
    · exact absurd hfd (hidle.writers fd k)
    · exact ⟨q, hq, hrun, (hconn.writers fd k hfd).symm⟩

theorem allRunning (h : Inv n t S) (hw : S.weight (Proc.todo n) = 0) : AllRunning n S := by
  have hzero := Sys.weight_eq_zero_iff.mp hw
  cases h with
  | before => simp [Proc.todo] at hzero
  | @forked i pipes pipeFd parent children hparent hchildren =>
    obtain ⟨hrun, hi, hlen⟩ := hparent.running (hzero parent (by simp))
    intro k hk
    by_cases hkn : k + 1 = n
    · exact ⟨1, parent, rfl, hrun, by omega⟩
    · have hk' : k < children.length := by omega
      have hchild := hchildren k _ (List.getElem?_eq_getElem hk')
      refine ⟨k + 2, children[k], List.getElem?_eq_getElem hk', hchild.running ?_, hchild.1⟩
      exact hzero _ (by simp)

end Inv

/-- Each command runs in one process, with its standard input and output connected to the pipes
before and behind it. Once all run, the write end of a pipe is with the command before it only,
so that its exit ends the input of the next one. Every interleaving gets there. -/
theorem pipeline_wired {tr : List (Event (System X) ℕ Unit)} {S : System X} (hn : 1 ≤ n)
    (ht : ShellTable t) (h : Interleaving n t tr S) :
    (∀ k p q, Runs S p k → S.procs[p]? = some q →
      k < n ∧ q.fds.get 0 = stdin t k ∧ q.fds.get 1 = stdout n t k) ∧
    (∀ k p p', Runs S p k → Runs S p' k → p = p') ∧
    (AllRunning n S → ∀ k p, Runs S p k →
      (∀ p' q fd, S.procs[p']? = some q → q.fds.get fd = some (.writeEnd k) → p' = p) ∧
      EndOfFile k (exit p S)) ∧
    tr.length ≤ 7 * n - 4 ∧ (AllRunning n S ∨ ∃ p S', exec n p S = .ok ((), S')) := by
  obtain ⟨hinv, hlen⟩ := h.inv hn ht
  have honce : ∀ k p p', Runs S p k → Runs S p' k → p = p' :=
    fun k p p' hp hp' => (hinv.eq_of_runs hp).trans (hinv.eq_of_runs hp').symm
  have hwriter : AllRunning n S → ∀ k p, Runs S p k → ∀ p' q fd, S.procs[p']? = some q →
      q.fds.get fd = some (.writeEnd k) → p' = p :=
    fun hall k p hp p' q fd hq hfd => honce k p' p (hinv.writer hn ht hall hq hfd) hp
  refine ⟨?_, honce, fun hall k p hp =>
    ⟨hwriter hall k p hp, endOfFile_exit (hwriter hall k p hp)⟩, by omega, ?_⟩
  · rintro k p q ⟨q', hq', hrun, rfl⟩ hq
    obtain rfl : q' = q := by simpa [hq'] using hq
    rcases hinv.of_running hq hrun with ⟨-, hi, hidle⟩ | ⟨-, hi, hconn⟩
    · exact ⟨by omega, hidle.input, by rw [stdout, if_pos hi, hidle.output]⟩
    · exact ⟨by omega, hconn.input, by rw [stdout, if_neg (by omega), hconn.output]⟩
  · by_cases hw : S.weight (Proc.todo n) = 0
    · exact .inl (hinv.allRunning hw)
    · obtain ⟨p, S', hS'⟩ := Sys.exists_step (fun q _ => q.exists_step) hw
      exact .inr ⟨p, S', map_eq_ok.mpr ⟨S', hS', rfl⟩⟩

def terminal : FdTable (File ℕ) := [some (.inherited 0), some (.inherited 1), some (.inherited 2)]

theorem shellTable_terminal : ShellTable terminal := by
  refine ⟨fun fd f h => ?_, by decide⟩
  match fd with
  | 0 | 1 | 2 => exact ⟨_, (Option.some.inj h).symm⟩
  | fd + 3 => cases h

/-- The second command is started before the first one has closed anything. -/
theorem pipeline_wired_two :
    ∃ tr S, Interleaving 2 terminal tr S ∧ tr.length = 10 ∧ Runs S 2 0 ∧ Runs S 1 1 ∧
      EndOfFile 0 (exit 2 S) := by
  obtain ⟨tr, S, h, hp⟩ : ∃ (tr : List (Event (System ℕ) ℕ Unit)) (S : System ℕ),
      Interleaving 2 terminal tr S ∧
        decide (tr.length = 10 ∧ Runs S 2 0 ∧ Runs S 1 1) = true :=
    Run.exists_of_replayCheck [0, 1, 1, 1, 1, 1, 1, 2, 2, 2] ⟨0, (0, 0), rfl⟩ (by decide +kernel)
  obtain ⟨hlen, h₀, h₁⟩ := of_decide_eq_true hp
  have hall : AllRunning 2 S := by
    intro k hk
    match k with
    | 0 => exact ⟨2, h₀⟩
    | 1 => exact ⟨1, h₁⟩
  obtain ⟨-, -, hwriter, -⟩ := pipeline_wired (by decide) shellTable_terminal h
  exact ⟨tr, S, h, hlen, h₀, h₁, (hwriter hall 0 2 h₀).2⟩

end SsuOs.Shell
