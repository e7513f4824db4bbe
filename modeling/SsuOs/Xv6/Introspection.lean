import Mathlib.Data.Fintype.Card
import Mathlib.Data.Fintype.BigOperators
import SsuOs.Xv6.Table

/-! The calls that report on the process table look at pids only; here they are compared with
the states of the entries. -/
namespace SsuOs.Xv6
open Kernel Lib

def getNumProc (k : Kernel) : ℤ :=
  (List.finRange nProc).foldl (fun num i => if (k.proc i).pid ≠ 0 then num + 1 else num) 0

def getMaxPid (k : Kernel) : ℤ :=
  (List.finRange nProc).foldl (fun max i =>
    if (k.proc i).pid ≠ 0 ∧ (k.proc i).pid > max then (k.proc i).pid else max) 0

structure ProcessInfo where
  pid : ℤ
  ppid : ℤ
  psize : ℕ
  nswitch : ℤ
  deriving DecidableEq

def Proc.info (p : Proc) : ProcessInfo := ⟨p.pid, p.ppid, p.sz, p.nswitch⟩

/-- The return value and what was stored through the `processinfo` pointer, if anything. -/
def getProcInfo (pid : ℤ) (k : Kernel) : ℤ × Option ProcessInfo :=
  match (List.finRange nProc).find? (fun i => (k.proc i).pid = pid) with
  | some i => (0, some (k.proc i).info)
  | none => (-1, none)

def Live (k : Kernel) (i : Fin nProc) : Prop := (k.proc i).state ≠ .unused

instance (k : Kernel) (i : Fin nProc) : Decidable (Live k i) := inferInstanceAs (Decidable (_ ≠ _))

def liveCount (k : Kernel) : ℕ := (Finset.univ.filter (Live k)).card

/-- `m` is the largest pid of a live entry, 0 without one. -/
def IsMaxLivePid (k : Kernel) (m : ℤ) : Prop :=
  (m = 0 ∧ ∀ i, ¬Live k i) ∨ ∃ i, Live k i ∧ (k.proc i).pid = m ∧ ∀ j, Live k j → (k.proc j).pid ≤ m

/-- The three calls, the last one asked about `q`, describe the live entries. -/
structure Agrees (k : Kernel) (q : ℤ) : Prop where
  num : getNumProc k = liveCount k
  max : IsMaxLivePid k (getMaxPid k)
  ret : (getProcInfo q k).1 = 0 ↔ ∃ i, Live k i ∧ (k.proc i).pid = q
  info : ∀ i, Live k i → (k.proc i).pid = q → (getProcInfo q k).2 = some (k.proc i).info

theorem foldl_count {α : Type} (p : α → Prop) [DecidablePred p] (l : List α) (n : ℤ) :
    l.foldl (fun num i => if p i then num + 1 else num) n = n + (l.countP (fun i => p i) : ℕ) := by
  induction l generalizing n with
  | nil => simp
  | cons a l ih =>
    rw [List.foldl_cons, ih, List.countP_cons]
    by_cases ha : p a
    · simp only [ha, if_true, decide_true]
      push_cast
      omega
    · simp [ha]

theorem getNumProc_eq (k : Kernel) :
    getNumProc k = ((Finset.univ.filter fun i => (k.proc i).pid ≠ 0).card : ℕ) := by
  unfold getNumProc
  rw [foldl_count (fun i => (k.proc i).pid ≠ 0), zero_add, Finset.card_def, Finset.filter_val,
    Fin.univ_def, ← Multiset.countP_eq_card_filter, Multiset.coe_countP]

theorem foldl_max (k : Kernel) (l : List (Fin nProc)) (m : ℤ) :
    let r := l.foldl (fun max i =>
      if (k.proc i).pid ≠ 0 ∧ (k.proc i).pid > max then (k.proc i).pid else max) m
    (r = m ∨ ∃ i ∈ l, (k.proc i).pid = r ∧ r ≠ 0) ∧ m ≤ r ∧
      ∀ i ∈ l, (k.proc i).pid ≠ 0 → (k.proc i).pid ≤ r := by
  induction l generalizing m with
  | nil => simp
  | cons a l ih =>
    dsimp only
    rw [List.foldl_cons]
    obtain ⟨hr, hle, hall⟩ :=
      ih (if (k.proc a).pid ≠ 0 ∧ (k.proc a).pid > m then (k.proc a).pid else m)
    generalize List.foldl _ _ l = r at hr hle hall ⊢
    split_ifs at hr hle with ha
    · refine ⟨?_, by omega, ?_⟩
      · rcases hr with hr | ⟨i, hi, hri⟩
        · exact Or.inr ⟨a, List.mem_cons_self, hr.symm, hr ▸ ha.1⟩
        · exact Or.inr ⟨i, List.mem_cons_of_mem a hi, hri⟩
      · intro i hi hne
        rcases List.mem_cons.mp hi with rfl | hi
        · exact hle
        · exact hall i hi hne
    · refine ⟨?_, hle, ?_⟩
      · rcases hr with hr | ⟨i, hi, hri⟩
        · exact Or.inl hr
        · exact Or.inr ⟨i, List.mem_cons_of_mem a hi, hri⟩
      · intro i hi hne
        rcases List.mem_cons.mp hi with rfl | hi
        · by_contra hlt
          exact ha ⟨hne, by omega⟩
        · exact hall i hi hne

theorem getProcInfo_ret (q : ℤ) (k : Kernel) :
    (getProcInfo q k).1 = 0 ↔ ∃ i, (k.proc i).pid = q := by
  unfold getProcInfo
  split
  · rename_i i hi
    have hq := List.find?_some hi
    exact iff_of_true rfl ⟨i, by simpa using hq⟩
  · rename_i hn
    apply iff_of_false (by simp)
    intro hex
    obtain ⟨i, hi⟩ := hex
    simpa [hi] using List.find?_eq_none.mp hn i (List.mem_finRange i)

theorem getProcInfo_info {q : ℤ} {k : Kernel} {i : Fin nProc} (hi : (k.proc i).pid = q)
    (huniq : ∀ j, (k.proc j).pid = q → j = i) : (getProcInfo q k).2 = some (k.proc i).info := by
  unfold getProcInfo
  split
  · rename_i j hj
    have hq := List.find?_some hj
    rw [huniq j (by simpa using hq)]
  · rename_i hn
    simpa [hi] using List.find?_eq_none.mp hn i (List.mem_finRange i)

section Agrees

variable {k : Kernel}

/-- In a clean table the pids tell the live entries from the others. -/
theorem live_iff_of_clean (hi : TableInv k) (hc : Clean k) (i : Fin nProc) :
    Live k i ↔ (k.proc i).pid ≠ 0 := by
  constructor
  · exact hi.pid_of_live i
  · intro hp hu
    exact hp (hc i hu)

theorem clean_of_num (hi : TableInv k) (h : getNumProc k = liveCount k) : Clean k := by
  rw [getNumProc_eq] at h
  unfold liveCount at h
  have hsub : Finset.univ.filter (Live k) ⊆ Finset.univ.filter fun i => (k.proc i).pid ≠ 0 := by
    intro i hl
    simp only [Finset.mem_filter, Finset.mem_univ, true_and] at hl ⊢
    exact hi.pid_of_live i hl
  have heq := Finset.eq_of_subset_of_card_le hsub (by omega)
  intro i hu
  by_contra hp
  have hmem : i ∈ Finset.univ.filter (Live k) := by
    rw [heq]
    simpa using hp
  exact (Finset.mem_filter.mp hmem).2 hu

theorem max_of_clean (hi : TableInv k) (hc : Clean k) : IsMaxLivePid k (getMaxPid k) := by
  obtain ⟨hr, -, hall⟩ := foldl_max k (List.finRange nProc) 0
  change getMaxPid k = 0 ∨ _ at hr
  change ∀ i ∈ _, _ → _ ≤ getMaxPid k at hall
  by_cases hz : ∀ i, ¬Live k i
  · refine Or.inl ⟨?_, hz⟩
    rcases hr with hr | ⟨i, -, hp, hne⟩
    · exact hr
    · exact absurd ((live_iff_of_clean hi hc i).mpr (hp.trans_ne hne)) (hz i)
  · refine Or.inr ?_
    have hle : ∀ j, Live k j → (k.proc j).pid ≤ getMaxPid k := fun j hj =>
      hall j (List.mem_finRange j) (hi.pid_of_live j hj)
    rcases hr with hr | ⟨i, -, hp, hne⟩
    · push Not at hz
      obtain ⟨i, hl⟩ := hz
      have := hle i hl
      have := hi.pid_nonneg i
      exact absurd (by omega) (hi.pid_of_live i hl)
    · exact ⟨i, (live_iff_of_clean hi hc i).mpr (hp.trans_ne hne), hp, hle⟩

/-- The calls are right exactly when no stale pid is left and pid 0 is not asked for while an
unused entry carries it. -/
theorem agrees_iff (hi : TableInv k) (q : ℤ) :
    Agrees k q ↔ Clean k ∧ (q = 0 → ∀ i, Live k i) := by
  constructor
  · intro h
    have hc := clean_of_num hi h.num
    refine ⟨hc, ?_⟩
    rintro rfl i hu
    obtain ⟨j, hj, hp⟩ := h.ret.mp ((getProcInfo_ret 0 k).mpr ⟨i, hc i hu⟩)
    exact hi.pid_of_live j hj hp
  · rintro ⟨hc, hq⟩
    have hlive : ∀ i, (k.proc i).pid = q → Live k i := by
      intro i hp
      by_cases h0 : q = 0
      · exact hq h0 i
      · exact (live_iff_of_clean hi hc i).mpr (hp.trans_ne h0)
    constructor
    · rw [getNumProc_eq, liveCount]
      congr 3
      ext i
      exact (live_iff_of_clean hi hc i).symm
    · exact max_of_clean hi hc
    · rw [getProcInfo_ret]
      exact exists_congr fun i => ⟨fun hp => ⟨hlive i hp, hp⟩, And.right⟩
    · intro i hl hp
      refine getProcInfo_info hp fun j hj => ?_
      exact hi.pid_inj j i (hj.trans hp.symm) (hi.pid_of_live j (hlive j hj))

end Agrees

theorem tableInv_userinit : TableInv userinit := by
  have hpid : ∀ i, (userinit.proc i).pid = if i = 0 then 1 else 0 := by
    intro i
    split_ifs with hi
    · rw [hi]; rfl
    · rw [userinit_proc_of_ne hi]; rfl
  apply TableInv.of_forkInv forkInv_userinit
  · intro i
    rw [hpid]
    split_ifs <;> omega
  · decide
  · intro _ i
    rw [hpid]
    change _ < 2
    split_ifs <;> omega
  · intro i hs
    have hi : i = 0 := by
      by_contra hi
      exact hs (by rw [userinit_proc_of_ne hi]; rfl)
    rw [hpid, if_pos hi]
    omega
  · intro i j he hne
    rw [hpid] at hne
    rw [hpid, hpid] at he
    by_cases hi : i = 0
    · by_cases hj : j = 0
      · exact hi.trans hj.symm
      · simp [hi, hj] at he
    · simp [hi] at hne

/-- Processes created in a run, `init` not counted. -/
def creations (tr : List (Event Kernel Step Ret)) : ℕ := (tr.map fun e => e.ret.creations).sum

/-- A step that creates a process finds a pid that has not wrapped around. -/
def Room (a : Step) (k : Kernel) : Prop :=
  ∀ np k', exec a k = .ok (.created np, k') → 1 ≤ k.nextpid

theorem keeps_of_room {k k' : Kernel} {a : Step} {r : Ret} (hf : ForkInv k) (hi : TableInv k)
    (ha : Room a k) (he : exec a k = .ok (r, k')) : ForkInv k' ∧ Keeps k a r k' := by
  have heff := (exec_trans he).effect hf
  exact ⟨heff.forkInv hf, heff.keeps hf hi fun np hr => ha np k' (hr ▸ he)⟩

theorem tableInv_of_run {tr : List (Event Kernel Step Ret)} {k : Kernel}
    (h : Run exec Room (· = userinit) tr k) : ForkInv k ∧ TableInv k := by
  apply h.invariant
  · rintro _ rfl
    exact ⟨forkInv_userinit, tableInv_userinit⟩
  · intro k a r k' hi ha he
    obtain ⟨hf', hk⟩ := keeps_of_room hi.1 hi.2 ha he
    exact ⟨hf', hk.inv⟩

/-- With fewer than `2 ^ 31 - 1` creations, no process gets a wrapped pid. -/
theorem run_room {tr : List (Event Kernel Step Ret)} {k : Kernel} (h : KernelRun tr k) :
    creations tr < 2 ^ 31 - 1 →
      Run exec Room (· = userinit) tr k ∧ k.nextpid = wrap32 (creations tr + 2) := by
  apply h.invariant_history (fun tr k => creations tr < 2 ^ 31 - 1 →
    Run exec Room (· = userinit) tr k ∧ k.nextpid = wrap32 (creations tr + 2))
  · rintro _ rfl _
    exact ⟨.start rfl, rfl⟩
  · intro tr k a r k' ih _ he hlt
    have hsum : creations (⟨k, a, r⟩ :: tr) = r.creations + creations tr := by
      simp [creations]
    rw [hsum] at hlt ⊢
    obtain ⟨hrun, hnext⟩ := ih (by omega)
    have hroom : Room a k := by
      intro np k'' he'
      have hr : r = .created np := (ok_unique_pair he he').1
      rw [hr, Ret.creations] at hlt
      rw [hnext]
      unfold wrap32
      omega
    obtain ⟨hf, hi⟩ := tableInv_of_run hrun
    refine ⟨hrun.step hroom he, ?_⟩
    rw [(keeps_of_room hf hi hroom he).2.nextpid _ hnext]
    congr 1
    push_cast
    omega

/-- The calls describe the live entries in every state of a run, pid 0 never being asked for,
exactly when no `fork` of the run is out of memory. Pid 0 is answered rightly by a full table
only. -/
theorem introspection_agrees {tr : List (Event Kernel Step Ret)} {k : Kernel}
    (h : KernelRun tr k) (hc : creations tr < 2 ^ 31 - 1) :
    (((∀ q ≠ 0, Agrees k q) ∧ ∀ e ∈ tr, ∀ q ≠ 0, Agrees e.pre q) ↔
      ∀ e ∈ tr, ¬e.call.OutOfMemory) ∧
    ∀ q, Agrees k q ↔ Clean k ∧ (q = 0 → ∀ i, Live k i) := by
  obtain ⟨hrun, -⟩ := run_room h hc
  have hclean : ∀ k, TableInv k → ((∀ q ≠ 0, Agrees k q) ↔ Clean k) := by
    intro k hi
    constructor
    · intro hq
      exact ((agrees_iff hi 1).mp (hq 1 (by decide))).1
    · intro hcl q hq
      exact (agrees_iff hi q).mpr ⟨hcl, fun h0 => absurd h0 hq⟩
  refine ⟨?_, agrees_iff (tableInv_of_run hrun).2⟩
  refine hrun.forall_iff_good (fun k => ForkInv k ∧ TableInv k) (fun k => ∀ q ≠ 0, Agrees k q)
    (fun a _ => ¬a.OutOfMemory) ?_ ?_ ?_
  · rintro _ rfl
    refine ⟨⟨forkInv_userinit, tableInv_userinit⟩,
      (hclean _ tableInv_userinit).mpr fun i hu => ?_⟩
    have hi : i ≠ 0 := by
      rintro rfl
      cases hu
    rw [userinit_proc_of_ne hi]
    rfl
  · intro k a r k' hi ha he
    obtain ⟨hf', hk⟩ := keeps_of_room hi.1 hi.2 ha he
    exact ⟨hf', hk.inv⟩
  · intro k a r k' hi hp ha he
    obtain ⟨-, hk⟩ := keeps_of_room hi.1 hi.2 ha he
    rw [hclean k' hk.inv]
    exact hk.clean ((hclean k hi.2).mp hp)

/-- `init` forks two children and waits; the first one exits. -/
def childReported : List Step :=
  [.scheduler, .scheduler, .allocproc, .kalloc true, .copyuvm true, .commit, .allocproc,
    .kalloc true, .copyuvm true, .commit, .setPrio 600, .wait, .scheduler, .exit, .scheduler, .wait]

/-- The second child is reported, and the first one is not any more. -/
theorem introspection_agrees_childReported : ∃ tr k, KernelRun tr k ∧ getNumProc k = 2 ∧
    getMaxPid k = 3 ∧ (getProcInfo 2 k).1 = -1 ∧ (∀ q ≠ 0, Agrees k q) ∧
    ∀ e ∈ tr, ∀ q ≠ 0, Agrees e.pre q := by
  have h : ∃ tr k, KernelRun tr k ∧ decide (creations tr < 2 ^ 31 - 1 ∧ getNumProc k = 2 ∧
      getMaxPid k = 3 ∧ (getProcInfo 2 k).1 = -1 ∧ ∀ e ∈ tr, ¬e.call.OutOfMemory) = true :=
    Run.exists_of_replayCheck childReported rfl (by decide +kernel)
  obtain ⟨tr, k, hrun, hp⟩ := h
  obtain ⟨hc, hnum, hmax, hinfo, hmem⟩ := of_decide_eq_true hp
  exact ⟨tr, k, hrun, hnum, hmax, hinfo, (introspection_agrees hrun hc).1.mpr hmem⟩

/-- The first `fork` of `init` finds no memory for the kernel stack of its child. -/
def forkOutOfMemory : List Step := [.scheduler, .scheduler, .allocproc, .kalloc false]

/-- Process 1 is the only one left, but the entry given back is still counted, its pid is the
largest one and it is reported as a process. An entry never used is reported as process 0. -/
theorem introspection_counts_unused : ∃ tr k, KernelRun tr k ∧ creations tr < 2 ^ 31 - 1 ∧
    (∀ i, Live k i → (k.proc i).pid = 1) ∧ liveCount k = 1 ∧ getNumProc k = 2 ∧
    getMaxPid k = 2 ∧ (getProcInfo 2 k).1 = 0 ∧ (getProcInfo 0 k).1 = 0 := by
  have h : ∃ tr k, KernelRun tr k ∧ decide (creations tr < 2 ^ 31 - 1 ∧
      (∀ i, Live k i → (k.proc i).pid = 1) ∧ liveCount k = 1 ∧ getNumProc k = 2 ∧
      getMaxPid k = 2 ∧ (getProcInfo 2 k).1 = 0 ∧ (getProcInfo 0 k).1 = 0) = true :=
    Run.exists_of_replayCheck forkOutOfMemory rfl (by decide +kernel)
  obtain ⟨tr, k, hrun, hp⟩ := h
  exact ⟨tr, k, hrun, of_decide_eq_true hp⟩

end SsuOs.Xv6
