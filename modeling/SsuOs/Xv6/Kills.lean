import SsuOs.Xv6.Reaping

/-! `kill` looks for a pid without looking at the state of the entry, and `allocproc` does not
clear the flag that `kill` sets. -/
namespace SsuOs.Xv6
open Kernel Lib

/-- The entry that `kill` sets the flag of. -/
def killTarget (pid : ℤ) (k : Kernel) : Option (Fin nProc) :=
  (List.finRange nProc).find? fun i => (k.proc i).pid = pid

/-- No entry that waits to be taken by `allocproc` is marked as killed. -/
def Unmarked (k : Kernel) : Prop := ∀ j, (k.proc j).state = .unused → (k.proc j).killed = false

instance (k : Kernel) : Decidable (Unmarked k) := inferInstanceAs (Decidable (∀ _, _ → _))

/-- A `kill` that hits no unused entry, and a `fork` that gives back no killed child. -/
def MarksNone (a : Step) (k : Kernel) : Prop :=
  match a, k.cur with
  | .kill pid, _ => ∀ j, killTarget pid k = some j → (k.proc j).state ≠ .unused
  | .kalloc false, some i | .copyuvm false, some i =>
    ∀ np, (k.cont i).child = some np → (k.proc np).killed = false
  | _, _ => True

section

variable {k k' : Kernel} {i j m : Fin nProc}

theorem Unmarked.modify_iff {f : Proc → Proc} (h : Unmarked k)
    (hk : k'.proc = (k.modify m f).proc) :
    Unmarked k' ↔ ((f (k.proc m)).state = .unused → (f (k.proc m)).killed = false) := by
  constructor
  · intro h' hu
    have hm := h' m
    rw [hk, modify_proc, if_pos rfl] at hm
    exact hm hu
  · intro hm j hj
    rw [hk, modify_proc] at hj ⊢
    split_ifs at hj ⊢
    · exact hm hj
    · exact h j hj

theorem unmarked_wakeup1 (c : Chan) (h : Unmarked k) : Unmarked (k.wakeup1 c) := by
  intro j hj
  by_cases hs : (k.proc j).state = .sleeping ∧ (k.proc j).chan = c
  · simp [wakeup1, hs] at hj
  · simp only [wakeup1, if_neg hs] at hj ⊢
    exact h j hj

theorem unmarked_adopt (i j : Fin nProc) (h : Unmarked k) : Unmarked (k.adopt i j) := by
  have hm : Unmarked (k.modify j (fun p => { p with parent := some k.initproc })) :=
    (h.modify_iff rfl).mpr (h j)
  unfold adopt
  split_ifs
  · dsimp only
    split_ifs
    · exact unmarked_wakeup1 _ hm
    · exact hm
  · exact h

theorem unmarked_abandonChildren (i : Fin nProc) (h : Unmarked k) :
    Unmarked (k.abandonChildren i) := by
  unfold abandonChildren
  induction List.finRange nProc generalizing k with
  | nil => exact h
  | cons j js ih => exact ih (unmarked_adopt i j h)

theorem unmarked_sched (i : Fin nProc) (h : Unmarked k) : Unmarked (k.sched i) :=
  (h.modify_iff (f := fun p => { p with nswitch := wrap32 (p.nswitch + 1) }) rfl).mpr (h i)

theorem unmarked_exitProc (i : Fin nProc) (h : Unmarked k) : Unmarked (k.exitProc i) := by
  unfold exitProc
  have hp := unmarked_abandonChildren i (unmarked_wakeup1 (chanOf (k.proc i).parent) h)
  exact unmarked_sched i ((hp.modify_iff rfl).mpr (by simp))

theorem unmarked_goToSleep (c : Chan) (how : Cont) (h : Unmarked k) :
    Unmarked (k.goToSleep c how i) :=
  unmarked_sched i ((h.modify_iff (setCont_proc _ _ _)).mpr (by simp))

theorem unmarked_waitsIn {k₀ : Kernel} (hw : WaitsIn k i k₀) (h : Unmarked k) : Unmarked k₀ := by
  cases hw with
  | entered => exact h
  | woken => exact (h.modify_iff (setCont_proc _ _ _)).mpr (h i)

theorem unmarked_kill_iff (pid : ℤ) (h : Unmarked k) :
    Unmarked (k.kill pid).2 ↔ ∀ j, killTarget pid k = some j → (k.proc j).state ≠ .unused := by
  unfold Kernel.kill killTarget
  cases hf : (List.finRange nProc).find? (fun i => (k.proc i).pid = pid) with
  | none => simpa using h
  | some i =>
    rw [h.modify_iff rfl]
    dsimp only
    split_ifs with hs
    · simp [hs]
    · simp

theorem exec_kill {pid : ℤ} {r : Ret} (he : exec (.kill pid) k = .ok (r, k')) :
    k' = (k.kill pid).2 := by
  obtain ⟨i, hc⟩ := exec_some he (by simp) (by simp)
  simp only [exec, hc] at he
  split_ifs at he
  exact (ok_pair_inj he).2.symm

/-- Of all steps only `kill` and a `fork` without memory can leave a mark on an unused entry. -/
theorem exec_unmarked_iff {a : Step} {r : Ret} (hf : ForkInv k) (h : Unmarked k)
    (he : exec a k = .ok (r, k')) : Unmarked k' ↔ MarksNone a k := by
  cases exec_trans he with
  | advance | nextPass | tableFull | setPrioFail | kallocOk => exact iff_of_true h trivial
  | dispatch hc hcur hs =>
    refine iff_of_true ?_ trivial
    exact (h.modify_iff (m := k.highest ⟨k.cursor, hcur⟩)
      (f := fun p => { p with state := .running }) rfl).mpr (by simp)
  | wakeup c => exact iff_of_true (unmarked_wakeup1 c h) trivial
  | allocate i np hc hu hnp =>
    refine iff_of_true ?_ trivial
    exact (h.modify_iff (m := np) (f := fun p => { p with
      state := .embryo, pid := k.nextpid, ppid := 0, nswitch := 0, priority := 500 }) rfl).mpr
      (by simp)
  | kallocFail i np hc hu | copyuvmFail i np hc hu =>
    rw [h.modify_iff (setCont_proc _ _ _)]
    simp [MarksNone, hc, hu, Cont.child]
  | copyuvmOk i np hc hu =>
    have hemb := hf.child_embryo i np (by rw [hu]; rfl)
    exact iff_of_true ((h.modify_iff (setCont_proc _ _ _)).mpr (by simp [hemb])) trivial
  | commit i np hc hu =>
    exact iff_of_true ((h.modify_iff (setCont_proc _ _ _)).mpr (by simp)) trivial
  | exit i hc hu => exact iff_of_true (unmarked_exitProc i h) trivial
  | reap i j hc hw hj =>
    exact iff_of_true (((unmarked_waitsIn hw h).modify_iff rfl).mpr (by simp)) trivial
  | waitFail i hc hw => exact iff_of_true (unmarked_waitsIn hw h) trivial
  | waitSleep i hc hw =>
    exact iff_of_true (unmarked_goToSleep _ _ (unmarked_waitsIn hw h)) trivial
  | killed i j hc hj =>
    rw [exec_kill he]
    exact unmarked_kill_iff _ h
  | killMiss i hc hj =>
    refine iff_of_true h fun j hfound => ?_
    have hpid := List.find?_some hfound
    exact absurd (of_decide_eq_true hpid) (hj j)
  | sleep i c hc hu => exact iff_of_true (unmarked_goToSleep c .sleep h) trivial
  | wake i hc hu => exact iff_of_true ((h.modify_iff (setCont_proc _ _ _)).mpr (h i)) trivial
  | yield i hc hint =>
    exact iff_of_true (unmarked_sched i ((h.modify_iff rfl).mpr (by simp))) trivial
  | setPrio i hc hn | resize i sz hc => exact iff_of_true ((h.modify_iff rfl).mpr (h i)) trivial

end

theorem unmarked_userinit : Unmarked userinit := by
  intro j _
  by_cases hj : j = 0
  · rw [hj]
    rfl
  · rw [userinit_proc_of_ne hj]
    rfl

/-- The entries to be taken are unmarked in all states of a run exactly when no `kill` hits an
unused entry and no `fork` runs out of memory behind a `kill` of its child. In such a run, every
child starts its life unmarked. -/
theorem unmarked_iff_marksNone {tr : List (Event Kernel Step Ret)} {k : Kernel}
    (h : KernelRun tr k) :
    ((Unmarked k ∧ ∀ e ∈ tr, Unmarked e.pre) ↔ ∀ e ∈ tr, MarksNone e.call e.pre) ∧
    ((∀ e ∈ tr, MarksNone e.call e.pre) → ∀ e ∈ tr, ∀ np, e.ret = .created np →
      (e.pre.proc np).killed = false) := by
  have hiff := h.forall_iff_good ForkInv Unmarked MarksNone
    (by
      rintro _ rfl
      exact ⟨forkInv_userinit, unmarked_userinit⟩)
    (fun k a r k' hf _ he => ((exec_trans he).effect hf).forkInv hf)
    (fun k a r k' hf hp _ he => exec_unmarked_iff hf hp he)
  refine ⟨hiff, fun hgood e he np hr => ?_⟩
  have hun := (hiff.mpr hgood).2 e he
  obtain ⟨tr₂, tr₁, rfl⟩ := List.append_of_mem he
  obtain ⟨k', hrun⟩ := h.of_append
  have hexec := hrun.of_cons.2.2
  rw [hr] at hexec
  generalize e.call = a at hexec
  cases exec_trans hexec with
  | allocate i np hc hu hnp => exact hun np hnp

/-- `init` kills pid 0 and forks. -/
def killZero : List Step := [.scheduler, .scheduler, .kill 0, .allocproc, .kalloc true,
  .copyuvm true, .commit]

/-- Nobody has the pid 0, but `kill` finds it, and the next child is killed from the start. -/
theorem kill_zero_marks_child : ∃ tr k, KernelRun tr k ∧
    (∀ e ∈ tr, e.call = .kill 0 → e.ret = .int 0) ∧ (k.proc 1).pid = 2 ∧
    (k.proc 1).state = .runnable ∧ (k.proc 1).killed = true ∧
    ¬∀ e ∈ tr, MarksNone e.call e.pre := by
  have h : ∃ tr k, KernelRun tr k ∧ decide ((∀ e ∈ tr, e.call = .kill 0 → e.ret = .int 0) ∧
      (k.proc 1).pid = 2 ∧ (k.proc 1).state = .runnable ∧ (k.proc 1).killed = true ∧
      ∃ e ∈ tr, ¬Unmarked e.pre) = true :=
    Run.exists_of_replayCheck killZero rfl (by decide +kernel)
  obtain ⟨tr, k, hrun, hp⟩ := h
  obtain ⟨hret, hpid, hs, hk, e, he, hun⟩ := of_decide_eq_true hp
  exact ⟨tr, k, hrun, hret, hpid, hs, hk,
    fun hgood => hun (((unmarked_iff_marksNone hrun).1.mpr hgood).2 e he)⟩

end SsuOs.Xv6
