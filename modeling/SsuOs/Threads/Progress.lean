import Mathlib.Data.Fintype.Card
import SsuOs.Lib.Except
import SsuOs.Threads.MasterWorker

/-! The master-worker program never comes to a halt before all threads have left their loops. -/
namespace SsuOs.MasterWorker
open SsuOs.Lib

variable {c : Config} {s s' : State c}

def State.status (s : State c) : Thread c → Status
  | .master id => s.master id
  | .worker id => s.worker id

def State.running (s : State c) : ℕ :=
  (Finset.univ.filter fun id => s.master id = .running).card +
    (Finset.univ.filter fun id => s.worker id = .running).card

/-- What is left to do: every item has to be produced and consumed, every thread has to exit. -/
def State.remaining (s : State c) : ℤ :=
  2 * (c.totalItems - s.itemToProduce) + s.currBufSize + s.running

/-- A critical section of `t` that is not a round of its waiting loop. -/
inductive Advances (t : Thread c) (s s' : State c) : Prop
  | produces (h : s'.produced = s.itemToProduce :: s.produced)
  | consumes {item : ℤ} (h : s'.consumed = item :: s.consumed)
  | exits (h : s.status t = .running) (h' : s'.status t = .exited)

section Status

variable {n : ℕ} {f : Fin n → Status} {i : Fin n}

theorem Status.running_of_ne {x : Status} (h : x ≠ .exited) : x = .running := by
  cases x with
  | running => rfl
  | exited => exact absurd rfl h

theorem card_running_update (hi : f i = .running) :
    (Finset.univ.filter fun j => Function.update f i .exited j = .running).card + 1 =
      (Finset.univ.filter fun j => f j = .running).card := by
  have hmem : i ∈ Finset.univ.filter fun j => f j = .running := by simp [hi]
  rw [← Finset.card_erase_add_one hmem]
  congr 2
  ext j
  simp only [Finset.mem_filter, Finset.mem_univ, true_and, Finset.mem_erase,
    Function.update_apply]
  split_ifs with hj
  · simp [hj]
  · simp [hj]

end Status

theorem exec_cases {t : Thread c} (h : exec t s = .ok ((), s')) :
    s.status t = .running ∧
      ((∃ id, t = .master id ∧ generateRequestsLoop id s = .ok s') ∨
        ∃ id, t = .worker id ∧ generateWorkingLoop id s = .ok s') := by
  cases t with
  | master id =>
    obtain ⟨s₁, hrun, heq⟩ := map_eq_ok.mp h
    obtain ⟨-, rfl⟩ := Prod.mk.inj heq
    refine ⟨?_, Or.inl ⟨id, rfl, hrun⟩⟩
    unfold generateRequestsLoop at hrun
    split_ifs at hrun with hex
    all_goals exact Status.running_of_ne hex
  | worker id =>
    obtain ⟨s₁, hrun, heq⟩ := map_eq_ok.mp h
    obtain ⟨-, rfl⟩ := Prod.mk.inj heq
    refine ⟨?_, Or.inr ⟨id, rfl, hrun⟩⟩
    unfold generateWorkingLoop at hrun
    split_ifs at hrun with hex
    all_goals exact Status.running_of_ne hex

/-- A master leaves only when all items have been produced. -/
def MastersLeft (s : State c) : Prop :=
  ∀ m, s.master m = .exited → c.totalItems ≤ s.itemToProduce

theorem exec_mastersLeft {t : Thread c} (hs : Inv s) (hm : MastersLeft s)
    (h : exec t s = .ok ((), s')) : MastersLeft s' := by
  obtain ⟨-, ⟨id, rfl, hrun⟩ | ⟨id, rfl, hrun⟩⟩ := exec_cases h
  · rcases generateRequestsLoop_cases hs hrun with ⟨hd, rfl⟩ | ⟨_, rfl⟩ | ⟨hi, hb, k, hk, rfl⟩
    · exact fun _ _ => hd
    · exact hm
    · intro m hex
      have := hm m hex
      omega
  · rcases generateWorkingLoop_cases hs hrun with ⟨_, _, rfl⟩ | ⟨_, rfl⟩ | ⟨_, k, hk, rfl⟩
    · exact hm
    · exact hm
    · exact hm

theorem interleaving_mastersLeft {tr : List (Event (State c) (Thread c) Unit)}
    (ht : 0 ≤ c.totalItems) (hb : 1 ≤ c.maxBufSize) (h : Interleaving c tr s) :
    MastersLeft s := by
  have hboth : Inv s ∧ MastersLeft s := by
    apply h.invariant
    · intro s hi
      refine ⟨hi.inv ht hb, fun m hex => ?_⟩
      rw [hi.2.2.1 m] at hex
      cases hex
    · intro s t u s' hs _ he
      exact ⟨exec_inv hs.1 he, exec_mastersLeft hs.1 hs.2 he⟩
  exact hboth.2

section Steps

variable {m : Fin c.numMasters} {w : Fin c.numWorkers}

theorem master_exits (hm : s.master m = .running) (hd : c.totalItems ≤ s.itemToProduce) :
    ∃ s', exec (.master m) s = .ok ((), s') ∧ Advances (.master m) s s' := by
  refine ⟨{ s with master := Function.update s.master m .exited }, ?_, .exits hm ?_⟩
  · have hne : s.master m ≠ .exited := by simp [hm]
    rw [exec, generateRequestsLoop, if_neg hne, if_pos hd]
    rfl
  · exact Function.update_self _ _ _

theorem master_produces (hs : Inv s) (hm : s.master m = .running)
    (hi : s.itemToProduce < c.totalItems) (hb : s.currBufSize < c.maxBufSize) :
    ∃ s', exec (.master m) s = .ok ((), s') ∧ Advances (.master m) s s' := by
  obtain ⟨k, hk, -⟩ := bufferCell_of_bounds hs.buf_nonneg hb
  have hne : s.master m ≠ .exited := by simp [hm]
  have hrun : exec (.master m) s = .ok ((), { s with
      buffer := Function.update s.buffer k s.itemToProduce
      currBufSize := s.currBufSize + 1
      log := .produced s.itemToProduce m :: s.log
      itemToProduce := s.itemToProduce + 1 }) := by
    rw [exec, generateRequestsLoop, if_neg hne, if_neg (not_le.mpr hi), if_neg (not_le.mpr hb), hk]
    rfl
  exact ⟨_, hrun, .produces rfl⟩

theorem worker_consumes (hs : Inv s) (hw : s.worker w = .running) (hb : 0 < s.currBufSize) :
    ∃ s', exec (.worker w) s = .ok ((), s') ∧ Advances (.worker w) s s' := by
  have hle := hs.buf_le
  obtain ⟨k, hk, -⟩ := bufferCell_of_bounds (c := c) (i := s.currBufSize - 1) (by omega) (by omega)
  have hne : s.worker w ≠ .exited := by simp [hw]
  have hrun : exec (.worker w) s = .ok ((), { s with
      currBufSize := s.currBufSize - 1
      log := .consumed (s.buffer k) w :: s.log }) := by
    rw [exec, generateWorkingLoop, if_neg hne, if_neg hb.ne', hk]
    rfl
  exact ⟨_, hrun, .consumes rfl⟩

theorem worker_exits (hw : s.worker w = .running) (hb : s.currBufSize = 0)
    (hd : c.totalItems ≤ s.itemToProduce) :
    ∃ s', exec (.worker w) s = .ok ((), s') ∧ Advances (.worker w) s s' := by
  refine ⟨{ s with worker := Function.update s.worker w .exited }, ?_, .exits hw ?_⟩
  · have hne : s.worker w ≠ .exited := by simp [hw]
    rw [exec, generateWorkingLoop, if_neg hne, if_pos hb, if_pos hd]
    rfl
  · exact Function.update_self _ _ _

theorem not_advances_self (t : Thread c) : ¬Advances t s s := by
  rintro (h | h | ⟨h, h'⟩)
  · exact List.cons_ne_self _ _ h.symm
  · exact List.cons_ne_self _ _ h.symm
  · rw [h] at h'
    cases h'

theorem remaining_nonneg (hs : Inv s) : 0 ≤ s.remaining := by
  have hi := hs.item_le
  have hb := hs.buf_nonneg
  unfold State.remaining
  omega

theorem remaining_lt {t : Thread c} (hs : Inv s) (h : exec t s = .ok ((), s'))
    (ha : Advances t s s') : s'.remaining < s.remaining := by
  obtain ⟨hrunning, ⟨id, rfl, hrun⟩ | ⟨id, rfl, hrun⟩⟩ := exec_cases h
  · rcases generateRequestsLoop_cases hs hrun with ⟨_, rfl⟩ | ⟨_, rfl⟩ | ⟨_, _, k, _, rfl⟩
    · have hcard := card_running_update (f := s.master) (i := id) hrunning
      dsimp only [State.remaining, State.running]
      omega
    · exact absurd ha (not_advances_self _)
    · dsimp only [State.remaining, State.running]
      omega
  · rcases generateWorkingLoop_cases hs hrun with ⟨_, _, rfl⟩ | ⟨_, rfl⟩ | ⟨_, k, _, rfl⟩
    · have hcard := card_running_update (f := s.worker) (i := id) hrunning
      dsimp only [State.remaining, State.running]
      omega
    · exact absurd ha (not_advances_self _)
    · dsimp only [State.remaining, State.running]
      omega

end Steps

/-- As long as some thread has not exited, there is one whose next critical section produces an
item, consumes one or exits; and each of these steps leaves less to do. -/
theorem always_progress {tr : List (Event (State c) (Thread c) Unit)} (hm : 1 ≤ c.numMasters)
    (hw : 1 ≤ c.numWorkers) (ht : 0 ≤ c.totalItems) (hb : 1 ≤ c.maxBufSize)
    (h : Interleaving c tr s) :
    ((∃ t, s.status t = .running) → ∃ t s', exec t s = .ok ((), s') ∧ Advances t s s') ∧
    ∀ t s', exec t s = .ok ((), s') → Advances t s s' →
      0 ≤ s'.remaining ∧ s'.remaining < s.remaining := by
  have hs := interleaving_inv ht hb h
  have hmasters := interleaving_mastersLeft ht hb h
  refine ⟨?_, fun t s' he ha => ⟨remaining_nonneg (exec_inv hs he), remaining_lt hs he ha⟩⟩
  rintro ⟨t, hrunning⟩
  by_cases hi : s.itemToProduce < c.totalItems
  · -- Neither a master nor a worker has left yet.
    by_cases hfull : s.currBufSize < c.maxBufSize
    · have hrun : s.master ⟨0, hm⟩ = .running :=
        Status.running_of_ne fun hex => absurd (hmasters _ hex) (not_le.mpr hi)
      exact ⟨_, master_produces hs hrun hi hfull⟩
    · have hrun : s.worker ⟨0, hw⟩ = .running :=
        Status.running_of_ne fun hex => absurd (hs.left _ hex).1 (not_le.mpr hi)
      exact ⟨_, worker_consumes hs hrun (by omega)⟩
  · cases t with
    | master id => exact ⟨_, master_exits hrunning (not_lt.mp hi)⟩
    | worker id =>
      by_cases hempty : s.currBufSize = 0
      · exact ⟨_, worker_exits hrunning hempty (not_lt.mp hi)⟩
      · have hpos := hs.buf_nonneg
        exact ⟨_, worker_consumes hs hrunning (by omega)⟩

/-- With a full buffer the only master waits and the worker consumes. -/
theorem always_progress_full :
    ∃ (tr : List (Event (State ⟨2, 1, 1, 1⟩) (Thread ⟨2, 1, 1, 1⟩) Unit))
      (s : State ⟨2, 1, 1, 1⟩), Interleaving ⟨2, 1, 1, 1⟩ tr s ∧ s.currBufSize = 1 ∧
        ∃ t s', exec t s = .ok ((), s') ∧ Advances t s s' := by
  have h₀ : Interleaving ⟨2, 1, 1, 1⟩ []
      ⟨0, 0, fun _ => 7, fun _ => .running, fun _ => .running, []⟩ :=
    .start ⟨rfl, rfl, fun _ => rfl, fun _ => rfl, rfl⟩
  have h₁ := h₀.step (c := .master 0) trivial rfl
  exact ⟨_, _, h₁, rfl, (always_progress (by decide) (by decide) (by decide) (by decide) h₁).1
    ⟨.worker 0, rfl⟩⟩

end SsuOs.MasterWorker
