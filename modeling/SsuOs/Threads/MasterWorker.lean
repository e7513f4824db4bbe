import Mathlib.Data.List.OfFn
import Mathlib.Data.List.Nodup
import Mathlib.Data.List.Range
import Mathlib.Tactic.Linarith
import SsuOs.Lib.Run

/-! The master-worker program: any number of masters and workers share one LIFO buffer.
Each critical section of a loop body is one atomic step of its thread. -/
namespace SsuOs.MasterWorker
open SsuOs.Lib

structure Config where
  totalItems : ℤ
  maxBufSize : ℤ
  numWorkers : ℕ
  numMasters : ℕ

/-- A line printed by `print_produced` or `print_consumed`. -/
inductive Line
  | produced (num : ℤ) (master : ℕ)
  | consumed (num : ℤ) (worker : ℕ)
  deriving DecidableEq

inductive Status
  | running
  | exited
  deriving DecidableEq

inductive Thread (c : Config)
  | master (id : Fin c.numMasters)
  | worker (id : Fin c.numWorkers)

/-- The shared variables, the threads that have left their loop and the output so far,
latest line first. -/
structure State (c : Config) where
  itemToProduce : ℤ
  currBufSize : ℤ
  buffer : Fin c.maxBufSize.toNat → ℤ
  master : Fin c.numMasters → Status
  worker : Fin c.numWorkers → Status
  log : List Line

inductive Fault
  | outOfBounds
  | threadExited

variable {c : Config}

/-- The cell `buffer[i]` of the allocated array. -/
def bufferCell (c : Config) (i : ℤ) : Except Fault (Fin c.maxBufSize.toNat) :=
  if h : 0 ≤ i ∧ i < c.maxBufSize then .ok ⟨i.toNat, by omega⟩ else .error .outOfBounds

/-- One critical section of `generate_requests_loop`. -/
def generateRequestsLoop (id : Fin c.numMasters) (s : State c) : Except Fault (State c) :=
  if s.master id = .exited then .error .threadExited
  else if s.itemToProduce ≥ c.totalItems then
    .ok { s with master := Function.update s.master id .exited }
  else if s.currBufSize ≥ c.maxBufSize then .ok s
  else do
    let k ← bufferCell c s.currBufSize
    .ok { s with
      buffer := Function.update s.buffer k s.itemToProduce
      currBufSize := s.currBufSize + 1
      log := .produced s.itemToProduce id :: s.log
      itemToProduce := s.itemToProduce + 1 }

/-- One critical section of `generate_working_loop`. -/
def generateWorkingLoop (id : Fin c.numWorkers) (s : State c) : Except Fault (State c) :=
  if s.worker id = .exited then .error .threadExited
  else if s.currBufSize = 0 then
    if s.itemToProduce ≥ c.totalItems then
      .ok { s with worker := Function.update s.worker id .exited }
    else .ok s
  else do
    let k ← bufferCell c (s.currBufSize - 1)
    .ok { s with
      currBufSize := s.currBufSize - 1
      log := .consumed (s.buffer k) id :: s.log }

def exec (t : Thread c) (s : State c) : Except Fault (Unit × State c) :=
  match t with
  | .master id => (generateRequestsLoop id s).map ((), ·)
  | .worker id => (generateWorkingLoop id s).map ((), ·)

/-- `main` up to the creation of the threads; the allocated buffer holds anything. -/
def Initial (s : State c) : Prop :=
  s.itemToProduce = 0 ∧ s.currBufSize = 0 ∧ (∀ m, s.master m = .running) ∧
    (∀ w, s.worker w = .running) ∧ s.log = []

/-- Every interleaving of the critical sections. -/
abbrev Interleaving (c : Config) : List (Event (State c) (Thread c) Unit) → State c → Prop :=
  Run exec (fun _ _ => True) Initial

def Line.producedItem : Line → Option ℤ
  | .produced n _ => some n
  | .consumed _ _ => none

def Line.consumedItem : Line → Option ℤ
  | .produced _ _ => none
  | .consumed n _ => some n

def State.produced (s : State c) : List ℤ := s.log.filterMap Line.producedItem

def State.consumed (s : State c) : List ℤ := s.log.filterMap Line.consumedItem

/-- The items in `buffer[0..curr_buf_size)`. -/
def State.stored (s : State c) : List ℤ := (List.ofFn s.buffer).take s.currBufSize.toNat

def items (n : ℤ) : List ℤ := (List.range n.toNat).map Int.ofNat

theorem items_succ {n : ℤ} (hn : 0 ≤ n) : items (n + 1) = items n ++ [n] := by
  have ht : (n + 1).toNat = n.toNat + 1 := by omega
  have hc : Int.ofNat n.toNat = n := Int.toNat_of_nonneg hn
  rw [items, items, ht, List.range_succ, List.map_append, List.map_singleton, hc]

theorem count_items {n i : ℤ} (h₀ : 0 ≤ i) (hi : i < n) : (items n).count i = 1 := by
  have hnodup : (items n).Nodup := List.nodup_range.map (fun a b h => Int.ofNat.inj h)
  refine List.count_eq_one_of_mem hnodup (List.mem_map.mpr ⟨i.toNat, ?_, ?_⟩)
  · exact List.mem_range.mpr (by omega)
  · exact Int.toNat_of_nonneg h₀

theorem take_succ_ofFn_update {n : ℕ} (b : Fin n → ℤ) (k : Fin n) (x : ℤ) :
    (List.ofFn (Function.update b k x)).take (k + 1) = (List.ofFn b).take k ++ [x] := by
  have hk : (k : ℕ) < (List.ofFn (Function.update b k x)).length := by simp
  rw [List.take_succ_eq_append_getElem hk]
  congr 1
  · refine List.ext_getElem (by simp) fun i hi _ => ?_
    have hne : (⟨i, by simp at hi; omega⟩ : Fin n) ≠ k := by
      intro he
      simp [← he] at hi
    simp [hne]
  · simp

/-- What every critical section keeps: the buffer bounds, the conservation of items, and that
a worker leaves only an empty buffer behind. -/
structure Inv (s : State c) : Prop where
  buf_nonneg : 0 ≤ s.currBufSize
  buf_le : s.currBufSize ≤ c.maxBufSize
  item_nonneg : 0 ≤ s.itemToProduce
  item_le : s.itemToProduce ≤ c.totalItems
  produced : s.produced.Perm (items s.itemToProduce)
  conserved : (s.consumed ++ s.stored).Perm (items s.itemToProduce)
  left : ∀ w, s.worker w = .exited → c.totalItems ≤ s.itemToProduce ∧ s.currBufSize = 0

theorem Initial.inv {s : State c} (h : Initial s) (ht : 0 ≤ c.totalItems)
    (hb : 1 ≤ c.maxBufSize) : Inv s := by
  obtain ⟨hi, hs, _, hw, hl⟩ := h
  refine ⟨by omega, by omega, by omega, by omega, ?_, ?_, ?_⟩
  · simp [State.produced, hl, hi, items]
  · simp [State.consumed, State.stored, hl, hi, hs, items]
  · intro w he
    simp [hw] at he

theorem bufferCell_of_bounds {i : ℤ} (h₀ : 0 ≤ i) (hi : i < c.maxBufSize) :
    ∃ k : Fin c.maxBufSize.toNat, bufferCell c i = .ok k ∧ (k : ℕ) = i.toNat :=
  ⟨⟨i.toNat, by omega⟩, by simp [bufferCell, h₀, hi], rfl⟩

theorem generateRequestsLoop_cases {id : Fin c.numMasters} {s s' : State c} (hs : Inv s)
    (h : generateRequestsLoop id s = .ok s') :
    (c.totalItems ≤ s.itemToProduce ∧
      s' = { s with master := Function.update s.master id .exited }) ∨
    (c.maxBufSize ≤ s.currBufSize ∧ s' = s) ∨
    (s.itemToProduce < c.totalItems ∧ s.currBufSize < c.maxBufSize ∧
      ∃ k : Fin c.maxBufSize.toNat, (k : ℕ) = s.currBufSize.toNat ∧
        s' = { s with
          buffer := Function.update s.buffer k s.itemToProduce
          currBufSize := s.currBufSize + 1
          log := .produced s.itemToProduce id :: s.log
          itemToProduce := s.itemToProduce + 1 }) := by
  unfold generateRequestsLoop at h
  split_ifs at h with _ hdone hfull
  · exact Or.inl ⟨hdone, (Except.ok.inj h).symm⟩
  · exact Or.inr (Or.inl ⟨hfull, (Except.ok.inj h).symm⟩)
  · obtain ⟨k, hk, hv⟩ := bufferCell_of_bounds hs.buf_nonneg (not_le.mp hfull)
    rw [hk] at h
    exact Or.inr (Or.inr ⟨by omega, by omega, k, hv, (Except.ok.inj h).symm⟩)

theorem generateWorkingLoop_cases {id : Fin c.numWorkers} {s s' : State c} (hs : Inv s)
    (h : generateWorkingLoop id s = .ok s') :
    (s.currBufSize = 0 ∧ c.totalItems ≤ s.itemToProduce ∧
      s' = { s with worker := Function.update s.worker id .exited }) ∨
    (s.currBufSize = 0 ∧ s' = s) ∨
    (0 < s.currBufSize ∧ ∃ k : Fin c.maxBufSize.toNat, (k : ℕ) = (s.currBufSize - 1).toNat ∧
      s' = { s with
        currBufSize := s.currBufSize - 1
        log := .consumed (s.buffer k) id :: s.log }) := by
  have hpos := hs.buf_nonneg
  have hle := hs.buf_le
  unfold generateWorkingLoop at h
  split_ifs at h with _ hempty hdone
  · exact Or.inl ⟨hempty, hdone, (Except.ok.inj h).symm⟩
  · exact Or.inr (Or.inl ⟨hempty, (Except.ok.inj h).symm⟩)
  · obtain ⟨k, hk, hv⟩ := bufferCell_of_bounds (c := c) (i := s.currBufSize - 1)
      (by omega) (by omega)
    rw [hk] at h
    exact Or.inr (Or.inr ⟨by omega, k, hv, (Except.ok.inj h).symm⟩)

theorem generateRequestsLoop_inv {id : Fin c.numMasters} {s s' : State c} (hs : Inv s)
    (h : generateRequestsLoop id s = .ok s') : Inv s' := by
  rcases generateRequestsLoop_cases hs h with ⟨_, rfl⟩ | ⟨_, rfl⟩ | ⟨hi, hb, k, hk, rfl⟩
  · exact ⟨hs.buf_nonneg, hs.buf_le, hs.item_nonneg, hs.item_le, hs.produced, hs.conserved,
      hs.left⟩
  · exact hs
  · have hpos := hs.buf_nonneg
    have hitem := hs.item_nonneg
    refine ⟨by dsimp only; omega, by dsimp only; omega, by dsimp only; omega,
      by dsimp only; omega, ?_, ?_, ?_⟩
    · change (s.itemToProduce :: s.produced).Perm (items (s.itemToProduce + 1))
      rw [items_succ hitem]
      exact (hs.produced.cons _).trans (List.perm_append_singleton _ _).symm
    · have hst : (s.currBufSize + 1).toNat = k + 1 := by omega
      change (s.consumed ++ (List.ofFn (Function.update s.buffer k s.itemToProduce)).take
        (s.currBufSize + 1).toNat).Perm (items (s.itemToProduce + 1))
      rw [hst, take_succ_ofFn_update, hk, items_succ hitem, ← List.append_assoc]
      exact hs.conserved.append_right _
    · intro w hw
      have := (hs.left w hw).1
      omega

theorem generateWorkingLoop_inv {id : Fin c.numWorkers} {s s' : State c} (hs : Inv s)
    (h : generateWorkingLoop id s = .ok s') : Inv s' := by
  rcases generateWorkingLoop_cases hs h with ⟨he, hd, rfl⟩ | ⟨_, rfl⟩ | ⟨hb, k, hk, rfl⟩
  · refine ⟨hs.buf_nonneg, hs.buf_le, hs.item_nonneg, hs.item_le, hs.produced, hs.conserved, ?_⟩
    intro w _
    exact ⟨hd, he⟩
  · exact hs
  · have hle := hs.buf_le
    refine ⟨by dsimp only; omega, by dsimp only; omega, hs.item_nonneg, hs.item_le,
      hs.produced, ?_, ?_⟩
    · -- The consumed item is the last one stored, so it only moves to the front.
      have hst : s.stored =
          (List.ofFn s.buffer).take (s.currBufSize - 1).toNat ++ [s.buffer k] := by
        have hlen : (s.currBufSize - 1).toNat < (List.ofFn s.buffer).length := by
          simp only [List.length_ofFn]; omega
        have hs1 : s.currBufSize.toNat = (s.currBufSize - 1).toNat + 1 := by omega
        rw [State.stored, hs1, List.take_succ_eq_append_getElem hlen]
        simp [← hk]
      refine List.Perm.trans ?_ hs.conserved
      rw [hst, ← List.append_assoc]
      exact (List.perm_append_singleton _ _).symm
    · intro w hw
      have := (hs.left w hw).2
      omega

theorem exec_inv {t : Thread c} {s s' : State c} {u : Unit} (hs : Inv s)
    (h : exec t s = .ok (u, s')) : Inv s' := by
  cases t with
  | master id =>
    cases hg : generateRequestsLoop id s with
    | error f => simp [exec, hg, Except.map] at h
    | ok s₁ =>
      have he : s₁ = s' := by simpa [exec, hg, Except.map] using h
      exact he ▸ generateRequestsLoop_inv hs hg
  | worker id =>
    cases hg : generateWorkingLoop id s with
    | error f => simp [exec, hg, Except.map] at h
    | ok s₁ =>
      have he : s₁ = s' := by simpa [exec, hg, Except.map] using h
      exact he ▸ generateWorkingLoop_inv hs hg

theorem interleaving_inv {tr : List (Event (State c) (Thread c) Unit)} {s : State c}
    (ht : 0 ≤ c.totalItems) (hb : 1 ≤ c.maxBufSize) (h : Interleaving c tr s) : Inv s :=
  h.invariant (fun _ hi => hi.inv ht hb) (fun _ _ _ _ hs _ he => exec_inv hs he)

/-- Exactly-once delivery for every number of threads and every interleaving: no item is lost
or duplicated on the way, and once all threads have left, each was produced and consumed once. -/
theorem delivers_exactly_once {tr : List (Event (State c) (Thread c) Unit)} {s : State c}
    (hw : 1 ≤ c.numWorkers) (ht : 0 ≤ c.totalItems) (hb : 1 ≤ c.maxBufSize)
    (h : Interleaving c tr s) :
    (0 ≤ s.currBufSize ∧ s.currBufSize ≤ c.maxBufSize) ∧
    (s.consumed ++ s.stored).Perm (items s.itemToProduce) ∧
    ((∀ m, s.master m = .exited) → (∀ w, s.worker w = .exited) →
      ∀ i, 0 ≤ i → i < c.totalItems → s.produced.count i = 1 ∧ s.consumed.count i = 1) := by
  have hs := interleaving_inv ht hb h
  refine ⟨⟨hs.buf_nonneg, hs.buf_le⟩, hs.conserved, ?_⟩
  intro _ hwx i hi₀ hi
  obtain ⟨hd, he⟩ := hs.left ⟨0, hw⟩ (hwx _)
  have hstored : s.stored = [] := by simp [State.stored, he]
  have hc := hs.conserved
  rw [hstored, List.append_nil] at hc
  exact ⟨by rw [hs.produced.count_eq, count_items hi₀ (by omega)],
    by rw [hc.count_eq, count_items hi₀ (by omega)]⟩

/-- Two masters hand three items to two workers, the second master finding the buffer full once,
and all of them leave. -/
theorem delivers_exactly_once_three_items :
    ∃ (tr : List (Event (State ⟨3, 2, 2, 2⟩) (Thread ⟨3, 2, 2, 2⟩) Unit))
      (s : State ⟨3, 2, 2, 2⟩), Interleaving ⟨3, 2, 2, 2⟩ tr s ∧
        s.log = [.consumed 0 1, .consumed 2 0, .produced 2 1, .consumed 1 1, .produced 1 1,
          .produced 0 0] ∧
        ∀ i, 0 ≤ i → i < 3 → s.produced.count i = 1 ∧ s.consumed.count i = 1 := by
  have h : ∃ (tr : List (Event (State ⟨3, 2, 2, 2⟩) (Thread ⟨3, 2, 2, 2⟩) Unit))
      (s : State ⟨3, 2, 2, 2⟩), Interleaving ⟨3, 2, 2, 2⟩ tr s ∧
        decide (s.log = [.consumed 0 1, .consumed 2 0, .produced 2 1, .consumed 1 1,
          .produced 1 1, .produced 0 0] ∧ (∀ m, s.master m = .exited) ∧
          ∀ w, s.worker w = .exited) = true :=
    Run.exists_of_replayCheck
      (s := ⟨0, 0, fun _ => 7, fun _ => .running, fun _ => .running, []⟩)
      [.master 0, .master 1, .master 1, .worker 1, .master 1, .worker 0, .worker 1, .master 0,
        .master 1, .worker 0, .worker 1] ⟨rfl, rfl, fun _ => rfl, fun _ => rfl, rfl⟩
      (by decide +kernel)
  obtain ⟨tr, s, hrun, hp⟩ := h
  obtain ⟨hlog, hm, hw⟩ := of_decide_eq_true hp
  exact ⟨tr, s, hrun, hlog,
    (delivers_exactly_once (by decide) (by decide) (by decide) hrun).2.2 hm hw⟩

end SsuOs.MasterWorker
