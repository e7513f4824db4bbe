import Mathlib.Data.Set.Card

/-! Threads at places of their program: those that hold a lock, and how many are inside a
section of the code. -/
namespace SsuOs.Lib

variable {T L : Type*} {P : L → Prop} {pc : T → L} {o : Option T} {t : T} {p : L}

/-- The lock with holder `o` is held exactly at the places `P`. -/
def HeldAt (P : L → Prop) (pc : T → L) (o : Option T) : Prop := ∀ t, P (pc t) ↔ o = some t

theorem HeldAt.unique (h : HeldAt P pc o) {t' : T} (ht : P (pc t)) (ht' : P (pc t')) : t = t' :=
  Option.some.inj (((h t).mp ht).symm.trans ((h t').mp ht'))

def threadsAt (P : L → Prop) (pc : T → L) : Set T := {t | P (pc t)}

@[simp] theorem mem_threadsAt : t ∈ threadsAt P pc ↔ P (pc t) := Iff.rfl

section Update

variable [DecidableEq T]

theorem HeldAt.move (h : HeldAt P pc o) (hp : P p ↔ P (pc t)) :
    HeldAt P (Function.update pc t p) o := by
  intro t'
  rw [← h t', Function.update_apply]
  split_ifs with ht
  · rw [ht, hp]
  · rfl

theorem HeldAt.acquire (h : HeldAt P pc none) (hp : P p) :
    HeldAt P (Function.update pc t p) (some t) := by
  intro t'
  rw [Function.update_apply]
  split_ifs with ht
  · simp [ht, hp]
  · simp [h t', Ne.symm ht]

theorem HeldAt.release (h : HeldAt P pc o) (ht : P (pc t)) (hp : ¬P p) :
    HeldAt P (Function.update pc t p) none := by
  intro t'
  rw [Function.update_apply]
  split_ifs with ht'
  · simp [hp]
  · rw [h t', (h t).mp ht]
    simp [Ne.symm ht']

theorem threadsAt_enter (hp : P p) :
    threadsAt P (Function.update pc t p) = insert t (threadsAt P pc) := by
  ext t'
  rw [mem_threadsAt, Function.update_apply, Set.mem_insert_iff, mem_threadsAt]
  split_ifs with ht <;> simp [ht, hp]

theorem threadsAt_leave (hp : ¬P p) :
    threadsAt P (Function.update pc t p) = threadsAt P pc \ {t} := by
  ext t'
  rw [mem_threadsAt, Function.update_apply, Set.mem_sdiff, mem_threadsAt, Set.mem_singleton_iff]
  split_ifs with ht <;> simp [ht, hp]

theorem finite_threadsAt_update (hfin : (threadsAt P pc).Finite) :
    (threadsAt P (Function.update pc t p)).Finite := by
  by_cases hp : P p
  · rw [threadsAt_enter hp]
    exact hfin.insert t
  · rw [threadsAt_leave hp]
    exact hfin.sdiff

theorem ncard_threadsAt_move (hp : P p ↔ P (pc t)) :
    (threadsAt P (Function.update pc t p)).ncard = (threadsAt P pc).ncard := by
  congr 1
  ext t'
  rw [mem_threadsAt, mem_threadsAt, Function.update_apply]
  split_ifs with ht
  · rw [ht, hp]
  · rfl

theorem ncard_threadsAt_enter (hfin : (threadsAt P pc).Finite) (ht : ¬P (pc t)) (hp : P p) :
    (threadsAt P (Function.update pc t p)).ncard = (threadsAt P pc).ncard + 1 := by
  rw [threadsAt_enter hp]
  exact Set.ncard_insert_of_notMem ht hfin

theorem ncard_threadsAt_leave (hfin : (threadsAt P pc).Finite) (ht : P (pc t)) (hp : ¬P p) :
    (threadsAt P (Function.update pc t p)).ncard + 1 = (threadsAt P pc).ncard := by
  rw [threadsAt_leave hp]
  exact Set.ncard_sdiff_singleton_add_one ht hfin

theorem ncard_threadsAt_update [DecidablePred P] (hfin : (threadsAt P pc).Finite) :
    (threadsAt P (Function.update pc t p)).ncard + (if P (pc t) then 1 else 0) =
      (threadsAt P pc).ncard + (if P p then 1 else 0) := by
  split_ifs with ht hp hp
  · rw [ncard_threadsAt_move (iff_of_true hp ht)]
  · exact ncard_threadsAt_leave hfin ht hp
  · exact ncard_threadsAt_enter hfin ht hp
  · rw [ncard_threadsAt_move (iff_of_false hp ht)]

end Update

end SsuOs.Lib
