import Mathlib.Logic.Function.Basic
import Mathlib.Tactic.SplitIfs

/-! Threads asleep on channels: `sleep` and `wakeup` of a monitor, and what it takes that nobody
sleeps without a reason. -/
namespace SsuOs.Lib

variable {ι κ : Type*} {asleep : ι → Option κ} {blocked blocked' : ι → κ → Prop}

/-- Whoever is asleep on a channel has the reason that belongs to it. -/
def Grounded (blocked : ι → κ → Prop) (asleep : ι → Option κ) : Prop :=
  ∀ i c, asleep i = some c → blocked i c

section Wake

variable [DecidableEq κ]

def wake (asleep : ι → Option κ) (c : κ) : ι → Option κ := fun i =>
  if asleep i = some c then none else asleep i

theorem wake_eq_some {c d : κ} {i : ι} :
    wake asleep c i = some d ↔ asleep i = some d ∧ d ≠ c := by
  unfold wake
  split_ifs with h
  · simp only [h, Option.some.injEq, false_iff, not_and, not_not]
    exact Eq.symm
  · constructor
    · intro hd
      refine ⟨hd, ?_⟩
      rintro rfl
      exact h hd
    · exact And.left

end Wake

section Update

variable [DecidableEq ι] {i : ι} {c : κ}

theorem Grounded.sleep (h : Grounded blocked asleep) (hi : blocked i c) :
    Grounded blocked (Function.update asleep i (some c)) := by
  intro j d hj
  rw [Function.update_apply] at hj
  split_ifs at hj with hji
  · rw [hji, ← Option.some.inj hj]
    exact hi
  · exact h j d hj

theorem Grounded.rouse (h : Grounded blocked asleep)
    (hb : ∀ j c, j ≠ i → asleep j = some c → blocked j c → blocked' j c) :
    Grounded blocked' (Function.update asleep i none) := by
  intro j d hj
  rw [Function.update_apply] at hj
  split_ifs at hj with hji
  exact hb j d hji hj (h j d hj)

end Update

end SsuOs.Lib
