import Mathlib.Algebra.BigOperators.Group.Finset.Basic
import Mathlib.Data.Fintype.Basic
import Mathlib.Tactic.Abel

/-! Sums over all members of a finite family, and what one member changes about them. -/
namespace SsuOs.Lib

variable {ι α M : Type*} [Fintype ι] [DecidableEq ι] [AddCommMonoid M]

theorem sum_update_add (F : α → M) (g : ι → α) (i : ι) (x : α) :
    ∑ j, F (Function.update g i x j) + F (g i) = ∑ j, F (g j) + F x := by
  have hrest : ∑ j ∈ Finset.univ.erase i, F (Function.update g i x j) =
      ∑ j ∈ Finset.univ.erase i, F (g j) := by
    refine Finset.sum_congr rfl fun j hj => ?_
    rw [Function.update_of_ne (Finset.ne_of_mem_erase hj)]
  rw [← Finset.add_sum_erase _ _ (Finset.mem_univ i),
    ← Finset.add_sum_erase _ (fun j => F (g j)) (Finset.mem_univ i), hrest,
    Function.update_self]
  abel

theorem sum_update_place_add (F : ι → α → M) (g : ι → α) (i : ι) (x : α) :
    ∑ j, F j (Function.update g i x j) + F i (g i) = ∑ j, F j (g j) + F i x := by
  have hplace : ∀ j, Function.update (fun j => (j, g j)) i (i, x) j =
      (j, Function.update g i x j) := by
    intro j
    by_cases hj : j = i
    · subst hj
      simp
    · simp [hj]
  have hsum := sum_update_add (fun y : ι × α => F y.1 y.2) (fun j => (j, g j)) i (i, x)
  simpa only [hplace] using hsum

end SsuOs.Lib
