import Mathlib.Data.List.Basic
import Mathlib.Data.Nat.ModEq
import Mathlib.Logic.Function.Basic

/-! A ring of `N` cells that is read and written at running counts. -/
namespace SsuOs.Lib

variable {α : Type*} {N : ℕ} [NeZero N]

/-- The `len` cells from the count `r` on. -/
def window (data : Fin N → α) (r len : ℕ) : List α :=
  (List.range len).map fun k => data (Fin.ofNat N (r + k))

@[simp] theorem length_window (data : Fin N → α) (r len : ℕ) :
    (window data r len).length = len := by
  simp [window]

theorem window_succ (data : Fin N → α) (r len : ℕ) :
    window data r (len + 1) = data (Fin.ofNat N r) :: window data (r + 1) len := by
  simp only [window, List.range_succ_eq_map, List.map_cons, List.map_map, add_zero,
    List.cons.injEq, true_and]
  refine List.map_congr_left fun k _ => ?_
  simp only [Function.comp_apply, Nat.succ_eq_add_one]
  rw [Nat.add_right_comm, Nat.add_assoc]

theorem ofNat_ne_ofNat {r k len : ℕ} (hk : k < len) (hlen : len < N) :
    Fin.ofNat N (r + k) ≠ Fin.ofNat N (r + len) := by
  intro h
  have hmod : r + k ≡ r + len [MOD N] := congrArg Fin.val h
  have hmod' : k ≡ len [MOD N] := Nat.ModEq.add_left_cancel' r hmod
  exact hk.ne (hmod'.eq_of_lt_of_lt (hk.trans hlen) hlen)

theorem window_update {data : Fin N → α} {r len : ℕ} (hlen : len < N) (x : α) :
    window (Function.update data (Fin.ofNat N (r + len)) x) r (len + 1) =
      window data r len ++ [x] := by
  simp only [window, List.range_succ, List.map_append, List.map_cons, List.map_nil,
    Function.update_self]
  congr 1
  refine List.map_congr_left fun k hk => ?_
  exact Function.update_of_ne (ofNat_ne_ofNat (List.mem_range.mp hk) hlen) _ _

/-- A count may wrap around at any multiple of the number of cells. -/
theorem ofNat_mod {M : ℕ} (hM : N ∣ M) (r : ℕ) : Fin.ofNat N (r % M) = Fin.ofNat N r :=
  Fin.ext (Nat.mod_mod_of_dvd r hM)

theorem window_mod {M : ℕ} (hM : N ∣ M) (data : Fin N → α) (r len : ℕ) :
    window data (r % M) len = window data r len := by
  refine List.map_congr_left fun k _ => congrArg data (Fin.ext ?_)
  have hmod : r % M ≡ r [MOD N] := Nat.mod_mod_of_dvd r hM
  exact hmod.add_right k

end SsuOs.Lib
