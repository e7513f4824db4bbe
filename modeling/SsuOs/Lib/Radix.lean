import Mathlib.Algebra.BigOperators.Fin
import Mathlib.Algebra.Order.BigOperators.Group.Finset
import SsuOs.Lib.Tally

/-! Tables of two levels with `N` entries on each, for keys below `N * N`. The nodes of the lower
level are made when they are needed and carry a tag. -/
namespace SsuOs.Lib

structure RadixNode (N : ℕ) (τ α : Type*) where
  tag : τ
  entry : Fin N → Option α

abbrev Radix (N : ℕ) (τ α : Type*) : Type _ := Fin N → Option (RadixNode N τ α)

namespace Radix

variable {τ α : Type*} {N : ℕ} [NeZero N]

/-- The place of the key `v` in the upper level. -/
def upper (N : ℕ) [NeZero N] (v : ℕ) : Fin N := Fin.ofNat N (v / N)

/-- The place of the key `v` in its node. -/
def lower (N : ℕ) [NeZero N] (v : ℕ) : Fin N := Fin.ofNat N v

def get (t : Radix N τ α) (v : ℕ) : Option α := (t (upper N v)).bind fun n => n.entry (lower N v)

/-- An empty node for the key `v`. -/
def grow (t : Radix N τ α) (v : ℕ) (tag : τ) : Radix N τ α :=
  Function.update t (upper N v) (some ⟨tag, fun _ => none⟩)

/-- Set the entry of `v` in a node that is there. -/
def put (t : Radix N τ α) (v : ℕ) (o : Option α) : Radix N τ α :=
  Function.update t (upper N v)
    ((t (upper N v)).map fun n => ⟨n.tag, Function.update n.entry (lower N v) o⟩)

variable {t : Radix N τ α} {v w : ℕ} {n : RadixNode N τ α}

theorem upper_lower_inj (hv : v < N * N) (hw : w < N * N) (hu : upper N v = upper N w)
    (hl : lower N v = lower N w) : v = w := by
  have hdiv : v / N = w / N := by
    have h := congrArg Fin.val hu
    simpa [upper, Nat.mod_eq_of_lt (Nat.div_lt_of_lt_mul hv),
      Nat.mod_eq_of_lt (Nat.div_lt_of_lt_mul hw)] using h
  have hmod : v % N = w % N := congrArg Fin.val hl
  rw [← Nat.div_add_mod v N, ← Nat.div_add_mod w N, hdiv, hmod]

theorem upper_mul_add_lower (hv : v < N * N) : (upper N v : ℕ) * N + lower N v = v := by
  have hu : (upper N v : ℕ) = v / N := Nat.mod_eq_of_lt (Nat.div_lt_of_lt_mul hv)
  have hl : (lower N v : ℕ) = v % N := rfl
  rw [hu, hl, Nat.mul_comm]
  exact Nat.div_add_mod v N

theorem get_of_none (h : t (upper N v) = none) : t.get v = none := by
  simp [get, h]

theorem get_of_some (h : t (upper N v) = some n) : t.get v = n.entry (lower N v) := by
  simp [get, h]

theorem get_grow (h : t (upper N v) = none) (tag : τ) : (t.grow v tag).get w = t.get w := by
  unfold get grow
  rw [Function.update_apply]
  split_ifs with hw
  · rw [hw, h]
    rfl
  · rfl

theorem get_put (hv : v < N * N) (hw : w < N * N) (h : t (upper N v) = some n) (o : Option α) :
    (t.put v o).get w = if w = v then o else t.get w := by
  unfold get put
  rw [Function.update_apply]
  split_ifs with hu hwv hwv
  · simp [hwv, h]
  · have hl : lower N w ≠ lower N v := fun hl => hwv (upper_lower_inj hw hv hu hl)
    simp [hu, h, hl]
  · exact absurd (by rw [hwv]) hu
  · rfl

section Sums

/-- A sum over the tags of the nodes. -/
def tagSum (f : τ → ℕ) (t : Radix N τ α) : ℕ := ∑ i, (t i).elim 0 fun n => f n.tag

/-- A sum over the entries, which may depend on their keys. -/
def entrySum (g : ℕ → α → ℕ) (t : Radix N τ α) : ℕ :=
  ∑ i, (t i).elim 0 fun n => ∑ j, (n.entry j).elim 0 (g (i * N + j))

variable {f : τ → ℕ} {g : ℕ → α → ℕ}

theorem tagSum_grow (h : t (upper N v) = none) (tag : τ) :
    (t.grow v tag).tagSum f = t.tagSum f + f tag := by
  have hsum := sum_update_add (fun o : Option (RadixNode N τ α) => o.elim 0 fun n => f n.tag) t
    (upper N v) (some ⟨tag, fun _ => none⟩)
  simpa [tagSum, grow, h] using hsum

theorem tagSum_put (o : Option α) : (t.put v o).tagSum f = t.tagSum f := by
  have hsum := sum_update_add (fun o : Option (RadixNode N τ α) => o.elim 0 fun n => f n.tag) t
    (upper N v) ((t (upper N v)).map fun n => ⟨n.tag, Function.update n.entry (lower N v) o⟩)
  cases hn : t (upper N v) <;> simpa [tagSum, put, hn] using hsum

omit [NeZero N] in
theorem le_tagSum {i : Fin N} (h : t i = some n) : f n.tag ≤ t.tagSum f := by
  have hle := Finset.single_le_sum (f := fun i => (t i).elim 0 fun n => f n.tag)
    (fun _ _ => Nat.zero_le _) (Finset.mem_univ i)
  simp only [h, Option.elim_some] at hle
  exact hle

omit [NeZero N] in
theorem add_le_tagSum {i j : Fin N} {n' : RadixNode N τ α} (hij : i ≠ j) (hi : t i = some n)
    (hj : t j = some n') : f n.tag + f n'.tag ≤ t.tagSum f := by
  have hle := Finset.add_le_sum (f := fun i => (t i).elim 0 fun n => f n.tag)
    (fun _ _ => Nat.zero_le _) (Finset.mem_univ i) (Finset.mem_univ j) hij
  simp only [hi, hj, Option.elim_some] at hle
  exact hle

theorem entrySum_grow (h : t (upper N v) = none) (tag : τ) :
    (t.grow v tag).entrySum g = t.entrySum g := by
  have hsum := sum_update_place_add (fun (i : Fin N) (o : Option (RadixNode N τ α)) =>
    o.elim 0 fun n => ∑ j, (n.entry j).elim 0 (g (i * N + j))) t (upper N v)
    (some ⟨tag, fun _ => none⟩)
  simpa [entrySum, grow, h] using hsum

theorem entrySum_put (hv : v < N * N) (h : t (upper N v) = some n) (o : Option α) :
    (t.put v o).entrySum g + (t.get v).elim 0 (g v) = t.entrySum g + o.elim 0 (g v) := by
  have hnode := sum_update_place_add (fun (i : Fin N) (o : Option (RadixNode N τ α)) =>
    o.elim 0 fun n => ∑ j, (n.entry j).elim 0 (g (i * N + j))) t (upper N v)
    (some ⟨n.tag, Function.update n.entry (lower N v) o⟩)
  have hentry := sum_update_place_add (fun (j : Fin N) (o : Option α) =>
    o.elim 0 (g (upper N v * N + j))) n.entry (lower N v) o
  simp only [upper_mul_add_lower hv] at hentry
  simp only [h, Option.elim_some] at hnode
  rw [get_of_some h, entrySum, entrySum, put, h, Option.map_some]
  omega

theorem le_entrySum {a : α} (hv : v < N * N) (h : t.get v = some a) : g v a ≤ t.entrySum g := by
  obtain ⟨n, hn⟩ : ∃ n, t (upper N v) = some n := by
    rw [← Option.ne_none_iff_exists']
    intro hnone
    rw [get_of_none hnone] at h
    cases h
  have hsum := entrySum_put (g := g) hv hn none
  rw [h] at hsum
  simp only [Option.elim_some, Option.elim_none] at hsum
  omega

theorem entrySum_eq_zero (h : ∀ v a, v < N * N → t.get v = some a → g v a = 0) :
    t.entrySum g = 0 := by
  refine Finset.sum_eq_zero fun i _ => ?_
  cases hn : t i with
  | none => rfl
  | some n =>
    refine Finset.sum_eq_zero fun j _ => ?_
    cases ha : n.entry j with
    | none => rfl
    | some a =>
      have hlt : i * N + j < N * N := by
        have hi : (i + 1) * N ≤ N * N := Nat.mul_le_mul_right N i.isLt
        have hj := j.isLt
        rw [Nat.add_mul, Nat.one_mul] at hi
        omega
      have hu : upper N (i * N + j) = i := by
        ext
        change (i * N + j) / N % N = i
        rw [Nat.mul_comm, Nat.mul_add_div (Nat.pos_of_neZero N), Nat.div_eq_of_lt j.isLt,
          Nat.add_zero, Nat.mod_eq_of_lt i.isLt]
      have hl : lower N (i * N + j) = j := by
        ext
        change (i * N + j) % N = j
        rw [Nat.mul_comm, Nat.mul_add_mod, Nat.mod_eq_of_lt j.isLt]
      refine h _ a hlt ?_
      rw [get_of_some (hu.symm ▸ hn), hl, ha]

end Sums

end Radix

end SsuOs.Lib
