import Mathlib

/-! A regular file as the list of its bytes. Reads stop at the end of the file; a write past the
end fills the hole with zeros, so every byte not yet written reads as zero. -/
namespace SsuOs.Lib

variable {α : Type*}

def pread (l : List α) (off n : ℕ) : List α := (l.drop off).take n

theorem length_pread (l : List α) (off n : ℕ) :
    (pread l off n).length = min n (l.length - off) := by
  simp [pread]

variable [Zero α]

def pwrite (l : List α) (off : ℕ) (b : List α) : List α :=
  l.take off ++ List.replicate (off - l.length) 0 ++ b ++ l.drop (off + b.length)

/-- The `n` bytes from `off` on, with zeros for those beyond the end. -/
def region (l : List α) (off n : ℕ) : List α := (List.range n).map fun j => l.getD (off + j) 0

theorem ext_getD {l l' : List α} (hlen : l.length = l'.length)
    (h : ∀ k < l.length, l.getD k 0 = l'.getD k 0) : l = l' := by
  apply List.ext_getElem hlen
  intro k hk hk'
  have := h k hk
  rwa [List.getD_eq_getElem _ _ hk, List.getD_eq_getElem _ _ hk'] at this

@[simp] theorem length_region (l : List α) (off n : ℕ) : (region l off n).length = n := by
  simp [region]

theorem getD_region (l : List α) (off n k : ℕ) :
    (region l off n).getD k 0 = if k < n then l.getD (off + k) 0 else 0 := by
  split_ifs with hk
  · rw [List.getD_eq_getElem _ _ (by simpa using hk)]
    simp [region]
  · rw [List.getD_eq_default _ _ (by simpa using hk)]

theorem length_pwrite (l : List α) (off : ℕ) (b : List α) :
    (pwrite l off b).length = max l.length (off + b.length) := by
  simp only [pwrite, List.length_append, List.length_take, List.length_replicate, List.length_drop]
  omega

theorem getD_pwrite (l : List α) (off : ℕ) (b : List α) (k : ℕ) :
    (pwrite l off b).getD k 0 =
      if off ≤ k ∧ k < off + b.length then b.getD (k - off) 0 else l.getD k 0 := by
  have hpad : (l.take off ++ List.replicate (off - l.length) 0).length = off := by
    simp only [List.length_append, List.length_take, List.length_replicate]
    omega
  unfold pwrite
  rw [List.append_assoc]
  by_cases hk : k < off
  · rw [List.getD_append _ _ _ _ (by omega), if_neg (by omega)]
    by_cases hl : k < l.length
    · rw [List.getD_append _ _ _ _ (by simp; omega), List.getD_eq_getElem _ _ (by simp; omega),
        List.getD_eq_getElem _ _ hl, List.getElem_take]
    · rw [List.getD_append_right _ _ _ _ (by simp; omega), List.getD_eq_default l _ (by omega),
        List.getD_replicate _ (by simp; omega)]
  · rw [List.getD_append_right _ _ _ _ (by omega), hpad]
    by_cases hb : k < off + b.length
    · rw [if_pos ⟨by omega, hb⟩, List.getD_append _ _ _ _ (by omega)]
    · rw [if_neg (by omega), List.getD_append_right _ _ _ _ (by omega)]
      simp only [List.getD_eq_getElem?_getD, List.getElem?_drop]
      congr 2
      omega

theorem pread_eq_region {l : List α} {off n : ℕ} (h : off + n ≤ l.length) :
    pread l off n = region l off n := by
  have hlen : (pread l off n).length = n := by
    simp only [pread, List.length_take, List.length_drop]
    omega
  apply ext_getD (by rw [hlen, length_region])
  intro k hk
  rw [hlen] at hk
  rw [getD_region, if_pos hk, List.getD_eq_getElem _ _ (by omega),
    List.getD_eq_getElem _ _ (by omega)]
  simp [pread]

theorem region_pwrite_self (l : List α) (off : ℕ) (b : List α) :
    region (pwrite l off b) off b.length = b := by
  apply ext_getD (by simp)
  intro k hk
  rw [length_region] at hk
  rw [getD_region, if_pos hk, getD_pwrite, if_pos ⟨by omega, by omega⟩]
  congr 1
  omega

theorem region_pwrite_of_disjoint (l : List α) {off n off' : ℕ} {b : List α}
    (h : off + n ≤ off' ∨ off' + b.length ≤ off) :
    region (pwrite l off' b) off n = region l off n := by
  apply List.map_congr_left
  intro k hk
  rw [List.mem_range] at hk
  rw [getD_pwrite, if_neg (by omega)]

end SsuOs.Lib
