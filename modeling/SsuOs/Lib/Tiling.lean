import Mathlib.Data.List.Chain
import Mathlib.Algebra.Ring.Int.Defs
import Mathlib.Tactic.Linarith

/-! Tilings of an address range by free and allocated segments: carving a block out of a
free segment, releasing one, and coalescing free neighbours. -/
namespace SsuOs.Lib

structure Seg where
  addr : ℕ
  size : ℤ
  free : Bool
  deriving DecidableEq

/-- The segments are non-empty and cover `[a, e)` in address order without a gap. -/
def Tiles : ℤ → List Seg → ℤ → Prop
  | a, [], e => a = e
  | a, s :: r, e => (s.addr : ℤ) = a ∧ 0 < s.size ∧ Tiles (a + s.size) r e

def Separated (l : List Seg) : Prop := l.IsChain fun a b => ¬(a.free = true ∧ b.free = true)

/-- Merge the free segments that follow a free `cur` into it, then continue behind them. -/
def coalesceFrom (cur : Seg) : List Seg → List Seg
  | [] => [cur]
  | s :: r =>
    if cur.free = true ∧ s.free = true then coalesceFrom { cur with size := cur.size + s.size } r
    else cur :: coalesceFrom s r

namespace Tiles

theorem append_iff {l₁ l₂ : List Seg} {a e : ℤ} :
    Tiles a (l₁ ++ l₂) e ↔ ∃ b, Tiles a l₁ b ∧ Tiles b l₂ e := by
  induction l₁ generalizing a with
  | nil => simp [Tiles]
  | cons s l₁ ih =>
    simp only [List.cons_append, Tiles, ih]
    constructor
    · rintro ⟨ha, hs, b, h₁, h₂⟩
      exact ⟨b, ⟨ha, hs, h₁⟩, h₂⟩
    · rintro ⟨b, ⟨ha, hs, h₁⟩, h₂⟩
      exact ⟨ha, hs, b, h₁, h₂⟩

theorem le {l : List Seg} {a e : ℤ} (h : Tiles a l e) : a ≤ e := by
  induction l generalizing a with
  | nil => exact le_of_eq h
  | cons s l ih =>
    have := ih h.2.2
    have := h.2.1
    omega

theorem pos_of_mem {l : List Seg} {a e : ℤ} (h : Tiles a l e) {s : Seg} (hs : s ∈ l) :
    0 < s.size := by
  induction l generalizing a with
  | nil => simp at hs
  | cons t l ih =>
    rcases List.mem_cons.mp hs with rfl | hm
    · exact h.2.1
    · exact ih h.2.2 hm

theorem bounds_of_mem {l : List Seg} {a e : ℤ} (h : Tiles a l e) {s : Seg} (hs : s ∈ l) :
    a ≤ s.addr ∧ s.addr + s.size ≤ e := by
  obtain ⟨l₁, l₂, rfl⟩ := List.append_of_mem hs
  obtain ⟨b, h₁, hb, _, h₂⟩ := append_iff.mp h
  have := h₁.le
  have := h₂.le
  omega

theorem le_of_mem_left {l₁ l₂ : List Seg} {s x : Seg} {a e : ℤ} (h : Tiles a (l₁ ++ s :: l₂) e)
    (hx : x ∈ l₁) : x.addr + x.size ≤ s.addr := by
  obtain ⟨b, h₁, hb, _⟩ := append_iff.mp h
  rw [hb]
  exact (h₁.bounds_of_mem hx).2

theorem le_of_mem_right {l₁ l₂ : List Seg} {s x : Seg} {a e : ℤ} (h : Tiles a (l₁ ++ s :: l₂) e)
    (hx : x ∈ l₂) : s.addr + s.size ≤ x.addr := by
  obtain ⟨b, _, hb, _, h₂⟩ := append_iff.mp h
  rw [hb]
  exact (h₂.bounds_of_mem hx).1

theorem length_le {l : List Seg} {a e m : ℤ} (h : Tiles a l e) (hm : ∀ s ∈ l, m ∣ s.size) :
    l.length * m ≤ e - a := by
  induction l generalizing a with
  | nil => simp [Tiles] at h; simp [h]
  | cons s l ih =>
    have hrest := ih h.2.2 (fun t ht => hm t (by simp [ht]))
    have hs := Int.le_of_dvd h.2.1 (hm s (by simp))
    simp only [List.length_cons, Nat.cast_add, Nat.cast_one, add_mul, one_mul]
    linarith

theorem split {l₁ l₂ : List Seg} {s t u : Seg} {a e : ℤ} (h : Tiles a (l₁ ++ s :: l₂) e)
    (ht : t.addr = s.addr) (hpos : 0 < t.size) (hu : (u.addr : ℤ) = s.addr + t.size)
    (hsum : t.size + u.size = s.size) (hlt : t.size < s.size) :
    Tiles a (l₁ ++ t :: u :: l₂) e := by
  obtain ⟨b, h₁, hb, _, h₂⟩ := append_iff.mp h
  refine append_iff.mpr ⟨b, h₁, by rw [ht]; exact hb, hpos, by omega, by omega, ?_⟩
  rw [add_assoc, hsum]
  exact h₂

theorem flip {l₁ l₂ : List Seg} {s t : Seg} {a e : ℤ} (h : Tiles a (l₁ ++ s :: l₂) e)
    (ht : t.addr = s.addr) (hs : t.size = s.size) : Tiles a (l₁ ++ t :: l₂) e := by
  obtain ⟨b, h₁, hb, hpos, h₂⟩ := append_iff.mp h
  exact append_iff.mpr ⟨b, h₁, by rw [ht]; exact hb, by rw [hs]; exact hpos, by rw [hs]; exact h₂⟩

theorem coalesceFrom {cur : Seg} {r : List Seg} {a e : ℤ} (h : Tiles a (cur :: r) e) :
    Tiles a (coalesceFrom cur r) e := by
  induction r generalizing cur a with
  | nil => exact h
  | cons s r ih =>
    obtain ⟨ha, hpos, hs, hspos, hr⟩ := h
    simp only [Lib.coalesceFrom]
    split_ifs
    · refine ih ⟨ha, by dsimp only; omega, ?_⟩
      rw [← add_assoc]
      exact hr
    · exact ⟨ha, hpos, ih ⟨hs, hspos, hr⟩⟩

end Tiles

theorem dvd_split {l₁ l₂ : List Seg} {s t u : Seg} {m : ℤ} (h : ∀ x ∈ l₁ ++ s :: l₂, m ∣ x.size)
    (ht : m ∣ t.size) (hu : t.size + u.size = s.size) :
    ∀ x ∈ l₁ ++ t :: u :: l₂, m ∣ x.size := by
  simp only [List.mem_append, List.mem_cons] at h ⊢
  rintro x (hx | rfl | rfl | hx)
  · exact h x (Or.inl hx)
  · exact ht
  · have hs := h s (Or.inr (Or.inl rfl))
    rw [← hu] at hs
    exact (Int.dvd_iff_dvd_of_dvd_add hs).mp ht
  · exact h x (Or.inr (Or.inr hx))

theorem dvd_coalesceFrom {cur : Seg} {r : List Seg} {m : ℤ} (h : ∀ s ∈ cur :: r, m ∣ s.size) :
    ∀ s ∈ coalesceFrom cur r, m ∣ s.size := by
  induction r generalizing cur with
  | nil => exact h
  | cons t r ih =>
    simp only [List.forall_mem_cons] at h
    obtain ⟨hc, ht, hr⟩ := h
    simp only [coalesceFrom]
    split_ifs
    · exact ih (List.forall_mem_cons.mpr ⟨Int.dvd_add hc ht, hr⟩)
    · exact List.forall_mem_cons.mpr ⟨hc, ih (List.forall_mem_cons.mpr ⟨ht, hr⟩)⟩

theorem coalesceFrom_head (cur : Seg) (r : List Seg) :
    ∃ s r', coalesceFrom cur r = s :: r' ∧ s.addr = cur.addr ∧ s.free = cur.free := by
  induction r generalizing cur with
  | nil => exact ⟨cur, [], rfl, rfl, rfl⟩
  | cons t r ih =>
    simp only [coalesceFrom]
    split_ifs
    · exact ih _
    · exact ⟨cur, _, rfl, rfl, rfl⟩

theorem separated_coalesceFrom (cur : Seg) (r : List Seg) : Separated (coalesceFrom cur r) := by
  induction r generalizing cur with
  | nil => exact List.isChain_singleton _
  | cons t r ih =>
    simp only [coalesceFrom]
    split_ifs with hfree
    · exact ih _
    · obtain ⟨s, r', hs, _, hf⟩ := coalesceFrom_head t r
      have hsep := ih t
      rw [hs] at hsep ⊢
      exact List.isChain_cons_cons.mpr ⟨by rw [hf]; exact hfree, hsep⟩

theorem Separated.split {l₁ l₂ : List Seg} {s t u : Seg} (h : Separated (l₁ ++ s :: l₂))
    (hs : s.free = true) (ht : t.free = false) :
    Separated (l₁ ++ t :: u :: l₂) := by
  obtain ⟨h₁, h₂⟩ := List.isChain_split.mp h
  refine List.isChain_split.mpr ⟨?_, List.isChain_cons_cons.mpr ⟨by simp [ht], ?_⟩⟩
  · exact h₁.left_of_append.append (List.isChain_singleton _) (by simp [ht])
  · exact h₂.imp_head fun hz hu => hz ⟨hs, hu.2⟩

theorem Separated.occupy {l₁ l₂ : List Seg} {s t : Seg} (h : Separated (l₁ ++ s :: l₂))
    (ht : t.free = false) : Separated (l₁ ++ t :: l₂) := by
  obtain ⟨h₁, h₂⟩ := List.isChain_split.mp h
  refine List.isChain_split.mpr ⟨?_, h₂.tail.cons (by simp [ht])⟩
  exact h₁.left_of_append.append (List.isChain_singleton _) (by simp [ht])

end SsuOs.Lib
