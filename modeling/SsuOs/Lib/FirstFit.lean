import SsuOs.Lib.Tiling

/-! First-fit allocation in a tiling: placing a block, releasing one, and what a separated tiling
is determined by. -/
namespace SsuOs.Lib

def Seg.up (b : ℕ) (s : Seg) : Seg := { s with addr := s.addr + b }

/-- Cut a block of `size` bytes off the front of the first free segment that holds it: its address
and the segments then. -/
def place (size : ℤ) : List Seg → Option (ℕ × List Seg)
  | [] => none
  | s :: r =>
    if s.free = true ∧ size ≤ s.size then
      some (s.addr,
        if s.size = size then { s with free := false } :: r
        else ⟨s.addr, size, false⟩ :: ⟨s.addr + size.toNat, s.size - size, true⟩ :: r)
    else (place size r).map fun x => (x.1, s :: x.2)

/-- What `place` makes of the segment it takes. -/
def carve (size : ℤ) (s : Seg) : List Seg :=
  ⟨s.addr, size, false⟩ ::
    if s.size = size then [] else [⟨s.addr + size.toNat, s.size - size, true⟩]

def release (a : ℕ) : List Seg → List Seg
  | [] => []
  | s :: r => if s.addr = a then { s with free := true } :: r else s :: release a r

def coalesce : List Seg → List Seg
  | [] => []
  | s :: r => coalesceFrom s r

section Place

variable {size : ℤ} {s : Seg} {l l₁ l₂ : List Seg} {b : ℕ}

theorem place_append (h : ∀ s ∈ l₁, ¬(s.free = true ∧ size ≤ s.size)) :
    place size (l₁ ++ l₂) = (place size l₂).map fun x => (x.1, l₁ ++ x.2) := by
  induction l₁ with
  | nil => simp
  | cons s l₁ ih =>
    obtain ⟨hs, hl⟩ := List.forall_mem_cons.mp h
    simp only [List.cons_append, place, if_neg hs, ih hl, Option.map_map]
    rfl

theorem place_exact (h : ∀ s ∈ l₁, ¬(s.free = true ∧ size ≤ s.size)) (hf : s.free = true)
    (hs : s.size = size) :
    place size (l₁ ++ s :: l₂) = some (s.addr, l₁ ++ { s with free := false } :: l₂) := by
  rw [place_append h, place, if_pos ⟨hf, hs.ge⟩, if_pos hs]
  rfl

theorem place_split (h : ∀ s ∈ l₁, ¬(s.free = true ∧ size ≤ s.size)) (hf : s.free = true)
    (hs : size < s.size) :
    place size (l₁ ++ s :: l₂) = some (s.addr, l₁ ++ ⟨s.addr, size, false⟩ ::
      ⟨s.addr + size.toNat, s.size - size, true⟩ :: l₂) := by
  rw [place_append h, place, if_pos ⟨hf, hs.le⟩, if_neg hs.ne']
  rfl

theorem place_singleton (hf : s.free = true) (hs : size ≤ s.size) :
    place size [s] = some (s.addr, carve size s) := by
  rw [place, if_pos ⟨hf, hs⟩, carve]
  split_ifs with he
  · rw [he]
  · rfl

theorem place_eq_none_iff : place size l = none ↔ ∀ s ∈ l, ¬(s.free = true ∧ size ≤ s.size) := by
  induction l with
  | nil => simp [place]
  | cons s l ih =>
    rw [List.forall_mem_cons, ← ih, place]
    split_ifs with hs
    · simp [hs]
    · simp [hs]

/-- The block is cut off the first free segment that holds it. -/
theorem place_eq_some {l' : List Seg} {a : ℕ} (h : place size l = some (a, l')) :
    ∃ l₁ s l₂, l = l₁ ++ s :: l₂ ∧ (∀ x ∈ l₁, ¬(x.free = true ∧ size ≤ x.size)) ∧
      s.free = true ∧ size ≤ s.size ∧ a = s.addr ∧ l' = l₁ ++ carve size s ++ l₂ := by
  induction l generalizing l' with
  | nil => simp [place] at h
  | cons s l ih =>
    rw [place] at h
    split_ifs at h with hs he
    · obtain ⟨rfl, rfl⟩ := Prod.mk.inj (Option.some.inj h)
      exact ⟨[], s, l, rfl, by simp, hs.1, hs.2, rfl, by simp [carve, he]⟩
    · obtain ⟨rfl, rfl⟩ := Prod.mk.inj (Option.some.inj h)
      exact ⟨[], s, l, rfl, by simp, hs.1, hs.2, rfl, by simp [carve, he]⟩
    · obtain ⟨⟨b, r⟩, hr, heq⟩ := Option.map_eq_some_iff.mp h
      obtain ⟨rfl, rfl⟩ := Prod.mk.inj heq
      obtain ⟨l₁, t, l₂, rfl, hl₁, htf, hts, hta, rfl⟩ := ih hr
      exact ⟨s :: l₁, t, l₂, rfl, List.forall_mem_cons.mpr ⟨hs, hl₁⟩, htf, hts, hta, rfl⟩

theorem mem_of_place {l' : List Seg} {a : ℕ} (h : place size l = some (a, l')) {x : Seg}
    (hx : x ∈ l) (hf : x.free = false) : x ∈ l' := by
  obtain ⟨l₁, s, l₂, rfl, -, hs, -, -, rfl⟩ := place_eq_some h
  have hne : x ≠ s := by
    rintro rfl
    simp [hs] at hf
  simp only [List.mem_append, List.mem_cons] at hx ⊢
  rcases hx with hm | he | hm
  · exact Or.inl (Or.inl hm)
  · exact absurd he hne
  · exact Or.inr hm

theorem place_map_up : place size (l.map (Seg.up b)) =
    (place size l).map fun x => (x.1 + b, x.2.map (Seg.up b)) := by
  induction l with
  | nil => rfl
  | cons s l ih =>
    simp only [List.map_cons, place, Seg.up]
    by_cases hs : s.free = true ∧ size ≤ s.size
    · rw [if_pos hs, if_pos hs, Option.map_some]
      by_cases he : s.size = size
      · simp [he, Seg.up]
      · simp [he, Seg.up, Nat.add_right_comm]
    · rw [if_neg hs, if_neg hs, ih, Option.map_map, Option.map_map]
      rfl

end Place

section Release

variable {s : Seg} {l r : List Seg} {a b : ℕ}

theorem release_of_ne (h : ∀ s ∈ l, s.addr ≠ a) : release a l = l := by
  induction l with
  | nil => rfl
  | cons s l ih =>
    obtain ⟨hs, hl⟩ := List.forall_mem_cons.mp h
    rw [release, if_neg hs, ih hl]

theorem release_append {l₁ l₂ : List Seg} (h : ∀ s ∈ l₁, s.addr ≠ a) (hs : s.addr = a) :
    release a (l₁ ++ s :: l₂) = l₁ ++ { s with free := true } :: l₂ := by
  induction l₁ with
  | nil => simp [release, hs]
  | cons t l₁ ih =>
    obtain ⟨ht, hl⟩ := List.forall_mem_cons.mp h
    rw [List.cons_append, release, if_neg ht, ih hl, List.cons_append]

theorem release_of_free (h : ∀ s ∈ l, s.addr = a → s.free = true) : release a l = l := by
  induction l with
  | nil => rfl
  | cons s l ih =>
    obtain ⟨hs, hl⟩ := List.forall_mem_cons.mp h
    rw [release, ih hl]
    split_ifs with ha
    · rw [← hs ha]
    · rfl

/-- Releasing at `a'` above `b` is releasing at `a` when the two addresses name the same
segment. -/
theorem release_map_up {a' : ℕ} (h : ∀ s ∈ l, s.addr + b = a' ↔ s.addr = a) :
    release a' (l.map (Seg.up b)) = (release a l).map (Seg.up b) := by
  induction l with
  | nil => rfl
  | cons s l ih =>
    obtain ⟨hs, hl⟩ := List.forall_mem_cons.mp h
    have hup : (s.up b).addr = a' ↔ s.addr = a := hs
    rw [List.map_cons, release, release, ih hl]
    simp only [hup]
    split_ifs
    · rfl
    · rfl

theorem coalesceFrom_map_up (b : ℕ) (s : Seg) (r : List Seg) :
    coalesceFrom (s.up b) (r.map (Seg.up b)) = (coalesceFrom s r).map (Seg.up b) := by
  induction r generalizing s with
  | nil => rfl
  | cons t r ih =>
    simp only [List.map_cons, coalesceFrom]
    by_cases h : s.free = true ∧ t.free = true
    · rw [if_pos h, if_pos (show (s.up b).free = true ∧ (t.up b).free = true from h)]
      exact ih { s with size := s.size + t.size }
    · rw [if_neg h, if_neg (show ¬((s.up b).free = true ∧ (t.up b).free = true) from h), ih,
        List.map_cons]

theorem coalesce_map_up (b : ℕ) (l : List Seg) :
    coalesce (l.map (Seg.up b)) = (coalesce l).map (Seg.up b) := by
  cases l with
  | nil => rfl
  | cons s l => exact coalesceFrom_map_up b s l

theorem coalesceFrom_of_separated (h : Separated (s :: r)) : coalesceFrom s r = s :: r := by
  induction r generalizing s with
  | nil => rfl
  | cons t r ih =>
    obtain ⟨hst, hr⟩ := List.isChain_cons_cons.mp h
    rw [coalesceFrom, if_neg hst, ih hr]

theorem coalesce_of_separated (h : Separated l) : coalesce l = l := by
  cases l with
  | nil => rfl
  | cons s l => exact coalesceFrom_of_separated h

theorem mem_coalesceFrom {x : Seg} (hx : x.free = false) :
    x ∈ coalesceFrom s r ↔ x ∈ s :: r := by
  induction r generalizing s with
  | nil => rfl
  | cons t r ih =>
    rw [coalesceFrom]
    split_ifs with h
    · have hs : x ≠ s := fun he => by simp [← he, hx] at h
      have ht : x ≠ t := fun he => by simp [← he, hx] at h
      have hm : x ≠ { s with size := s.size + t.size } := fun he => by simp [he, h.1] at hx
      rw [ih]
      simp [hs, ht, hm]
    · rw [List.mem_cons, ih, List.mem_cons (b := s)]

theorem mem_coalesce {x : Seg} (hx : x.free = false) : x ∈ coalesce l ↔ x ∈ l := by
  cases l with
  | nil => rfl
  | cons s l => exact mem_coalesceFrom hx

end Release

namespace Tiles

variable {l l₁ l₂ r : List Seg} {s t x : Seg} {a e : ℤ}

theorem eq_head (h : Tiles a (t :: r) e) (hx : x ∈ t :: r) (hlt : (x.addr : ℤ) < a + t.size) :
    x = t := by
  rcases List.mem_cons.mp hx with he | hr
  · exact he
  · have hb := (h.2.2.bounds_of_mem hr).1
    omega

theorem ne_of_mem_tail (h : Tiles a (s :: r) e) (hx : x ∈ r) : x ≠ s := by
  rintro rfl
  have hb := (h.2.2.bounds_of_mem hx).1
  have ha := h.1
  have hs := h.2.1
  omega

/-- Of two tilings that begin with a free segment, the one with fewer blocks has the longer. -/
theorem head_size_le (h₁ : Tiles a (s :: l₁) e) (h₂ : Tiles a (t :: l₂) e)
    (hsep : Separated (s :: l₁)) (hs : s.free = true) (ht : t.free = true)
    (hb : ∀ x, x.free = false → x ∈ s :: l₁ → x ∈ t :: l₂) : t.size ≤ s.size := by
  by_contra hlt
  have hend := h₂.2.2.le
  cases l₁ with
  | nil =>
    have he : a + s.size = e := h₁.2.2
    omega
  | cons y l₁ =>
    have hyfree : y.free = false := by
      have hsy := (List.isChain_cons_cons.mp hsep).1
      cases hy : y.free with
      | false => rfl
      | true => exact absurd ⟨hs, hy⟩ hsy
    have hy : y ∈ t :: l₂ := hb y hyfree (by simp)
    have haddr : (y.addr : ℤ) = a + s.size := h₁.2.2.1
    have hyt := h₂.eq_head hy (by omega)
    rw [hyt, ht] at hyfree
    simp at hyfree

/-- A separated tiling of a range is determined by its allocated segments. -/
theorem unique (h₁ : Tiles a l₁ e) (h₂ : Tiles a l₂ e) (hsep₁ : Separated l₁)
    (hsep₂ : Separated l₂) (hb : ∀ x, x.free = false → (x ∈ l₁ ↔ x ∈ l₂)) : l₁ = l₂ := by
  induction l₁ generalizing l₂ a with
  | nil =>
    have hae : a = e := h₁
    cases l₂ with
    | nil => rfl
    | cons t l₂ =>
      have hle := h₂.2.2.le
      have hpos := h₂.2.1
      omega
  | cons s l₁ ih =>
    cases l₂ with
    | nil =>
      have hae : a = e := h₂
      have hle := h₁.2.2.le
      have hpos := h₁.2.1
      omega
    | cons t l₂ =>
      have hs := h₁.1
      have ht := h₂.1
      have hspos := h₁.2.1
      have htpos := h₂.2.1
      have hst : s = t := by
        cases hsf : s.free with
        | false => exact h₂.eq_head ((hb s hsf).mp (by simp)) (by omega)
        | true =>
          cases htf : t.free with
          | false => exact (h₁.eq_head ((hb t htf).mpr (by simp)) (by omega)).symm
          | true =>
            have hle := h₁.head_size_le h₂ hsep₁ hsf htf fun x hx => (hb x hx).mp
            have hge := h₂.head_size_le h₁ hsep₂ htf hsf fun x hx => (hb x hx).mpr
            have haddr : s.addr = t.addr := by omega
            have hsize : s.size = t.size := by omega
            cases s
            cases t
            simp_all
      subst hst
      rw [ih h₁.2.2 h₂.2.2 hsep₁.tail hsep₂.tail fun x hx => ?_]
      have hx' := hb x hx
      constructor
      · intro hm
        have h := hx'.mp (List.mem_cons_of_mem s hm)
        exact (List.mem_cons.mp h).resolve_left (h₁.ne_of_mem_tail hm)
      · intro hm
        have h := hx'.mpr (List.mem_cons_of_mem s hm)
        exact (List.mem_cons.mp h).resolve_left (h₂.ne_of_mem_tail hm)

theorem eq_singleton {b : ℕ} {P : ℤ} (h : Tiles b l (b + P)) (hsep : Separated l) (hP : 0 < P)
    (hfree : ∀ x ∈ l, x.free = true) : l = [⟨b, P, true⟩] := by
  apply h.unique _ hsep (List.isChain_singleton _)
  · intro x hx
    constructor
    · intro hm
      simp [hfree x hm] at hx
    · intro hm
      rw [List.mem_singleton] at hm
      simp [hm] at hx
  · exact ⟨rfl, hP, rfl⟩

theorem map_up {b : ℕ} : Tiles (a + b) (l.map (Seg.up b)) (e + b) ↔ Tiles a l e := by
  induction l generalizing a with
  | nil => simp [Tiles]
  | cons s l ih =>
    have haddr : ((s.addr + b : ℕ) : ℤ) = a + b ↔ (s.addr : ℤ) = a := by
      push_cast
      omega
    simp only [List.map_cons, Tiles, Seg.up, haddr]
    rw [add_right_comm]
    exact and_congr_right fun _ => and_congr_right fun _ => ih

/-- In a tiling the first free segment that holds the block is the lowest one, and the block meets
no other. -/
theorem place_eq_some {size : ℤ} {c : ℕ} {l' : List Seg} (h : Tiles a l e) (hs : 0 < size)
    (hpl : place size l = some (c, l')) :
    ∃ l₁ s l₂, l = l₁ ++ s :: l₂ ∧ s.free = true ∧ size ≤ s.size ∧ c = s.addr ∧
      l' = l₁ ++ carve size s ++ l₂ ∧
      (∀ x ∈ l, x.free = true → size ≤ x.size → s.addr ≤ x.addr) ∧
      ∀ x ∈ l, x.free = false → x.addr + x.size ≤ s.addr ∨ s.addr + size ≤ x.addr := by
  obtain ⟨l₁, s, l₂, rfl, hl₁, hfree, hle, hc, hl'⟩ := Lib.place_eq_some hpl
  refine ⟨l₁, s, l₂, rfl, hfree, hle, hc, hl', fun x hx hxf hxs => ?_, fun x hx hxf => ?_⟩
  · rcases List.mem_append.mp hx with hm | hm
    · exact absurd ⟨hxf, hxs⟩ (hl₁ x hm)
    · rcases List.mem_cons.mp hm with rfl | hm
      · exact le_rfl
      · have := h.le_of_mem_right hm
        omega
  · rcases List.mem_append.mp hx with hm | hm
    · exact Or.inl (h.le_of_mem_left hm)
    · rcases List.mem_cons.mp hm with rfl | hm
      · simp [hfree] at hxf
      · have := h.le_of_mem_right hm
        exact Or.inr (by omega)

/-- Releasing takes exactly the segment at the address from the allocated ones. -/
theorem mem_release (h : Tiles a l e) {c : ℕ} (hx : x.free = false) :
    x ∈ release c l ↔ x ∈ l ∧ x.addr ≠ c := by
  induction l generalizing a with
  | nil => simp [release]
  | cons s l ih =>
    have ih := ih h.2.2
    rw [release]
    split_ifs with hs
    · have hsx : x ≠ { s with free := true } := fun he => by simp [he] at hx
      have htail : x ∈ l → x.addr ≠ c := by
        intro hm hc
        have hb := (h.2.2.bounds_of_mem hm).1
        have ha := h.1
        have hpos := h.2.1
        omega
      rw [List.mem_cons, List.mem_cons]
      constructor
      · rintro (he | hm)
        · exact absurd he hsx
        · exact ⟨Or.inr hm, htail hm⟩
      · rintro ⟨he | hm, hc⟩
        · exact absurd (he ▸ hs) hc
        · exact Or.inr hm
    · rw [List.mem_cons, List.mem_cons, ih]
      constructor
      · rintro (he | ⟨hm, hc⟩)
        · exact ⟨Or.inl he, he ▸ hs⟩
        · exact ⟨Or.inr hm, hc⟩
      · rintro ⟨he | hm, hc⟩
        · exact Or.inl he
        · exact Or.inr ⟨hm, hc⟩

end Tiles

theorem separated_map_up {b : ℕ} {l : List Seg} :
    Separated (l.map (Seg.up b)) ↔ Separated l := by
  unfold Separated
  rw [List.isChain_map]
  rfl

/-- A range of `P` bytes whose front holds `m` blocks of `z` bytes. -/
def packed (P z m : ℕ) : List Seg :=
  (List.range m).map (fun j => ⟨j * z, z, false⟩) ++
    if m * z < P then [⟨m * z, P - m * z, true⟩] else []

section Packed

variable {P z m : ℕ}

theorem packed_zero (hP : 0 < P) : packed P z 0 = [⟨0, P, true⟩] := by
  simp [packed, hP]

theorem packed_blocks (z m : ℕ) :
    ∀ s ∈ (List.range m).map (fun j => (⟨j * z, z, false⟩ : Seg)),
      ¬(s.free = true ∧ (z : ℤ) ≤ s.size) := by
  intro s hs
  obtain ⟨j, _, rfl⟩ := List.mem_map.mp hs
  simp

/-- As long as another block fits, it goes right behind the others. -/
theorem place_packed (hz : 0 < z) (hfit : (m + 1) * z ≤ P) :
    place z (packed P z m) = some (m * z, packed P z (m + 1)) := by
  rw [Nat.add_mul, Nat.one_mul] at hfit
  have hlt : m * z < P := by omega
  rw [packed, if_pos hlt]
  by_cases heq : m * z + z = P
  · have hsize : (P : ℤ) - (m * z : ℕ) = z := by omega
    have hnot : ¬(m + 1) * z < P := by rw [Nat.add_mul, Nat.one_mul]; omega
    push_cast at hsize
    rw [place_exact (packed_blocks z m) rfl hsize, packed, if_neg hnot, List.range_succ,
      List.map_append, hsize]
    simp
  · have hsize : (z : ℤ) < (P : ℤ) - (m * z : ℕ) := by omega
    have hlt' : (m + 1) * z < P := by rw [Nat.add_mul, Nat.one_mul]; omega
    push_cast at hsize
    rw [place_split (packed_blocks z m) rfl hsize, packed, if_pos hlt', List.range_succ,
      List.map_append]
    simp [Nat.add_mul, Int.add_mul, sub_sub]

theorem place_packed_full (hfull : P < (m + 1) * z) : place z (packed P z m) = none := by
  rw [Nat.add_mul, Nat.one_mul] at hfull
  rw [packed, place_append (packed_blocks z m)]
  split_ifs with hlt
  · have hsmall : ¬(z : ℤ) ≤ (P : ℤ) - (m * z : ℕ) := by omega
    push_cast at hsmall
    simp [place, hsmall]
  · simp [place]

end Packed

end SsuOs.Lib
