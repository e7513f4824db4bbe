import SsuOs.Heap.PageInvariant

/-! The segments of a page as its chunk list gives them, relative to the address of the page:
all that the calls depend on. -/
namespace SsuOs.Heap.Page
open SsuOs.Lib

variable {n b : ℕ} {m P size : ℤ} {p : Page n} {l l₁ l₂ : List (Fin n)} {L : List Seg}

/-- The slots that the links lead to from `i` on, at most `fuel` of them. -/
def walk (p : Page n) : ℕ → ℤ → List (Fin n)
  | 0, _ => []
  | fuel + 1, i =>
    match slot n i with
    | .ok t => t :: p.walk fuel (p.chunks t).nextIdx
    | .error _ => []

def segments (p : Page n) : List Seg := p.segs (p.walk n p.headIdx)

def base (p : Page n) : ℕ :=
  match p.segments with
  | s :: _ => s.addr
  | [] => 0

/-- The chunks in list order, with offsets into the page. -/
def layout (p : Page n) : List Seg :=
  p.segments.map fun s => { s with addr := s.addr - p.base }

theorem Chain.walk_cursor (h : p.Chain (l₁ ++ l₂)) {fuel : ℕ} (hf : l₂.length ≤ fuel) :
    p.walk fuel (cursor l₂) = l₂ := by
  induction l₂ generalizing l₁ fuel with
  | nil =>
    have hs : slot n (-1) = .error .outOfBounds := by simp [slot]
    cases fuel with
    | zero => rfl
    | succ fuel => simp [cursor, walk, hs]
  | cons t l₂ ih =>
    obtain ⟨k, rfl⟩ : ∃ k, fuel = k + 1 := ⟨fuel - 1, by simp only [List.length_cons] at hf; omega⟩
    have hk : l₂.length ≤ k := by simpa using hf
    have hc : p.Chain ((l₁ ++ [t]) ++ l₂) := by simpa using h
    change p.walk (k + 1) t = _
    simp only [walk, slot_coe]
    rw [h.path.next_eq_cursor, ih hc hk]

theorem Chain.segments_eq (h : p.Chain l) : p.segments = p.segs l := by
  have hnil : p.Chain ([] ++ l) := h
  rw [segments, h.path.headIdx_eq_cursor, hnil.walk_cursor h.path.length_le]

/-- Without a fitting chunk, the last one decides how the search of `alloc` ends. -/
theorem Chain.allocLoop_of_none (h : p.Chain l)
    (hno : ∀ s ∈ p.segments, ¬(s.free = true ∧ size ≤ s.size)) :
    Page.allocLoop size (n + 1) p.headIdx p =
      .ok (if ∃ s ∈ p.segments.getLast?, s.size < size then .lastTooSmall else .ranOff) := by
  have hlen := h.path.length_le
  have hnil : p.Chain ([] ++ l) := h
  rw [h.segments_eq] at hno ⊢
  rw [h.path.headIdx_eq_cursor]
  rcases allocLoop_spec size (n + 1) hnil (by omega) with
    ⟨la, t, lb, rfl, -, hfit, -⟩ | ⟨-, hrun⟩
  · exact absurd (fits_iff.mp hfit) (hno _ (List.mem_map_of_mem (by simp)))
  · rw [hrun, segs, List.getLast?_map]
    congr 2
    simp [Mm.seg]

/-- The page at `b` is well formed and its chunks lie at the offsets `L`. -/
def Laid (m P : ℤ) (b : ℕ) (p : Page n) (L : List Seg) : Prop :=
  ∃ l, p.WellFormed m P b l ∧ p.segs l = L.map (Seg.up b)

theorem WellFormed.base_eq (h : p.WellFormed m P b l) (hP : 0 < P) : p.base = b := by
  have hs := h.segments_eq
  have ht := h.tiles
  cases hsegs : p.segs l with
  | nil =>
    rw [hsegs] at ht
    have hb : (b : ℤ) = b + P := ht
    omega
  | cons s r =>
    rw [hsegs] at hs ht
    have ha : (s.addr : ℤ) = b := ht.1
    rw [base, hs]
    exact_mod_cast ha

theorem WellFormed.laid (h : p.WellFormed m P b l) (hP : 0 < P) : p.Laid m P b p.layout := by
  refine ⟨l, h, ?_⟩
  rw [layout, h.base_eq hP, h.segments_eq, List.map_map]
  refine (List.map_id' _).symm.trans (List.map_congr_left fun s hs => ?_)
  have hle := (h.tiles.bounds_of_mem hs).1
  have hadd : s.addr - b + b = s.addr := by omega
  simp [Seg.up, hadd]

namespace Laid

theorem segments_eq (h : p.Laid m P b L) : p.segments = L.map (Seg.up b) := by
  obtain ⟨l, hw, hs⟩ := h
  rw [hw.segments_eq, hs]

theorem base_eq (h : p.Laid m P b L) (hP : 0 < P) : p.base = b := by
  obtain ⟨l, hw, _⟩ := h
  exact hw.base_eq hP

theorem layout_eq (h : p.Laid m P b L) (hP : 0 < P) : p.layout = L := by
  rw [layout, h.base_eq hP, h.segments_eq, List.map_map]
  refine (List.map_congr_left fun s _ => ?_).trans (List.map_id' L)
  simp [Seg.up]

theorem tiles (h : p.Laid m P b L) : Tiles 0 L P := by
  obtain ⟨l, hw, hs⟩ := h
  have ht := hw.tiles
  rw [hs, show (b : ℤ) = 0 + b by omega, show (0 : ℤ) + b + P = P + b by omega] at ht
  exact Tiles.map_up.mp ht

theorem separated (h : p.Laid m P b L) : Separated L := by
  obtain ⟨l, hw, hs⟩ := h
  have hsep := hw.separated
  rw [hs] at hsep
  exact separated_map_up.mp hsep

theorem tiles_segments (h : p.Laid m P b L) : Tiles b p.segments (b + P) := by
  obtain ⟨l, hw, -⟩ := h
  rw [hw.segments_eq]
  exact hw.tiles

theorem separated_segments (h : p.Laid m P b L) : Separated p.segments := by
  obtain ⟨l, hw, -⟩ := h
  rw [hw.segments_eq]
  exact hw.separated

theorem place_segments (h : p.Laid m P b L) :
    place size p.segments = (place size L).map fun x => (x.1 + b, x.2.map (Seg.up b)) := by
  rw [h.segments_eq, place_map_up]

/-- An offset and an address name the same chunk, if any. -/
def Names (b : ℕ) (L : List Seg) (addr o : ℕ) : Prop := ∀ s ∈ L, s.addr + b = addr ↔ s.addr = o

theorem exists_names (h : p.Laid m P b L) (addr : ℕ) : ∃ o, Names b L addr o := by
  by_cases hle : b ≤ addr
  · exact ⟨addr - b, fun s _ => by omega⟩
  · refine ⟨P.toNat, fun s hs => ?_⟩
    have hb := h.tiles.bounds_of_mem hs
    have hpos := h.tiles.pos_of_mem hs
    omega

theorem start {z : Fin n} (hz : (z : ℕ) = 0) (hp : ∀ i, (p.chunks i).isUsing = 0) (hP : 0 < P)
    (hd : m ∣ P) : (p.start b P z).Laid m P b [⟨0, P, true⟩] := by
  refine ⟨[z], wellFormed_start hz hp hP hd, ?_⟩
  simp [segs, Page.start, set_chunks, Mm.seg, Seg.up]

section Alloc

variable (hm : 0 < m) (hP : P = n * m) (hb : b + P ≤ 2 ^ 64) (hs : 0 < size) (hd : m ∣ size)

include hm hP hb hs hd

theorem allocLoop_some (h : p.Laid m P b L) {o : ℕ} {L' : List Seg}
    (hpl : place size L = some (o, L')) :
    ∃ p', Page.allocLoop size (n + 1) p.headIdx p = .ok (.found (o + b) p') ∧
      p'.Laid m P b L' := by
  obtain ⟨l, hw, hsegs⟩ := h
  have hup : place size (p.segs l) = some (o + b, L'.map (Seg.up b)) := by
    rw [hsegs, place_map_up, hpl, Option.map_some]
  rcases hw.allocLoop hm hP hb hs hd with ⟨a, p', l', hrun, hw', hpl'⟩ | ⟨hnone, _⟩
  · rw [hup] at hpl'
    obtain ⟨ha, hl'⟩ := Prod.mk.inj (Option.some.inj hpl')
    exact ⟨p', by rw [hrun, ha], l', hw', hl'.symm⟩
  · rw [hup] at hnone
    simp at hnone

theorem allocLoop_none (h : p.Laid m P b L) (hpl : place size L = none) :
    Page.allocLoop size (n + 1) p.headIdx p = .ok .lastTooSmall ∨
      Page.allocLoop size (n + 1) p.headIdx p = .ok .ranOff := by
  obtain ⟨l, hw, hsegs⟩ := h
  rcases hw.allocLoop hm hP hb hs hd with ⟨a, p', l', hrun, hw', hpl'⟩ | ⟨_, hrun⟩
  · rw [hsegs, place_map_up, hpl] at hpl'
    simp at hpl'
  · exact hrun

end Alloc

theorem mergeChunk (h : p.Laid m P b L) (hP : 0 < P) :
    ∃ p', p.mergeChunk = .ok p' ∧ p'.Laid m P b L := by
  obtain ⟨l, hw, hsegs⟩ := h
  obtain ⟨p', l', hrun, hw', hs'⟩ := hw.toTiled.mergeChunk hP
  refine ⟨p', hrun, l', hw', ?_⟩
  rw [hs', coalesce_of_separated hw.separated, hsegs]

theorem deallocLoop (h : p.Laid m P b L) (hP : 0 < P) {addr o : ℕ} (ho : Names b L addr o) :
    (∃ p₁ p₂, Page.deallocLoop addr (n + 1) p.headIdx p = .ok (some p₁) ∧
      p₁.mergeChunk = .ok p₂ ∧ p₂.Laid m P b (coalesce (release o L)) ∧
      ∃ s ∈ L, s.addr + b = addr) ∨
    Page.deallocLoop addr (n + 1) p.headIdx p = .ok none ∧ (∀ s ∈ L, s.addr + b ≠ addr) ∧
      release o L = L := by
  obtain ⟨l, hw, hsegs⟩ := h
  rcases hw.deallocLoop addr with ⟨p₁, hrun, ht, hs₁, s, hs, ha⟩ | ⟨hrun, hno⟩
  · left
    obtain ⟨p₂, l₂, hmerge, hw₂, hs₂⟩ := ht.mergeChunk hP
    rw [hsegs] at hs
    obtain ⟨x, hx, rfl⟩ := List.mem_map.mp hs
    refine ⟨p₁, p₂, hrun, hmerge, ⟨l₂, hw₂, ?_⟩, x, hx, ha⟩
    rw [hs₂, hs₁, hsegs, release_map_up ho, coalesce_map_up]
  · right
    have hne : ∀ s ∈ L, s.addr + b ≠ addr := by
      intro s hs
      rw [hsegs] at hno
      exact hno (s.up b) (List.mem_map_of_mem hs)
    exact ⟨hrun, hne, release_of_ne fun s hs he => hne s hs ((ho s hs).mpr he)⟩

theorem segments_released (h : p.Laid m P b L) {p' : Page n} {addr o : ℕ} (ho : Names b L addr o)
    (h' : p'.Laid m P b (coalesce (release o L))) :
    p'.segments = coalesce (release addr p.segments) := by
  rw [h'.segments_eq, h.segments_eq, release_map_up ho, coalesce_map_up]

theorem coalesce_release_of_ne (h : p.Laid m P b L) {addr : ℕ}
    (hne : ∀ s ∈ p.segments, s.addr ≠ addr) :
    coalesce (release addr p.segments) = p.segments := by
  rw [release_of_ne hne, coalesce_of_separated h.separated_segments]

theorem mem_segments_released (h : p.Laid m P b L) {addr : ℕ} {x : Seg} (hx : x.free = false) :
    x ∈ coalesce (release addr p.segments) ↔ x ∈ p.segments ∧ x.addr ≠ addr := by
  rw [mem_coalesce hx, h.tiles_segments.mem_release hx]

/-- A page whose blocks have all been released is one free chunk. -/
theorem eq_free_of_released (h' : p.Laid m P b L) (hP : 0 < P) {segs : List Seg} {addrs : List ℕ}
    (hmem : ∀ x ∈ p.segments, x.free = false → x ∈ segs ∧ x.addr ∉ addrs)
    (haddrs : ∀ s ∈ segs, s.free = false → s.addr ∈ addrs) : L = [⟨0, P, true⟩] := by
  have ht : Tiles (0 : ℕ) L ((0 : ℕ) + P) := by simpa using h'.tiles
  refine ht.eq_singleton h'.separated hP fun x hx => ?_
  cases hfree : x.free with
  | true => rfl
  | false =>
    have hup : x.up b ∈ p.segments := by
      rw [h'.segments_eq]
      exact List.mem_map_of_mem hx
    obtain ⟨hseg, hna⟩ := hmem _ hup hfree
    exact absurd (haddrs _ hseg hfree) hna

end Laid

end SsuOs.Heap.Page
