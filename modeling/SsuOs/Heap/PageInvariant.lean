import Mathlib.Algebra.Order.Ring.Int
import Mathlib.Tactic.Ring
import SsuOs.Heap.PageSpec
import SsuOs.Lib.FirstFit

/-! The chunk table stays well formed under every operation on a page whose slots are as many
as the smallest chunks that fit into it. -/
namespace SsuOs.Heap.Page
open SsuOs.Lib

variable {n base : ℕ} {m P : ℤ} {p : Page n} {l l₁ l₂ : List (Fin n)} {t : Fin n}

theorem ptrAdd_eq {a : ℕ} {k : ℤ} (h₀ : 0 ≤ a + k) (h : a + k < 2 ^ 64) :
    (ptrAdd a k : ℤ) = a + k := by
  rw [ptrAdd, Int.toNat_of_nonneg (by omega), Int.emod_eq_of_lt h₀ h]

theorem segs_set_flag {f : ℤ} (hl : t ∉ l) :
    (p.set t { p.chunks t with flag := f }).segs l = p.segs l := by
  refine segs_congr fun i hi => ?_
  rw [set_chunks, if_neg (fun he : i = t => hl (he ▸ hi))]

theorem Chain.segs_set_flag_middle (h : p.Chain (l₁ ++ t :: l₂)) (f : ℤ) :
    (p.set t { p.chunks t with flag := f }).segs (l₁ ++ t :: l₂) =
      p.segs l₁ ++ { (p.chunks t).seg with free := decide (f = 0) } :: p.segs l₂ := by
  have hnd := h.nodup
  simp only [List.nodup_append, List.nodup_cons, List.mem_cons] at hnd
  obtain ⟨_, ⟨ht₂, _⟩, hdisj⟩ := hnd
  have ht₁ : t ∉ l₁ := fun hm => hdisj t hm t (by simp) rfl
  rw [segs_append, segs_cons, segs_set_flag ht₁, segs_set_flag ht₂, set_chunks, if_pos rfl]
  rfl

theorem Tiled.set_flag (h : p.Tiled m P base (l₁ ++ t :: l₂)) (f : ℤ) :
    (p.set t { p.chunks t with flag := f }).Tiled m P base (l₁ ++ t :: l₂) := by
  have hsegs := h.segs_set_flag_middle f
  have htiles := h.tiles
  have haligned := h.aligned
  rw [segs_append, segs_cons] at htiles haligned
  refine ⟨h.toChain.set_flag t f, ?_, ?_⟩
  · rw [hsegs]
    exact htiles.flip rfl rfl
  · rw [hsegs]
    simp only [List.mem_append, List.mem_cons] at haligned ⊢
    rintro s (hs | rfl | hs)
    · exact haligned s (by simp [hs])
    · exact haligned (p.chunks t).seg (Or.inr (Or.inl rfl))
    · exact haligned s (by simp [hs])

theorem WellFormed.occupy (h : p.WellFormed m P base (l₁ ++ t :: l₂)) :
    (p.set t { p.chunks t with flag := 1 }).WellFormed m P base (l₁ ++ t :: l₂) := by
  refine ⟨h.toTiled.set_flag 1, ?_⟩
  have hsep := h.separated
  rw [segs_append, segs_cons] at hsep
  rw [h.segs_set_flag_middle 1]
  exact hsep.occupy rfl

theorem Tiled.ne_nil (h : p.Tiled m P base l) (hP : 0 < P) : l ≠ [] := by
  rintro rfl
  have ht : (base : ℤ) = base + P := h.tiles
  omega

theorem Tiled.bounds_of_mem (h : p.Tiled m P base l) (ht : t ∈ l) :
    0 < (p.chunks t).chunkSize ∧ (base : ℤ) ≤ (p.chunks t).addr ∧
      (p.chunks t).addr + (p.chunks t).chunkSize ≤ base + P := by
  have hs : (p.chunks t).seg ∈ p.segs l := List.mem_map.mpr ⟨t, ht, rfl⟩
  exact ⟨h.tiles.pos_of_mem hs, h.tiles.bounds_of_mem hs⟩

/-- While some chunk can still be split, a slot is free. -/
theorem Tiled.exists_findNext {size : ℤ} (h : p.Tiled m P base l) (hm : 0 < m) (hP : P = n * m)
    (ht : t ∈ l) (hs : 0 < size) (hd : m ∣ size) (hlt : size < (p.chunks t).chunkSize) :
    ∃ x : Fin n, p.findNext = x ∧ x ∉ l := by
  refine findNext_spec h.toChain ?_
  obtain ⟨l₁, l₂, rfl⟩ := List.append_of_mem ht
  have htiles := h.tiles
  have haligned := h.aligned
  rw [segs_append, segs_cons] at htiles haligned
  -- Splitting the segment as well gives one more aligned segment, and all of them still fit.
  let a : Seg := ⟨(p.chunks t).addr, size, false⟩
  let b : Seg := ⟨(p.chunks t).addr + size.toNat, (p.chunks t).chunkSize - size, true⟩
  have hsplit : Tiles base (p.segs l₁ ++ a :: b :: p.segs l₂) (base + P) := by
    refine htiles.split rfl hs ?_ ?_ hlt
    · simp only [b, Mm.seg, a]; omega
    · simp only [b, Mm.seg, a]; omega
  have hlen := hsplit.length_le (dvd_split haligned hd (by simp only [b, Mm.seg, a]; omega))
  have hle : ((l₁.length + l₂.length + 2 : ℕ) : ℤ) * m ≤ n * m := by
    rw [← hP]
    simp only [List.length_append, List.length_cons, segs, List.length_map] at hlen
    convert hlen using 2
    · push_cast; ring
    · ring
  have hnat := le_of_mul_le_mul_right hle hm
  simp only [List.length_append, List.length_cons]
  omega

theorem WellFormed.split {size : ℤ} (h : p.WellFormed m P base (l₁ ++ t :: l₂)) (hm : 0 < m)
    (hP : P = n * m) (hb : base + P ≤ 2 ^ 64) (hs : 0 < size) (hd : m ∣ size)
    (hlt : size < (p.chunks t).chunkSize) (hf : (p.chunks t).flag = 0) :
    ∃ p' x, splitChunk size t p = .ok (.found (p.chunks t).addr p') ∧
      p'.WellFormed m P base (l₁ ++ x :: t :: l₂) ∧ p'.segs l₁ = p.segs l₁ ∧
      p'.segs l₂ = p.segs l₂ ∧ (p'.chunks x).seg = ⟨(p.chunks t).addr, size, false⟩ ∧
      (p'.chunks t).seg =
        ⟨(p.chunks t).addr + size.toNat, (p.chunks t).chunkSize - size, true⟩ := by
  have htm : t ∈ l₁ ++ t :: l₂ := by simp
  obtain ⟨_, _, hhi⟩ := h.bounds_of_mem htm
  obtain ⟨x, hx, hxl⟩ := h.exists_findNext hm hP htm hs hd hlt
  obtain ⟨p', hp', hc, hs₁, hs₂, hsx, hst⟩ := splitChunk_spec size h.toChain hx hxl
  have hadd : ptrAdd (p.chunks t).addr size = (p.chunks t).addr + size.toNat := by
    have := ptrAdd_eq (a := (p.chunks t).addr) (k := size) (by omega) (by omega)
    omega
  have hfree : (p.chunks t).seg.free = true := by simp [Mm.seg, hf]
  rw [hadd, hfree] at hst
  have hsegs : p'.segs (l₁ ++ x :: t :: l₂) = p.segs l₁ ++
      ⟨(p.chunks t).addr, size, false⟩ ::
      ⟨(p.chunks t).addr + size.toNat, (p.chunks t).chunkSize - size, true⟩ :: p.segs l₂ := by
    rw [segs_append, segs_cons, segs_cons, hs₁, hs₂, hsx, hst]
  have htiles := h.tiles
  have haligned := h.aligned
  have hsep := h.separated
  rw [segs_append, segs_cons] at htiles haligned hsep
  refine ⟨p', x, hp', ⟨⟨hc, ?_, ?_⟩, ?_⟩, hs₁, hs₂, hsx, hst⟩
  · rw [hsegs]
    refine htiles.split rfl hs ?_ ?_ hlt
    · simp only [Mm.seg]; omega
    · simp only [Mm.seg]; omega
  · rw [hsegs]
    exact dvd_split haligned hd (by simp only [Mm.seg]; omega)
  · rw [hsegs]
    exact hsep.split hfree rfl

theorem Tiled.mergeChunk (h : p.Tiled m P base l) (hP : 0 < P) :
    ∃ p' l', p.mergeChunk = .ok p' ∧ p'.WellFormed m P base l' ∧
      p'.segs l' = coalesce (p.segs l) := by
  obtain ⟨t, l, rfl⟩ := List.exists_cons_of_ne_nil (h.ne_nil hP)
  obtain ⟨p', hp', hmerged, hsegs, _⟩ := mergeChunk_spec h.path
  have hc := hmerged.chain (isStretches_stretchesFrom _ t l) h.toChain
  refine ⟨p', _, hp', ⟨⟨hc, ?_, ?_⟩, ?_⟩, hsegs⟩
  · rw [hsegs]
    exact h.tiles.coalesceFrom
  · rw [hsegs]
    exact dvd_coalesceFrom h.aligned
  · rw [hsegs]
    exact separated_coalesceFrom _ _

theorem fits_iff {size : ℤ} {c : Mm} : Fits size c ↔ c.seg.free = true ∧ size ≤ c.seg.size := by
  simp [Fits, Mm.seg, and_comm]

/-- The search of `alloc` places the block, or leaves the page alone when it has no place. -/
theorem WellFormed.allocLoop {size : ℤ} (h : p.WellFormed m P base l) (hm : 0 < m)
    (hP : P = n * m) (hb : base + P ≤ 2 ^ 64) (hs : 0 < size) (hd : m ∣ size) :
    (∃ a p' l', Page.allocLoop size (n + 1) p.headIdx p = .ok (.found a p') ∧
      p'.WellFormed m P base l' ∧ place size (p.segs l) = some (a, p'.segs l')) ∨
    place size (p.segs l) = none ∧
      (Page.allocLoop size (n + 1) p.headIdx p = .ok .lastTooSmall ∨
        Page.allocLoop size (n + 1) p.headIdx p = .ok .ranOff) := by
  have hlen := h.path.length_le
  have hnil : p.Chain ([] ++ l) := h.toChain
  have hmiss : ∀ l' : List (Fin n), (∀ i ∈ l', ¬Fits size (p.chunks i)) →
      ∀ s ∈ p.segs l', ¬(s.free = true ∧ size ≤ s.size) := by
    intro l' hl' s hsl
    obtain ⟨i, hi, rfl⟩ := List.mem_map.mp hsl
    exact fun hfit => hl' i hi (fits_iff.mpr hfit)
  rw [h.path.headIdx_eq_cursor]
  rcases allocLoop_spec size (n + 1) hnil (by omega) with
    ⟨la, t, lb, rfl, hla, hfit, hrun⟩ | ⟨hno, hrun⟩
  · left
    obtain ⟨hge, hfree⟩ := hfit
    have hseg : (p.chunks t).seg.free = true := by simp [Mm.seg, hfree]
    split_ifs at hrun with heq
    · refine ⟨_, _, _, hrun, h.occupy, ?_⟩
      rw [h.segs_set_flag_middle 1, segs_append, segs_cons]
      exact place_exact (hmiss la hla) hseg heq
    · have hlt : size < (p.chunks t).chunkSize := lt_of_le_of_ne hge (Ne.symm heq)
      obtain ⟨p', x, hp', hw, hs₁, hs₂, hsx, hst⟩ := h.split hm hP hb hs hd hlt hfree
      refine ⟨_, p', _, hrun.trans hp', hw, ?_⟩
      rw [segs_append, segs_cons, segs_append, segs_cons, segs_cons, hs₁, hs₂, hsx, hst]
      exact place_split (hmiss la hla) hseg hlt
  · right
    refine ⟨place_eq_none_iff.mpr (hmiss l hno), ?_⟩
    split_ifs at hrun
    · exact Or.inl hrun
    · exact Or.inr hrun

/-- The search of `dealloc` releases the chunk at the address, if there is one. -/
theorem WellFormed.deallocLoop (h : p.WellFormed m P base l) (addr : ℕ) :
    (∃ p', Page.deallocLoop addr (n + 1) p.headIdx p = .ok (some p') ∧ p'.Tiled m P base l ∧
      p'.segs l = release addr (p.segs l) ∧ ∃ s ∈ p.segs l, s.addr = addr) ∨
    Page.deallocLoop addr (n + 1) p.headIdx p = .ok none ∧ ∀ s ∈ p.segs l, s.addr ≠ addr := by
  have hlen := h.path.length_le
  have hnil : p.Chain ([] ++ l) := h.toChain
  have hmiss : ∀ l' : List (Fin n), (∀ i ∈ l', (p.chunks i).addr ≠ addr) →
      ∀ s ∈ p.segs l', s.addr ≠ addr := by
    intro l' hl' s hsl
    obtain ⟨i, hi, rfl⟩ := List.mem_map.mp hsl
    exact hl' i hi
  rw [h.path.headIdx_eq_cursor]
  rcases deallocLoop_spec addr (n + 1) hnil (by omega) with
    ⟨la, t, lb, rfl, hla, ht, hrun⟩ | ⟨hno, hrun⟩
  · refine Or.inl ⟨_, hrun, h.toTiled.set_flag 0, ?_, (p.chunks t).seg, by simp [segs], ht⟩
    rw [h.segs_set_flag_middle 0, segs_append, segs_cons, release_append (hmiss la hla) ht]
    rfl
  · exact Or.inr ⟨hrun, hmiss l hno⟩

theorem wellFormed_start {z : Fin n} (hz : (z : ℕ) = 0) (hp : ∀ i, (p.chunks i).isUsing = 0)
    (hP : 0 < P) (hd : m ∣ P) : (p.start base P z).WellFormed m P base [z] := by
  have hc : ∀ i, (p.start base P z).chunks i =
      if i = z then ⟨base, P, 0, 1, -1, -1⟩ else p.chunks i := fun i => set_chunks p z i _
  have hsegs : (p.start base P z).segs [z] = [⟨base, P, true⟩] := by simp [segs, hc, Mm.seg]
  refine ⟨⟨⟨⟨z, ?_, ?_, rfl, ?_⟩, by simp, fun i => ?_⟩, ?_, ?_⟩, ?_⟩
  · simp [start, hz]
  · simp [prev, hc]
  · simp [next, hc]
  · rw [hc]
    split_ifs with hi <;> simp_all
  · rw [hsegs]
    exact ⟨rfl, hP, rfl⟩
  · simpa [hsegs] using hd
  · rw [hsegs]
    exact List.isChain_singleton _

end SsuOs.Heap.Page
