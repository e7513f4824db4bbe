import SsuOs.Lib.Gaps
import SsuOs.Heap.Fit
import SsuOs.Heap.Reuse

/-! What `dealloc` does in both allocators: it frees the block that starts at the address, if there
is one, and nothing else. -/
namespace SsuOs.Heap
open SsuOs.Lib

def BlockAt (a : ℕ) (l : List Seg) : Prop := ∃ x ∈ l, x.addr = a ∧ x.free = false

instance (a : ℕ) (l : List Seg) : Decidable (BlockAt a l) :=
  inferInstanceAs (Decidable (∃ x ∈ l, x.addr = a ∧ x.free = false))

/-- On the page of `P` bytes at `b` the block at `a` is gone, the other blocks are as before, and
free is all that lies between blocks. -/
structure Freed (b : ℕ) (P : ℤ) (a : ℕ) (l l' : List Seg) : Prop where
  blocks : ∀ x : Seg, x.free = false → (x ∈ l' ↔ x ∈ l ∧ x.addr ≠ a)
  gaps : ∀ (c : ℕ) (n : ℤ), ⟨c, n, true⟩ ∈ l' ↔ MaximalGap b (b + P) l' c (c + n)

section

variable {n a b : ℕ} {m P : ℤ} {p p' : Page n} {L L' : List Seg}

theorem Page.Laid.freed (h : p.Laid m P b L) (h' : p'.Laid m P b L')
    (hseg : p'.segments = coalesce (release a p.segments)) :
    Freed b P a p.segments p'.segments := by
  refine ⟨fun x hx => ?_, fun c n => h'.tiles_segments.free_mem_iff h'.separated_segments⟩
  rw [hseg, h.mem_segments_released hx]

theorem Page.Laid.released_of_no_block (h : p.Laid m P b L) (hno : ¬BlockAt a p.segments) :
    coalesce (release a p.segments) = p.segments := by
  rw [release_of_free, coalesce_of_separated h.separated_segments]
  intro x hx ha
  cases hf : x.free with
  | true => rfl
  | false => exact absurd ⟨x, hx, ha, hf⟩ hno

end

/-- In every reachable state of either allocator `dealloc(a)` frees exactly the block that starts at
`a`, and leaves all chunks alone when none does. The chunks of the growing heap stay inside their
own page. -/
theorem dealloc_frees_exactly_one :
    (∀ tr (h : Alloc.State), Alloc.HeapRun tr h → h.headIdx ≠ -1 →
      ∀ a, ∃ h', Alloc.dealloc a h = .ok h' ∧
        (BlockAt a h.segments → Freed h.base pageSize a h.segments h'.segments) ∧
        (¬BlockAt a h.segments → h'.segments = h.segments)) ∧
    ∀ tr (s : Ealloc.State), Ealloc.FreshRun tr s → ∀ a, ∃ s', Ealloc.dealloc a s = .ok s' ∧
      s'.pagenum = s.pagenum ∧
      ((∃ i : Fin Ealloc.pageMax, (i : ℤ) < s.pagenum ∧ BlockAt a (s.page i).segments) →
        ∀ i : Fin Ealloc.pageMax, (i : ℤ) < s.pagenum →
          Freed (s.page i).base pageSize a (s.page i).segments (s'.page i).segments) ∧
      ((∀ i : Fin Ealloc.pageMax, (i : ℤ) < s.pagenum → ¬BlockAt a (s.page i).segments) →
        ∀ i : Fin Ealloc.pageMax, (i : ℤ) < s.pagenum →
          (s'.page i).segments = (s.page i).segments) ∧
      (∀ i : Fin Ealloc.pageMax, (i : ℤ) < s.pagenum → ∀ x ∈ (s'.page i).segments,
        ((s.page i).base : ℤ) ≤ x.addr ∧
          x.addr + x.size ≤ (s.page i).base + (pageSize : ℤ)) ∧
      ∀ i j : Fin Ealloc.pageMax, (i : ℤ) < s.pagenum → (j : ℤ) < s.pagenum → i ≠ j →
        Ealloc.Apart pageSize (s.page i).base (s.page j).base := by
  constructor
  · intro tr h hr hinit a
    obtain ⟨L, hat, -⟩ := Alloc.heapRun_placed hr hinit
    obtain ⟨h', L', hrun, hat', hseg⟩ := hat.dealloc_segments a
    refine ⟨h', hrun, fun _ => hat.2.freed hat'.2 hseg, fun hno => ?_⟩
    rw [hseg, hat.2.released_of_no_block hno]
  · intro tr s hr a
    obtain ⟨b, L, h⟩ := Ealloc.freshRun_mapped hr
    obtain ⟨s', L', hrun, h', hpn, hseg⟩ := h.dealloc a
    have hbase : ∀ i : Fin Ealloc.pageMax, (i : ℤ) < s.pagenum → (s.page i).base = b i :=
      fun i hi => (h.laid i hi).base_eq pageSize_pos
    have hlaid : ∀ i : Fin Ealloc.pageMax, (i : ℤ) < s.pagenum →
        (s'.page i).Laid Ealloc.minAlloc pageSize (b i) (L' i) :=
      fun i hi => h'.laid i (by omega)
    refine ⟨s', hrun, hpn, fun _ i hi => ?_, fun hno i hi => ?_, fun i hi x hx => ?_,
      fun i j hi hj hij => ?_⟩
    · rw [hbase i hi]
      exact (h.laid i hi).freed (hlaid i hi) (hseg i hi)
    · rw [hseg i hi, (h.laid i hi).released_of_no_block (hno i hi)]
    · rw [hbase i hi]
      exact (hlaid i hi).tiles_segments.bounds_of_mem hx
    · rw [hbase i hi, hbase j hj]
      exact h.apart i j hi hj hij

/-- The second of three blocks is freed in either allocator; on the adjacent page the first chunk
stays apart. -/
theorem dealloc_frees_second :
    (∃ h h' : Alloc.State, BlockAt 4104 h.segments ∧ Alloc.dealloc 4104 h = .ok h' ∧
      Freed h.base pageSize 4104 h.segments h'.segments) ∧
    ∃ s s' : Ealloc.State, s.pagenum = 2 ∧ Ealloc.dealloc 7680 s = .ok s' ∧
      ∀ x ∈ (s'.page 0).segments, x.addr + x.size ≤ (s.page 0).base + (pageSize : ℤ) := by
  have h₁ : ∃ tr h, Alloc.HeapRun tr h ∧
      decide (h.headIdx ≠ -1 ∧ BlockAt 4104 h.segments) = true :=
    Run.exists_of_replayCheck [.initAlloc 4096, .alloc 8 0, .alloc 16 0, .alloc 8 0] rfl
      (by decide +kernel)
  have h₂ : ∃ tr s, Ealloc.FreshRun tr s ∧ decide (s.pagenum = 2) = true :=
    Run.exists_of_replayCheck [.alloc 3584 fun _ => 4096, .alloc 512 fun _ => 8192,
      .alloc 512 fun _ => 8192, .dealloc 8192] rfl (by decide +kernel)
  obtain ⟨tr, h, hr, hp⟩ := h₁
  obtain ⟨hinit, hblock⟩ := of_decide_eq_true hp
  obtain ⟨h', hrun, hfreed, -⟩ := dealloc_frees_exactly_one.1 tr h hr hinit 4104
  obtain ⟨tr, s, hr, hp⟩ := h₂
  have hpn := of_decide_eq_true hp
  obtain ⟨s', hrun', -, -, -, hbounds, -⟩ := dealloc_frees_exactly_one.2 tr s hr 7680
  exact ⟨⟨h, h', hblock, hrun, hfreed hblock⟩, s, s', hpn, hrun', fun x hx =>
    (hbounds 0 (by rw [hpn]; decide) x hx).2⟩

end SsuOs.Heap
