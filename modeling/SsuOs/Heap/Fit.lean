import SsuOs.Lib.Except
import SsuOs.Heap.History

/-! What `alloc` of `alloc.c` does with a valid size: it takes the lowest fitting chunk, or ends
its search in one of two ways. -/
namespace SsuOs.Heap.Alloc
open SsuOs.Lib Page

/-- Sizes need not be positive, as long as the check of `alloc` refuses them. -/
abbrev Checked : Call → State → Prop := CallOk (¬Slips minAlloc ·) (· + pageSize ≤ 2 ^ 64)

/-- The heap is empty, or its page lies where an `init_alloc` of the history has mapped it. -/
def Placed (tr : List (Event State Call Ret)) (h : State) : Prop :=
  h = Page.fresh ∨ ∃ b L, At b h L ∧ ∃ e ∈ tr, e.call = .initAlloc b

section

variable {b : ℕ} {h h' : State} {L : List Seg} {size : ℤ} {tr : List (Event State Call Ret)}

theorem checked_of_admissible {c : Call} (ha : Admissible c h) : Checked c h := by
  cases c with
  | initAlloc a => exact ha
  | cleanup res junk => trivial
  | alloc size junk => exact fun hbad => absurd ha (not_lt.mpr hbad.1)
  | dealloc addr => trivial

theorem alloc_refused (hbad : size.tmod minAlloc ≠ 0 ∨ size > pageSize) (junk : ℕ) (h : State) :
    alloc size junk h = .ok (0, h) :=
  if_pos hbad

theorem alloc_of_found (hok : ¬(size.tmod minAlloc ≠ 0 ∨ size > pageSize)) {a : ℕ}
    (hrun : Page.allocLoop size (chunkMax + 1) h.headIdx h = .ok (.found a h')) (junk : ℕ) :
    alloc size junk h = .ok (a, h') := by
  rw [alloc, if_neg hok, hrun]
  rfl

theorem At.not_fresh (hat : At b h L) : h.headIdx ≠ -1 := by
  obtain ⟨-, l, hw, -⟩ := hat
  obtain ⟨t, l, rfl⟩ := List.exists_cons_of_ne_nil (hw.ne_nil pageSize_pos)
  have := hw.path.head_eq
  omega

/-- Without a fitting chunk the answer depends on the last chunk, and nothing changes. -/
theorem At.alloc_of_none (hat : At b h L) (hs : ValidSize minAlloc size)
    (hno : ∀ x ∈ h.segments, ¬(x.free = true ∧ size ≤ x.size)) (junk : ℕ) :
    Alloc.alloc size junk h =
      .ok (if ∃ x ∈ h.segments.getLast?, x.size < size then 0 else junk, h) := by
  obtain ⟨-, l, hw, -⟩ := hat
  rw [Alloc.alloc, if_neg hs.not_refused, hw.allocLoop_of_none hno, ok_bind]
  split_ifs
  · rfl
  · rfl

theorem At.alloc_of_fit (hat : At b h L) (hs : ValidSize minAlloc size) {a : ℕ} {l : List Seg}
    (hpl : place size h.segments = some (a, l)) :
    ∃ h' L', (∀ junk, Alloc.alloc size junk h = .ok (a, h')) ∧ At b h' L' ∧ h'.segments = l := by
  rw [hat.2.place_segments] at hpl
  obtain ⟨⟨o, L'⟩, hpl', heq⟩ := Option.map_eq_some_iff.mp hpl
  obtain ⟨rfl, rfl⟩ := Prod.mk.inj heq
  obtain ⟨h', hrun, hat'⟩ := hat.alloc hs hpl'
  exact ⟨h', L', hrun, hat', hat'.2.segments_eq⟩

theorem At.exec_alloc (hat : At b h L) {junk : ℕ} {r : Ret} (hc : Checked (.alloc size junk) h)
    (he : exec (.alloc size junk) h = .ok (r, h')) : ∃ L', At b h' L' := by
  obtain ⟨⟨a, t⟩, hrun, heq⟩ := map_eq_ok.mp he
  obtain ⟨-, rfl⟩ := Prod.mk.inj heq
  by_cases hs : ValidSize minAlloc size
  · cases hpl : place size h.segments with
    | none =>
      rw [hat.alloc_of_none hs (place_eq_none_iff.mp hpl)] at hrun
      obtain ⟨-, rfl⟩ := ok_pair_inj hrun
      exact ⟨L, hat⟩
    | some x =>
      obtain ⟨h₁, L', hrun₁, hat₁, -⟩ := hat.alloc_of_fit hs hpl
      rw [hrun₁] at hrun
      obtain ⟨-, rfl⟩ := ok_pair_inj hrun
      exact ⟨L', hat₁⟩
  · rw [alloc_refused (refused_iff.mpr ⟨hs, hc⟩)] at hrun
    obtain ⟨-, rfl⟩ := ok_pair_inj hrun
    exact ⟨L, hat⟩

theorem At.exec_dealloc (hat : At b h L) {addr : ℕ} {r : Ret}
    (he : exec (.dealloc addr) h = .ok (r, h')) : ∃ L', At b h' L' := by
  obtain ⟨t, hrun, heq⟩ := map_eq_ok.mp he
  obtain ⟨-, rfl⟩ := Prod.mk.inj heq
  obtain ⟨h₁, L₁, hrun₁, hat₁, -⟩ := hat.dealloc_segments addr
  rw [hrun₁] at hrun
  obtain rfl := Except.ok.inj hrun
  exact ⟨L₁, hat₁⟩

theorem at_initAlloc {a : ℕ} (ha : a + pageSize ≤ 2 ^ 64) :
    At a (initAlloc a Page.fresh).2 [⟨0, pageSize, true⟩] :=
  ⟨ha, Laid.start rfl (fun _ => rfl) pageSize_pos (by decide)⟩

theorem exec_fresh {c : Call} {r : Ret} (hc : ∀ a, c ≠ .initAlloc a)
    (he : exec c Page.fresh = .ok (r, h')) : h' = Page.fresh := by
  cases c with
  | initAlloc a => exact absurd rfl (hc a)
  | cleanup res junk => exact (ok_pair_inj he).2.symm
  | alloc size junk =>
    obtain ⟨⟨a, t⟩, hrun, heq⟩ := map_eq_ok.mp he
    obtain ⟨-, rfl⟩ := Prod.mk.inj heq
    have hloop : Page.allocLoop size (chunkMax + 1) (-1) (Page.fresh : State) = .ok .ranOff := by
      simp [Page.allocLoop]
    rw [Alloc.alloc, show (Page.fresh : State).headIdx = -1 from rfl, hloop] at hrun
    split_ifs at hrun
    · exact (ok_pair_inj hrun).2.symm
    · exact (ok_pair_inj hrun).2.symm
  | dealloc addr =>
    rw [exec] at he
    obtain ⟨t, hrun, heq⟩ := map_eq_ok.mp he
    obtain ⟨-, rfl⟩ := Prod.mk.inj heq
    have hloop : Page.deallocLoop addr (chunkMax + 1) (-1) (Page.fresh : State) = .ok none := by
      simp [Page.deallocLoop]
    rw [Alloc.dealloc, show (Page.fresh : State).headIdx = -1 from rfl, hloop, ok_bind] at hrun
    exact (ok_unique mergeChunk_fresh hrun).symm

theorem exec_placed {c : Call} {r : Ret} (hp : Placed tr h) (hc : Checked c h)
    (he : exec c h = .ok (r, h')) : Placed (⟨h, c, r⟩ :: tr) h' := by
  rcases hp with rfl | ⟨b, L, hat, e, hm, hcall⟩
  · by_cases hinit : ∃ a, c = .initAlloc a
    · obtain ⟨a, rfl⟩ := hinit
      obtain ⟨-, rfl⟩ := ok_pair_inj he
      exact Or.inr ⟨a, _, at_initAlloc hc.2, _, List.mem_cons_self, rfl⟩
    · exact Or.inl (exec_fresh (fun a ha => hinit ⟨a, ha⟩) he)
  · have hkeep : (∃ L', At b h' L') → Placed (⟨h, c, r⟩ :: tr) h' := by
      rintro ⟨L', hat'⟩
      exact Or.inr ⟨b, L', hat', e, List.mem_cons_of_mem _ hm, hcall⟩
    cases c with
    | initAlloc a => exact absurd hc.1 hat.not_fresh
    | cleanup res junk => exact Or.inl (ok_pair_inj he).2.symm
    | alloc size junk => exact hkeep (hat.exec_alloc hc he)
    | dealloc addr => exact hkeep (hat.exec_dealloc he)

theorem checkedRun_placed (hr : Run exec Checked (· = Page.fresh) tr h) : Placed tr h := by
  apply hr.invariant_history Placed
  · exact fun s hs => Or.inl hs
  · intro tr s c r s' hp hc he
    exact exec_placed hp hc he

theorem heapRun_placed (hr : HeapRun tr h) (hinit : h.headIdx ≠ -1) :
    ∃ L, At h.base h L ∧ ∃ e ∈ tr, e.call = .initAlloc h.base := by
  rcases checkedRun_placed (hr.mono fun _ _ => checked_of_admissible) with rfl | ⟨b, L, hat, he⟩
  · exact absurd rfl hinit
  · rw [hat.2.base_eq pageSize_pos]
    exact ⟨L, hat, he⟩

end

/-- In every reachable state `alloc` of a size that some free chunk can hold returns the lowest such
chunk, whose front becomes the block and whose rest stays free. The block lies inside the page that
was mapped and meets no live block. -/
theorem alloc_firstFit {tr : List (Event State Call Ret)} {h : State} {size : ℤ}
    (hr : HeapRun tr h) (hinit : h.headIdx ≠ -1) (hs : ValidSize minAlloc size)
    (hfit : ∃ x ∈ h.segments, x.free = true ∧ size ≤ x.size) :
    ∃ l₁ x l₂ h', h.segments = l₁ ++ x :: l₂ ∧ x.free = true ∧ size ≤ x.size ∧
      (∀ y ∈ h.segments, y.free = true → size ≤ y.size → x.addr ≤ y.addr) ∧
      (∀ junk, alloc size junk h = .ok (x.addr, h')) ∧
      h'.segments = l₁ ++ carve size x ++ l₂ ∧
      (∃ e ∈ tr, e.call = .initAlloc h.base) ∧
      (h.base : ℤ) ≤ x.addr ∧ x.addr + size ≤ h.base + pageSize ∧
      ∀ y ∈ h.segments, y.free = false →
        y.addr + y.size ≤ x.addr ∨ x.addr + size ≤ y.addr := by
  obtain ⟨L, hat, hmap⟩ := heapRun_placed hr hinit
  have htiles := hat.2.tiles_segments
  cases hpl : place size h.segments with
  | none =>
    obtain ⟨x, hx, hxfit⟩ := hfit
    exact absurd hxfit (place_eq_none_iff.mp hpl x hx)
  | some r =>
    obtain ⟨h', L', hrun, -, hseg'⟩ := hat.alloc_of_fit hs hpl
    obtain ⟨l₁, x, l₂, hseg, hfree, hle, ha, hr', hlow, hapart⟩ := htiles.place_eq_some hs.1 hpl
    have hbounds := htiles.bounds_of_mem (s := x) (by simp [hseg])
    refine ⟨l₁, x, l₂, h', hseg, hfree, hle, hlow, fun junk => ?_, ?_, hmap, hbounds.1, by omega,
      hapart⟩
    · rw [hrun, ha]
    · rw [hseg', hr']

/-- The first of two free chunks is too small. -/
theorem alloc_firstFit_second : ∃ h h' : State,
    h.segments = [⟨4096, 8, true⟩, ⟨4104, 16, false⟩, ⟨4120, 4072, true⟩] ∧
    ∃ x : Seg, x.addr = 4120 ∧ ∀ junk, alloc 24 junk h = .ok (x.addr, h') := by
  have h₀ : ∃ tr h, HeapRun tr h ∧ decide (h.headIdx ≠ -1 ∧
      h.segments = [⟨4096, 8, true⟩, ⟨4104, 16, false⟩, ⟨4120, 4072, true⟩]) = true :=
    Run.exists_of_replayCheck [.initAlloc 4096, .alloc 8 0, .alloc 16 0, .dealloc 4096] rfl
      (by decide +kernel)
  obtain ⟨tr, h, hr, hp⟩ := h₀
  obtain ⟨hinit, hseg⟩ := of_decide_eq_true hp
  have hs : ValidSize minAlloc 24 := by decide
  obtain ⟨l₁, x, l₂, h', heq, hfree, hle, -, hrun, -⟩ :=
    alloc_firstFit hr hinit hs (by rw [hseg]; decide)
  have hx : x ∈ h.segments := by simp [heq]
  have haddr : x.addr = 4120 := by
    rw [hseg] at hx
    simp only [List.mem_cons, List.not_mem_nil, or_false] at hx
    rcases hx with rfl | rfl | rfl
    · simp at hle
    · simp at hfree
    · rfl
  exact ⟨h, h', hseg, x, haddr, hrun⟩

/-- In every reachable state `alloc` of a size that no free chunk can hold changes nothing, and
returns `NULL` exactly if the last chunk is smaller than the size; otherwise it returns whatever
`new.addr` happens to hold. -/
theorem alloc_exhausted_iff {tr : List (Event State Call Ret)} {h : State} {size : ℤ}
    (hr : HeapRun tr h) (hinit : h.headIdx ≠ -1) (hs : ValidSize minAlloc size)
    (hno : ∀ x ∈ h.segments, x.free = true → x.size < size) :
    (∀ junk, ∃ a, alloc size junk h = .ok (a, h)) ∧
    ((∀ junk, alloc size junk h = .ok (0, h)) ↔ ∃ x ∈ h.segments.getLast?, x.size < size) := by
  obtain ⟨L, hat, -⟩ := heapRun_placed hr hinit
  have hrun := hat.alloc_of_none hs fun x hx hfit => absurd hfit.2 (not_le.mpr (hno x hx hfit.1))
  refine ⟨fun junk => ⟨_, hrun junk⟩, ?_, ?_⟩
  · intro hnull
    by_contra hlast
    have hone := (hrun 1).symm.trans (hnull 1)
    rw [if_neg hlast] at hone
    exact absurd (ok_pair_inj hone).1 one_ne_zero
  · intro hlast junk
    rw [hrun, if_pos hlast]

/-- A page whose rest is too small for the block. -/
theorem alloc_exhausted_rest : ∃ h : State,
    h.segments = [⟨4096, 4088, false⟩, ⟨8184, 8, true⟩] ∧
      ∀ junk, alloc 16 junk h = .ok (0, h) := by
  have h₀ : ∃ tr h, HeapRun tr h ∧ decide (h.headIdx ≠ -1 ∧
      h.segments = [⟨4096, 4088, false⟩, ⟨8184, 8, true⟩]) = true :=
    Run.exists_of_replayCheck [.initAlloc 4096, .alloc 4088 0] rfl (by decide +kernel)
  obtain ⟨tr, h, hr, hp⟩ := h₀
  obtain ⟨hinit, hseg⟩ := of_decide_eq_true hp
  have hs : ValidSize minAlloc 16 := by decide
  refine ⟨h, hseg, (alloc_exhausted_iff hr hinit hs ?_).2.mpr ?_⟩
  · rw [hseg]
    decide
  · exact ⟨⟨8184, 8, true⟩, by rw [hseg]; rfl, by decide⟩

/-- With the whole page taken the search runs off the list, and `alloc` returns an uninitialised
pointer. -/
theorem alloc_exhausted_junk : ∃ (tr : List (Event State Call Ret)) (h : State), HeapRun tr h ∧
    h.segments = [⟨4096, 4096, false⟩] ∧ ∀ junk, alloc 8 junk h = .ok (junk, h) := by
  have h₀ : ∃ tr h, HeapRun tr h ∧ decide (h.headIdx ≠ -1 ∧
      h.segments = [⟨4096, 4096, false⟩]) = true :=
    Run.exists_of_replayCheck [.initAlloc 4096, .alloc 4096 0] rfl (by decide +kernel)
  obtain ⟨tr, h, hr, hp⟩ := h₀
  obtain ⟨hinit, hseg⟩ := of_decide_eq_true hp
  obtain ⟨L, hat, -⟩ := heapRun_placed hr hinit
  have hs : ValidSize minAlloc 8 := by decide
  have hrun := hat.alloc_of_none hs (by rw [hseg]; decide)
  refine ⟨tr, h, hr, hseg, fun junk => ?_⟩
  rw [hrun, hseg, if_neg]
  simp

end SsuOs.Heap.Alloc
