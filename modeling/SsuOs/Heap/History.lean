import Mathlib.Data.Set.Defs
import SsuOs.Heap.Alloc

/-! The single-page heap forgets its history: the blocks that are allocated determine the chunks,
and with them the answers to all further calls. -/
namespace SsuOs.Heap.Alloc
open SsuOs.Lib Page

def blocks (h : State) : Set (ℕ × ℤ) := { x | ⟨x.1, x.2, false⟩ ∈ h.layout }

/-- The same call on two heaps whose pages lie at `b₁` and `b₂`. -/
inductive SameCall (b₁ b₂ : ℕ) : Call → Call → Prop
  | alloc (size : ℤ) (junk₁ junk₂ : ℕ) : SameCall b₁ b₂ (.alloc size junk₁) (.alloc size junk₂)
  | dealloc (offset : ℤ) :
      SameCall b₁ b₂ (.dealloc (ptrAdd b₁ offset)) (.dealloc (ptrAdd b₂ offset))

/-- The same result, up to the addresses of the pages. -/
inductive SameRet (b₁ b₂ : ℕ) : Ret → Ret → Prop
  | ptr (offset : ℕ) : SameRet b₁ b₂ (.ptr (offset + b₁)) (.ptr (offset + b₂))
  | void : SameRet b₁ b₂ .void .void

/-- An `alloc` that finds a fitting free chunk, or a `dealloc`. -/
def FindsChunk : Call → State → Prop
  | .alloc size _, h => ValidSize minAlloc size ∧ ∃ s ∈ h.segments, s.free = true ∧ size ≤ s.size
  | .dealloc _, _ => True
  | _, _ => False

/-- Every `alloc` of the calls finds a fitting free chunk when its turn comes. -/
def Served : List Call → State → Prop
  | [], _ => True
  | c :: cs, h => FindsChunk c h ∧ ∀ r h', exec c h = .ok (r, h') → Served cs h'

/-- The page of the heap lies at `b` with its chunks at the offsets `L`. -/
def At (b : ℕ) (h : State) (L : List Seg) : Prop :=
  b + pageSize ≤ 2 ^ 64 ∧ h.Laid minAlloc pageSize b L

section

variable {b addr o : ℕ} {h : State} {L L' : List Seg} {size : ℤ}

theorem heapRun_at {tr : List (Event State Call Ret)} (hr : HeapRun tr h)
    (hinit : h.headIdx ≠ -1) : At h.base h h.layout := by
  rcases heapRun_inv hr with rfl | ⟨base, l, -, hb, hw⟩
  · exact absurd rfl hinit
  · rw [At, hw.base_eq pageSize_pos]
    exact ⟨hb, hw.laid pageSize_pos⟩

theorem At.alloc (hat : At b h L) (hs : ValidSize minAlloc size)
    (hpl : place size L = some (o, L')) :
    ∃ h', (∀ junk, alloc size junk h = .ok (o + b, h')) ∧ At b h' L' := by
  obtain ⟨hb, hl⟩ := hat
  obtain ⟨h', hrun, hl'⟩ := hl.allocLoop_some (by decide) (pageSize_eq (by decide))
    (by exact_mod_cast hb) hs.1 hs.2.1 hpl
  refine ⟨h', fun junk => ?_, hb, hl'⟩
  rw [Alloc.alloc, if_neg hs.not_refused, hrun]
  rfl

theorem At.dealloc (hat : At b h L) (ho : Laid.Names b L addr o) :
    ∃ h', dealloc addr h = .ok h' ∧ At b h' (coalesce (release o L)) := by
  obtain ⟨hb, hl⟩ := hat
  rcases hl.deallocLoop pageSize_pos ho with ⟨p₁, p₂, hrun, hm, hl₂, -⟩ | ⟨hrun, -, hrel⟩
  · exact ⟨p₂, by rw [Alloc.dealloc, hrun]; exact hm, hb, hl₂⟩
  · obtain ⟨p', hm, hl'⟩ := hl.mergeChunk pageSize_pos
    refine ⟨p', by rw [Alloc.dealloc, hrun]; exact hm, hb, ?_⟩
    rw [hrel, coalesce_of_separated hl.separated]
    exact hl'

/-- An address given by an offset from the page names the chunk at that offset. -/
theorem At.names_ptrAdd (hat : At b h L) (offset : ℤ) :
    Laid.Names b L (ptrAdd b offset) (offset % 2 ^ 64).toNat := by
  intro s hs
  obtain ⟨hb, hl⟩ := hat
  have hbd := hl.tiles.bounds_of_mem hs
  have hpos := hl.tiles.pos_of_mem hs
  unfold ptrAdd
  unfold pageSize at hb hbd
  omega

/-- What two heaps with the same offsets do with the same call. -/
theorem exec_same {b₁ b₂ : ℕ} {h₁ h₂ : State} {c₁ c₂ : Call} (h₁L : At b₁ h₁ L)
    (h₂L : At b₂ h₂ L) (hc : SameCall b₁ b₂ c₁ c₂) (hf : FindsChunk c₁ h₁) :
    ∃ r₁ r₂ h₁' h₂' L', exec c₁ h₁ = .ok (r₁, h₁') ∧ exec c₂ h₂ = .ok (r₂, h₂') ∧
      SameRet b₁ b₂ r₁ r₂ ∧ At b₁ h₁' L' ∧ At b₂ h₂' L' := by
  cases hc with
  | alloc size junk₁ junk₂ =>
    obtain ⟨hs, s, hsm, hfree, hle⟩ := hf
    rw [h₁L.2.segments_eq] at hsm
    obtain ⟨x, hx, rfl⟩ := List.mem_map.mp hsm
    cases hpl : place size L with
    | none => exact absurd ⟨hfree, hle⟩ (place_eq_none_iff.mp hpl x hx)
    | some y =>
      obtain ⟨h₁', hr₁, hat₁⟩ := h₁L.alloc hs hpl
      obtain ⟨h₂', hr₂, hat₂⟩ := h₂L.alloc hs hpl
      refine ⟨.ptr (y.1 + b₁), .ptr (y.1 + b₂), h₁', h₂', y.2, ?_, ?_, .ptr y.1, hat₁, hat₂⟩
      · rw [exec, hr₁]
        rfl
      · rw [exec, hr₂]
        rfl
  | dealloc offset =>
    obtain ⟨h₁', hr₁, hat₁⟩ := h₁L.dealloc (h₁L.names_ptrAdd offset)
    obtain ⟨h₂', hr₂, hat₂⟩ := h₂L.dealloc (h₂L.names_ptrAdd offset)
    refine ⟨.void, .void, h₁', h₂', _, ?_, ?_, .void, hat₁, hat₂⟩
    · rw [exec, hr₁]
      rfl
    · rw [exec, hr₂]
      rfl

theorem execAll_same {b₁ b₂ : ℕ} {h₁ h₂ : State} {cs₁ cs₂ : List Call} (h₁L : At b₁ h₁ L)
    (h₂L : At b₂ h₂ L) (hcs : List.Forall₂ (SameCall b₁ b₂) cs₁ cs₂) (hs : Served cs₁ h₁) :
    ∃ rs₁ rs₂ h₁' h₂' L', execAll exec cs₁ h₁ = .ok (rs₁, h₁') ∧
      execAll exec cs₂ h₂ = .ok (rs₂, h₂') ∧ List.Forall₂ (SameRet b₁ b₂) rs₁ rs₂ ∧
      At b₁ h₁' L' ∧ At b₂ h₂' L' := by
  induction hcs generalizing h₁ h₂ L with
  | nil => exact ⟨[], [], h₁, h₂, L, rfl, rfl, .nil, h₁L, h₂L⟩
  | cons hc _ ih =>
    obtain ⟨hf, hrest⟩ := hs
    obtain ⟨r₁, r₂, h₁', h₂', L', he₁, he₂, hr, hat₁, hat₂⟩ := exec_same h₁L h₂L hc hf
    obtain ⟨rs₁, rs₂, h₁'', h₂'', L'', hes₁, hes₂, hrs, hat₁', hat₂'⟩ :=
      ih hat₁ hat₂ (hrest _ _ he₁)
    exact ⟨r₁ :: rs₁, r₂ :: rs₂, h₁'', h₂'', L'', execAll_cons he₁ hes₁, execAll_cons he₂ hes₂,
      .cons hr hrs, hat₁', hat₂'⟩

theorem At.dealloc_segments (hat : At b h L) (addr : ℕ) :
    ∃ h' L', Alloc.dealloc addr h = .ok h' ∧ At b h' L' ∧
      h'.segments = coalesce (release addr h.segments) := by
  obtain ⟨o, ho⟩ := hat.2.exists_names addr
  obtain ⟨h', hr, hat'⟩ := hat.dealloc ho
  exact ⟨h', _, hr, hat', hat.2.segments_released ho hat'.2⟩

/-- Releasing blocks one after the other leaves those that are not among the addresses. -/
theorem deallocAll_laid (addrs : List ℕ) (hat : At b h L) :
    ∃ rs h' L', execAll exec (addrs.map .dealloc) h = .ok (rs, h') ∧ At b h' L' ∧
      ∀ x ∈ h'.segments, x.free = false → x ∈ h.segments ∧ x.addr ∉ addrs := by
  induction addrs generalizing h L with
  | nil => exact ⟨[], h, L, rfl, hat, fun x hx _ => ⟨hx, by simp⟩⟩
  | cons a addrs ih =>
    obtain ⟨h', L', hr, hat', hseg⟩ := hat.dealloc_segments a
    obtain ⟨rs, h'', L'', hes, hat'', hmem⟩ := ih hat'
    have he : exec (.dealloc a) h = .ok (.void, h') := by
      rw [exec, hr]
      rfl
    refine ⟨.void :: rs, h'', L'', execAll_cons he hes, hat'', fun x hm hx => ?_⟩
    obtain ⟨hm', hna⟩ := hmem x hm hx
    rw [hseg, hat.2.mem_segments_released hx] at hm'
    refine ⟨hm'.1, ?_⟩
    rw [List.mem_cons, not_or]
    exact ⟨hm'.2, hna⟩

end

/-- Two heaps with the same allocated blocks have the same chunks, answer all further calls at
the same offsets, and are one free chunk again once all blocks have been released. -/
theorem history_independent {tr₁ tr₂ : List (Event State Call Ret)} {h₁ h₂ : State}
    (hr₁ : HeapRun tr₁ h₁) (hr₂ : HeapRun tr₂ h₂) (hi₁ : h₁.headIdx ≠ -1)
    (hi₂ : h₂.headIdx ≠ -1) (hb : blocks h₁ = blocks h₂) :
    h₁.layout = h₂.layout ∧
    (∀ cs₁ cs₂, List.Forall₂ (SameCall h₁.base h₂.base) cs₁ cs₂ → Served cs₁ h₁ →
      ∃ rs₁ rs₂ h₁' h₂', execAll exec cs₁ h₁ = .ok (rs₁, h₁') ∧
        execAll exec cs₂ h₂ = .ok (rs₂, h₂') ∧
        List.Forall₂ (SameRet h₁.base h₂.base) rs₁ rs₂ ∧ h₁'.layout = h₂'.layout) ∧
    ∀ addrs : List ℕ, (∀ s ∈ h₁.segments, s.free = false → s.addr ∈ addrs) →
      ∃ rs h', execAll exec (addrs.map .dealloc) h₁ = .ok (rs, h') ∧
        h'.layout = [⟨0, pageSize, true⟩] := by
  have hat₁ := heapRun_at hr₁ hi₁
  have hat₂ := heapRun_at hr₂ hi₂
  have hl : h₁.layout = h₂.layout := by
    refine hat₁.2.tiles.unique hat₂.2.tiles hat₁.2.separated hat₂.2.separated fun x hx => ?_
    obtain ⟨a, size, free⟩ := x
    obtain rfl : free = false := hx
    change (a, size) ∈ blocks h₁ ↔ (a, size) ∈ blocks h₂
    rw [hb]
  refine ⟨hl, fun cs₁ cs₂ hcs hs => ?_, fun addrs haddrs => ?_⟩
  · rw [← hl] at hat₂
    obtain ⟨rs₁, rs₂, h₁', h₂', L', he₁, he₂, hrs, hat₁', hat₂'⟩ := execAll_same hat₁ hat₂ hcs hs
    refine ⟨rs₁, rs₂, h₁', h₂', he₁, he₂, hrs, ?_⟩
    rw [hat₁'.2.layout_eq pageSize_pos, hat₂'.2.layout_eq pageSize_pos]
  · obtain ⟨rs, h', L', he, hat', hmem⟩ := deallocAll_laid addrs hat₁
    refine ⟨rs, h', he, ?_⟩
    rw [hat'.2.layout_eq pageSize_pos]
    exact hat'.2.eq_free_of_released pageSize_pos hmem haddrs

/-- A heap with one block, and one elsewhere that had a second block before. -/
theorem history_independent_released : ∃ h₁ h₂ : State, blocks h₁ = { (0, 8) } ∧
    h₁.layout = h₂.layout ∧ ∃ rs h', execAll exec [.dealloc 4096] h₁ = .ok (rs, h') ∧
      h'.layout = [⟨0, pageSize, true⟩] := by
  have h₁ : ∃ tr h, HeapRun tr h ∧ decide (h.headIdx ≠ -1 ∧
      h.segments = [⟨4096, 8, false⟩, ⟨4104, 4088, true⟩] ∧
      h.layout = [⟨0, 8, false⟩, ⟨8, 4088, true⟩]) = true :=
    Run.exists_of_replayCheck [.initAlloc 4096, .alloc 8 0] rfl (by decide +kernel)
  have h₂ : ∃ tr h, HeapRun tr h ∧ decide (h.headIdx ≠ -1 ∧
      h.layout = [⟨0, 8, false⟩, ⟨8, 4088, true⟩]) = true :=
    Run.exists_of_replayCheck [.initAlloc 8192, .alloc 8 0, .alloc 16 0, .dealloc 8200] rfl
      (by decide +kernel)
  obtain ⟨tr₁, h₁, hr₁, hp₁⟩ := h₁
  obtain ⟨tr₂, h₂, hr₂, hp₂⟩ := h₂
  obtain ⟨hi₁, hs₁, hl₁⟩ := of_decide_eq_true hp₁
  obtain ⟨hi₂, hl₂⟩ := of_decide_eq_true hp₂
  have hb : blocks h₁ = { (0, 8) } := by
    ext x
    simp [blocks, hl₁, Prod.ext_iff]
  have hb₂ : blocks h₁ = blocks h₂ := by
    rw [blocks, blocks, hl₁, hl₂]
  obtain ⟨hl, -, hfree⟩ := history_independent hr₁ hr₂ hi₁ hi₂ hb₂
  exact ⟨h₁, h₂, hb, hl, hfree [4096] (by simp [hs₁])⟩

end SsuOs.Heap.Alloc
