import Mathlib.Algebra.Order.BigOperators.Group.List
import Mathlib.Data.Fin.VecNotation
import SsuOs.Heap.PageSpec

/-! What `merge_chunk` makes of any linked list of chunks, with the free ones in any order: the 512
slots of `alloc.c` as well as the 16 slots that `ealloc.c` has for a page. -/
namespace SsuOs.Heap
open SsuOs.Lib

namespace Page

variable {n : ℕ} {p p' : Page n} {l l₁ l₂ : List (Fin n)} {rs : List (Stretch (Fin n))}

/-- Each run of free chunks `rs` of `p` has become one chunk of `p'`. -/
structure Coalesced (p : Page n) (l : List (Fin n)) (rs : List (Stretch (Fin n)))
    (p' : Page n) : Prop where
  path : p'.Path (rs.map Stretch.first)
  adjoining : Adjoining (p'.segs (rs.map Stretch.first))
  joined : ∀ r ∈ rs, (p'.chunks r.first).addr = (p.chunks r.first).addr ∧
    (p'.chunks r.first).chunkSize = (r.elems.map fun i => (p.chunks i).chunkSize).sum
  flag : ∀ i, (p'.chunks i).flag = (p.chunks i).flag
  allocated : ∀ i ∈ l, (p.chunks i).flag ≠ 0 → (p'.chunks i).addr = (p.chunks i).addr ∧
    (p'.chunks i).chunkSize = (p.chunks i).chunkSize
  order : (rs.map Stretch.first).filter (!p.isFree ·) = l.filter (!p.isFree ·)
  isUsing : ∀ i, (p'.chunks i).isUsing =
    if i ∈ rs.flatMap Stretch.rest then 0 else (p.chunks i).isUsing
  other : ∀ i ∉ l, p'.chunks i = p.chunks i

/-! ### A list without free neighbours -/

theorem mergeLoop_of_separated {fuel : ℕ} (h : p.Path (l₁ ++ l₂)) (hf : l₂.length + 1 ≤ fuel)
    (hsep : l₂.IsChain fun i j => ¬(p.isFree i = true ∧ p.isFree j = true)) :
    mergeLoop fuel (cursor l₂) p = .ok p := by
  induction l₂ generalizing l₁ fuel with
  | nil =>
    obtain ⟨k, rfl⟩ : ∃ k, fuel = k + 1 := ⟨fuel - 1, by omega⟩
    exact mergeLoop_neg_one k p
  | cons t l₂ ih =>
    cases l₂ with
    | nil =>
      obtain ⟨k, rfl⟩ : ∃ k, fuel = k + 1 + 1 := ⟨fuel - 2, by simp at hf; omega⟩
      exact mergeLoop_last k h
    | cons d l₂ =>
      obtain ⟨k, rfl⟩ : ∃ k, fuel = k + 1 := ⟨fuel - 1, by omega⟩
      have hpath : p.Path ((l₁ ++ [t]) ++ d :: l₂) := by simpa using h
      have hround := mergeLoop_round k h
      rw [if_neg (List.isChain_cons_cons.mp hsep).1] at hround
      exact hround.trans (ih hpath (Nat.le_of_succ_le_succ hf) hsep.tail)

theorem mergeChunk_of_separated (h : p.Path l)
    (hsep : l.IsChain fun i j => ¬(p.isFree i = true ∧ p.isFree j = true)) :
    mergeChunk p = .ok p := by
  have hnil : p.Path ([] ++ l) := h
  rw [mergeChunk, h.headIdx_eq_cursor]
  exact mergeLoop_of_separated hnil (Nat.succ_le_succ h.length_le) hsep

/-! ### Any list -/

theorem segs_eq_stretches {t : Fin n}
    (hsegs : p'.segs ((stretchesFrom p.isFree t l).map Stretch.first) =
      coalesceFrom (p.chunks t).seg (p.segs l)) :
    ∀ r ∈ stretchesFrom p.isFree t l,
      (p'.chunks r.first).seg = r.seg fun i => (p.chunks i).seg := by
  have hmark : ∀ i, (p.chunks i).seg.free = p.isFree i := fun _ => rfl
  have hstretches := coalesceFrom_stretches hmark t l
  rw [segs, List.map_map] at hsegs
  exact List.map_inj_left.mp (hsegs.trans hstretches)

theorem Merged.coalesced (hm : p.Merged [] rs p') (hrs : IsStretches p.isFree l rs)
    (hseg : ∀ r ∈ rs, (p'.chunks r.first).seg = r.seg fun i => (p.chunks i).seg)
    (hadj : Adjoining (p'.segs (rs.map Stretch.first)))
    (hother : ∀ i ∉ l, p'.chunks i = p.chunks i) : Coalesced p l rs p' := by
  have hjoined : ∀ r ∈ rs, (p'.chunks r.first).addr = (p.chunks r.first).addr ∧
      (p'.chunks r.first).chunkSize = (r.elems.map fun i => (p.chunks i).chunkSize).sum :=
    fun r hr => ⟨congrArg Seg.addr (hseg r hr), congrArg Seg.size (hseg r hr)⟩
  refine ⟨hm.path, hadj, hjoined, hm.flag, fun i hi hflag => ?_, hrs.filter_not_mark, hm.isUsing,
    hother⟩
  rw [← hrs.elems, List.mem_flatMap] at hi
  obtain ⟨r, hr, hir⟩ := hi
  -- an allocated chunk is alone in its stretch
  have hnil : r.rest = [] := by
    by_contra hne
    exact hflag (by simpa [isFree] using hrs.marked r hr hne i hir)
  rw [Stretch.elems, hnil, List.mem_singleton] at hir
  rw [hir]
  simpa [Stretch.elems, hnil] using hjoined r hr

/-- Sizes that are not negative add up to no more than the whole list. -/
theorem Coalesced.size_le (hc : Coalesced p l rs p') (hrs : IsStretches p.isFree l rs)
    (hpos : ∀ i ∈ l, 0 ≤ (p.chunks i).chunkSize) :
    ∀ r ∈ rs, (p'.chunks r.first).chunkSize ≤ (l.map fun i => (p.chunks i).chunkSize).sum := by
  intro r hr
  have hsum : ∀ rs' : List (Stretch (Fin n)), (∀ q ∈ rs', q ∈ rs) →
      0 ≤ ((rs'.flatMap Stretch.elems).map fun i => (p.chunks i).chunkSize).sum := by
    intro rs' hsub
    refine List.sum_nonneg fun z hz => ?_
    obtain ⟨i, hi, rfl⟩ := List.mem_map.mp hz
    obtain ⟨q, hq, hiq⟩ := List.mem_flatMap.mp hi
    exact hpos i (hrs.elems ▸ List.mem_flatMap.mpr ⟨q, hsub q hq, hiq⟩)
  obtain ⟨rs₁, rs₂, rfl⟩ := List.append_of_mem hr
  have h₁ := hsum rs₁ fun q hq => by simp [hq]
  have h₂ := hsum rs₂ fun q hq => by simp [hq]
  rw [(hc.joined r hr).2, ← hrs.elems, List.flatMap_append, List.flatMap_cons, List.map_append,
    List.map_append, List.sum_append, List.sum_append]
  omega

/-- `merge_chunk` ends, joins every maximal run of free chunks to one chunk at the address of the
first with their sizes summed up, leaves the allocated chunks alone, gives back exactly the slots
of the chunks it absorbed, and has nothing left to do then. No sum is larger than that of all
chunks, so none leaves `int` on a page. -/
theorem mergeChunk_coalesces (h : p.Path l) (hadj : Adjoining (p.segs l)) :
    ∃ p' rs, mergeChunk p = .ok p' ∧ IsStretches p.isFree l rs ∧ Coalesced p l rs p' ∧
      mergeChunk p' = .ok p' ∧ ((∀ i ∈ l, 0 ≤ (p.chunks i).chunkSize) →
        ∀ r ∈ rs, (p'.chunks r.first).chunkSize ≤ (l.map fun i => (p.chunks i).chunkSize).sum) := by
  cases l with
  | nil =>
    have hsame := mergeChunk_of_separated h .nil
    have hrs : IsStretches p.isFree [] [] := ⟨rfl, by simp, .nil⟩
    exact ⟨p, [], hsame, hrs, ⟨h, .nil, by simp, fun _ => rfl, by simp, rfl, by simp,
      fun _ _ => rfl⟩, hsame, by simp⟩
  | cons t l =>
    obtain ⟨p', hp', hm, hsegs, hother⟩ := mergeChunk_spec h
    have hrs := isStretches_stretchesFrom p.isFree t l
    have hadj' : Adjoining (p'.segs ((stretchesFrom p.isFree t l).map Stretch.first)) := by
      rw [hsegs]
      exact hadj.coalesceFrom
    have hfree : p'.isFree = p.isFree := funext fun i => by rw [isFree, hm.flag]; rfl
    have hc := hm.coalesced hrs (segs_eq_stretches hsegs) hadj' hother
    refine ⟨p', _, hp', hrs, hc, ?_, hc.size_le hrs⟩
    refine mergeChunk_of_separated hm.path ?_
    rw [List.nil_append, List.isChain_map, hfree]
    exact hrs.maximal

/-- Three free chunks in front of an allocated one, in the slots 2, 0, 1 and 3. -/
def freeRun : Page 4 where
  headIdx := 2
  chunks := ![⟨4104, 16, 0, 1, 1, 2⟩, ⟨4120, 8, 0, 1, 3, 0⟩, ⟨4096, 8, 0, 1, 0, -1⟩,
    ⟨4128, 32, 1, 1, -1, 1⟩]

theorem mergeChunk_freeRun : ∃ p' rs, mergeChunk freeRun = .ok p' ∧
    IsStretches freeRun.isFree [2, 0, 1, 3] rs ∧ Coalesced freeRun [2, 0, 1, 3] rs p' ∧
    mergeChunk p' = .ok p' ∧ ∀ r ∈ rs, (p'.chunks r.first).chunkSize ≤ 64 := by
  have hpath : freeRun.Path [2, 0, 1, 3] :=
    ⟨⟨3, rfl, rfl, rfl, rfl, rfl, rfl, rfl, rfl, rfl, rfl⟩, by decide⟩
  have hadj : Adjoining (freeRun.segs [2, 0, 1, 3]) := by
    rw [Adjoining]
    decide
  obtain ⟨p', rs, hrun, hrs, hc, hagain, hsum⟩ := mergeChunk_coalesces hpath hadj
  exact ⟨p', rs, hrun, hrs, hc, hagain, hsum (by decide)⟩

end Page

end SsuOs.Heap
