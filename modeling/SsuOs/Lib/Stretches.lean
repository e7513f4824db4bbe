import Mathlib.Data.List.Flatten
import Mathlib.Data.List.Nodup
import SsuOs.Lib.Tiling

/-! A list cut into the maximal runs of its marked elements, every other element alone, and what
coalescing makes of them. -/
namespace SsuOs.Lib

variable {α : Type*}

/-- Neighbouring elements of a list. -/
structure Stretch (α : Type*) where
  first : α
  rest : List α

def Stretch.elems (r : Stretch α) : List α := r.first :: r.rest

/-- The maximal runs of marked elements in `a :: l`. -/
def stretchesFrom (mark : α → Bool) (a : α) : List α → List (Stretch α)
  | [] => [⟨a, []⟩]
  | b :: l =>
    if mark a = true ∧ mark b = true then
      (stretchesFrom mark a l).modifyHead fun r => ⟨r.first, b :: r.rest⟩
    else ⟨a, []⟩ :: stretchesFrom mark b l

/-- A stretch of more than one element is marked, and no two neighbours could be joined. -/
structure IsStretches (mark : α → Bool) (l : List α) (rs : List (Stretch α)) : Prop where
  elems : rs.flatMap Stretch.elems = l
  marked : ∀ r ∈ rs, r.rest ≠ [] → ∀ a ∈ r.elems, mark a = true
  maximal : rs.IsChain fun r r' => ¬(mark r.first = true ∧ mark r'.first = true)

theorem stretchesFrom_head (mark : α → Bool) (a : α) (l : List α) :
    ∃ g rs, stretchesFrom mark a l = ⟨a, g⟩ :: rs := by
  induction l generalizing a with
  | nil => exact ⟨[], [], rfl⟩
  | cons b l ih =>
    rw [stretchesFrom]
    split_ifs with hab
    · obtain ⟨g, rs, hrs⟩ := ih a
      exact ⟨b :: g, rs, by rw [hrs]; rfl⟩
    · exact ⟨[], _, rfl⟩

theorem isStretches_stretchesFrom (mark : α → Bool) (a : α) (l : List α) :
    IsStretches mark (a :: l) (stretchesFrom mark a l) := by
  induction l generalizing a with
  | nil => exact ⟨rfl, by simp [stretchesFrom], List.isChain_singleton _⟩
  | cons b l ih =>
    rw [stretchesFrom]
    split_ifs with hab
    · obtain ⟨g, rs, hrs⟩ := stretchesFrom_head mark a l
      have h := ih a
      rw [hrs] at h ⊢
      have helems : a :: (g ++ rs.flatMap Stretch.elems) = a :: l := h.elems
      obtain ⟨hhead, hrest⟩ := List.forall_mem_cons.mp h.marked
      refine ⟨?_, List.forall_mem_cons.mpr ⟨fun _ x hx => ?_, hrest⟩, ?_⟩
      · have hl := (List.cons.inj helems).2
        exact congrArg (a :: b :: ·) hl
      · rcases List.mem_cons.mp hx with rfl | hx
        · exact hab.1
        rcases List.mem_cons.mp hx with rfl | hx
        · exact hab.2
        · exact hhead (List.ne_nil_of_mem hx) x (List.mem_cons_of_mem _ hx)
      · rw [List.modifyHead_cons]
        refine List.IsChain.imp_head ?_ h.maximal
        exact fun hmax => hmax
    · have h := ih b
      refine ⟨congrArg (a :: ·) h.elems, List.forall_mem_cons.mpr ⟨by simp, h.marked⟩, ?_⟩
      obtain ⟨g, rs, hrs⟩ := stretchesFrom_head mark b l
      rw [hrs] at h ⊢
      exact List.isChain_cons_cons.mpr ⟨hab, h.maximal⟩

namespace IsStretches

variable {mark : α → Bool} {l : List α} {rs : List (Stretch α)}

theorem perm (h : IsStretches mark l rs) :
    l.Perm (rs.map Stretch.first ++ rs.flatMap Stretch.rest) := by
  rw [← h.elems]
  clear h
  induction rs with
  | nil => exact .nil
  | cons r rs ih =>
    refine List.Perm.cons r.first ?_
    exact (ih.append_left r.rest).trans (List.perm_append_comm_assoc _ _ _)

theorem filter_not_mark (h : IsStretches mark l rs) :
    (rs.map Stretch.first).filter (!mark ·) = l.filter (!mark ·) := by
  obtain ⟨rfl, hmarked, -⟩ := h
  induction rs with
  | nil => rfl
  | cons r rs ih =>
    obtain ⟨hr, hrs⟩ := List.forall_mem_cons.mp hmarked
    have helems : [r.first].filter (!mark ·) = r.elems.filter (!mark ·) := by
      by_cases hnil : r.rest = []
      · rw [Stretch.elems, hnil]
      · have hfirst := hr hnil r.first List.mem_cons_self
        rw [List.filter_eq_nil_iff.mpr (by simpa using hfirst),
          List.filter_eq_nil_iff.mpr fun a ha => by simp [hr hnil a ha]]
    have hcons : (r :: rs).map Stretch.first = [r.first] ++ rs.map Stretch.first := rfl
    rw [hcons, List.filter_append, helems, ih hrs, List.flatMap_cons, List.filter_append]

end IsStretches

/-! ### Coalescing -/

/-- The segment that the segments of a stretch make together. -/
def Stretch.seg (f : α → Seg) (r : Stretch α) : Seg :=
  { f r.first with size := (r.elems.map fun a => (f a).size).sum }

/-- Coalescing joins the free segments of every stretch, here from a segment `cur` on that may have
grown before. -/
theorem coalesceFrom_eq_map {f : α → Seg} {mark : α → Bool} (hmark : ∀ a, (f a).free = mark a)
    {cur : Seg} {a : α} (hcur : cur.free = mark a) (l : List α) :
    ∃ g rs, stretchesFrom mark a l = ⟨a, g⟩ :: rs ∧
      coalesceFrom cur (l.map f) = { cur with
        size := cur.size + (g.map fun b => (f b).size).sum } :: rs.map (Stretch.seg f) := by
  induction l generalizing cur a with
  | nil => exact ⟨[], [], rfl, by simp [coalesceFrom]⟩
  | cons b l ih =>
    have hfree : (cur.free = true ∧ (f b).free = true) ↔ mark a = true ∧ mark b = true := by
      rw [hcur, hmark]
    rw [stretchesFrom, List.map_cons, coalesceFrom]
    by_cases hab : mark a = true ∧ mark b = true
    · rw [if_pos hab, if_pos (hfree.mpr hab)]
      have hgrown : ({ cur with size := cur.size + (f b).size } : Seg).free = mark a := hcur
      obtain ⟨g, rs, hrs, hseg⟩ := ih hgrown
      refine ⟨b :: g, rs, by rw [hrs]; rfl, ?_⟩
      rw [hseg, List.map_cons, List.sum_cons, ← add_assoc]
    · rw [if_neg hab, if_neg (hfree.not.mpr hab)]
      obtain ⟨g, rs, hrs, hseg⟩ := ih (hmark b)
      exact ⟨[], ⟨b, g⟩ :: rs, by rw [hrs], by rw [hseg]; simp [Stretch.seg, Stretch.elems]⟩

theorem coalesceFrom_stretches {f : α → Seg} {mark : α → Bool}
    (hmark : ∀ a, (f a).free = mark a) (a : α) (l : List α) :
    coalesceFrom (f a) (l.map f) = (stretchesFrom mark a l).map (Stretch.seg f) := by
  obtain ⟨g, rs, hrs, hseg⟩ := coalesceFrom_eq_map hmark (hmark a) l
  rw [hrs, hseg]
  rfl

/-- Every segment ends where the next one starts. -/
def Adjoining (l : List Seg) : Prop := l.IsChain fun s t => (t.addr : ℤ) = s.addr + s.size

theorem Adjoining.coalesceFrom {cur : Seg} {r : List Seg} (h : Adjoining (cur :: r)) :
    Adjoining (coalesceFrom cur r) := by
  induction r generalizing cur with
  | nil => exact h
  | cons s r ih =>
    obtain ⟨hcur, hs⟩ := List.isChain_cons_cons.mp h
    rw [Lib.coalesceFrom]
    split_ifs with hfree
    · refine ih (List.IsChain.imp_head (fun {t} ht => ?_) hs)
      rw [ht, hcur, add_assoc]
    · obtain ⟨t, r', ht, haddr, -⟩ := coalesceFrom_head s r
      have hrest := ih hs
      rw [ht] at hrest ⊢
      exact List.isChain_cons_cons.mpr ⟨by rw [haddr, hcur], hrest⟩

end SsuOs.Lib
