import Mathlib.Data.Fintype.Card
import SsuOs.Heap.Page
import SsuOs.Lib.Stretches

/-! What the loops over one page do to a well-formed chunk table. -/
namespace SsuOs.Heap
open SsuOs.Lib

theorem slot_coe {n : ℕ} (i : Fin n) : slot n i = .ok i := by
  have h : 0 ≤ (i : ℤ) ∧ (i : ℤ) < n := by omega
  simp [slot, h]

theorem slot_eq_ok {n : ℕ} {k : ℤ} {i : Fin n} (h : slot n k = .ok i) : k = i := by
  unfold slot at h
  split_ifs at h with hk
  obtain rfl := Except.ok.inj h
  dsimp only
  omega

def Mm.seg (c : Mm) : Seg := ⟨c.addr, c.chunkSize, decide (c.flag = 0)⟩

namespace Page

variable {n : ℕ}

def next (p : Page n) (i : Fin n) : ℤ := (p.chunks i).nextIdx

def prev (p : Page n) (i : Fin n) : ℤ := (p.chunks i).prevIdx

def segs (p : Page n) (l : List (Fin n)) : List Seg := l.map fun i => (p.chunks i).seg

/-- The links lead from the head through exactly the slots in use, without a cycle. -/
structure Chain (p : Page n) (l : List (Fin n)) : Prop where
  linked : ∃ e, Linked p.next p.prev (-1) p.headIdx l e (-1)
  nodup : l.Nodup
  isUsing : ∀ i, (p.chunks i).isUsing = if i ∈ l then 1 else 0

/-- The same without a condition on the slots that are marked as used. -/
structure Path (p : Page n) (l : List (Fin n)) : Prop where
  linked : ∃ e, Linked p.next p.prev (-1) p.headIdx l e (-1)
  nodup : l.Nodup

theorem Chain.path {p : Page n} {l : List (Fin n)} (h : p.Chain l) : p.Path l :=
  ⟨h.linked, h.nodup⟩

/-- The chunks tile the `P` bytes at `base` in multiples of `m`. -/
structure Tiled (m P : ℤ) (base : ℕ) (p : Page n) (l : List (Fin n)) : Prop extends Chain p l where
  tiles : Tiles base (p.segs l) (base + P)
  aligned : ∀ s ∈ p.segs l, m ∣ s.size

/-- Between calls no two neighbouring chunks are both free. -/
structure WellFormed (m P : ℤ) (base : ℕ) (p : Page n) (l : List (Fin n)) : Prop
    extends Tiled m P base p l where
  separated : Separated (p.segs l)

theorem segs_append (p : Page n) (l₁ l₂ : List (Fin n)) :
    p.segs (l₁ ++ l₂) = p.segs l₁ ++ p.segs l₂ := List.map_append

theorem segs_cons (p : Page n) (i : Fin n) (l : List (Fin n)) :
    p.segs (i :: l) = (p.chunks i).seg :: p.segs l := rfl

theorem segs_congr {p p' : Page n} {l : List (Fin n)}
    (h : ∀ i ∈ l, (p'.chunks i).seg = (p.chunks i).seg) : p'.segs l = p.segs l :=
  List.map_congr_left h

@[simp] theorem set_headIdx (p : Page n) (i : Fin n) (c : Mm) :
    (p.set i c).headIdx = p.headIdx := rfl

theorem set_chunks (p : Page n) (i j : Fin n) (c : Mm) :
    (p.set i c).chunks j = if j = i then c else p.chunks j := by
  simp [set, Function.update_apply]

theorem Path.next_eq {p : Page n} {l₁ l₂ : List (Fin n)} {t : Fin n}
    (h : p.Path (l₁ ++ t :: l₂)) :
    (l₂ = [] ∧ (p.chunks t).nextIdx = -1) ∨
      ∃ y l₂', l₂ = y :: l₂' ∧ (p.chunks t).nextIdx = y := by
  obtain ⟨e, he⟩ := h.linked
  obtain ⟨_, _, _, _, _, hl⟩ := Linked.append_iff.mp he
  cases l₂ with
  | nil => exact Or.inl ⟨rfl, hl.2.symm⟩
  | cons y l₂' => exact Or.inr ⟨y, l₂', rfl, hl.1⟩

theorem Chain.prev_eq {p : Page n} {l₁ l₂ : List (Fin n)} {t : Fin n}
    (h : p.Chain (l₁ ++ t :: l₂)) :
    (l₁ = [] ∧ (p.chunks t).prevIdx = -1) ∨
      ∃ (l₀ : List (Fin n)) (q : Fin n), l₁ = l₀ ++ [q] ∧ (p.chunks t).prevIdx = q := by
  obtain ⟨e, he⟩ := h.linked
  obtain ⟨q, _, h₁, _, hq, _⟩ := Linked.append_iff.mp he
  rcases List.eq_nil_or_concat l₁ with rfl | ⟨l₀, q', rfl⟩
  · exact Or.inl ⟨rfl, hq.trans h₁.1⟩
  · rw [List.concat_eq_append, Linked.concat_iff] at h₁
    obtain ⟨_, _, _, hq', _⟩ := h₁
    exact Or.inr ⟨l₀, q', List.concat_eq_append .., hq.trans hq'⟩

theorem Path.head_eq {p : Page n} {t : Fin n} {l : List (Fin n)} (h : p.Path (t :: l)) :
    p.headIdx = t := by
  obtain ⟨e, he, _⟩ := h.linked
  exact he

theorem Path.length_le {p : Page n} {l : List (Fin n)} (h : p.Path l) : l.length ≤ n := by
  simpa using List.Nodup.length_le_card h.nodup

section Absorb

variable {p : Page n} {l₁ l₂ : List (Fin n)} {t d : Fin n}

theorem absorb_eq (h : p.Path (l₁ ++ t :: d :: l₂)) :
    ∃ p', absorb t d p = .ok p' ∧ p'.headIdx = p.headIdx ∧ ∀ i, p'.chunks i =
      if i = d then { p.chunks d with isUsing := 0 }
      else if i = t then { p.chunks t with
        chunkSize := (p.chunks t).chunkSize + (p.chunks d).chunkSize
        nextIdx := (p.chunks d).nextIdx }
      else if i ∈ l₂.head? then { p.chunks i with prevIdx := t }
      else p.chunks i := by
  have hd : p.Path ((l₁ ++ [t]) ++ d :: l₂) := by simpa using h
  rcases hd.next_eq with ⟨rfl, hn⟩ | ⟨y, l₂', rfl, hn⟩
  · refine ⟨(p.set t { p.chunks t with
        chunkSize := (p.chunks t).chunkSize + (p.chunks d).chunkSize
        nextIdx := (p.chunks d).nextIdx }).set d { p.chunks d with isUsing := 0 }, ?_, rfl, ?_⟩
    · rw [absorb, if_neg (not_not.mpr hn)]
      rfl
    · intro i
      simp [set_chunks]
  · refine ⟨((p.set y { p.chunks y with prevIdx := t }).set t { p.chunks t with
        chunkSize := (p.chunks t).chunkSize + (p.chunks d).chunkSize
        nextIdx := (p.chunks d).nextIdx }).set d { p.chunks d with isUsing := 0 }, ?_, rfl, ?_⟩
    · have hs : slot n (p.chunks d).nextIdx = .ok y := by rw [hn, slot_coe]
      rw [absorb, if_pos (by omega), hs]
      rfl
    · intro i
      by_cases hy : i = y
      · subst hy; simp [set_chunks]
      · simp [set_chunks, hy, Ne.symm hy]

/-- Absorbing a neighbour unlinks and frees its slot and moves no other chunk. -/
theorem absorb_spec (h : p.Path (l₁ ++ t :: d :: l₂)) :
    ∃ p', absorb t d p = .ok p' ∧ p'.Path (l₁ ++ t :: l₂) ∧ p'.headIdx = p.headIdx ∧
      p'.segs l₁ = p.segs l₁ ∧ p'.segs l₂ = p.segs l₂ ∧
      (p'.chunks t).seg = { (p.chunks t).seg with
        size := (p.chunks t).seg.size + (p.chunks d).seg.size } ∧
      (∀ i, (p'.chunks i).flag = (p.chunks i).flag ∧
        (p'.chunks i).isUsing = if i = d then 0 else (p.chunks i).isUsing) ∧
      ∀ i, i ∉ l₁ ++ t :: d :: l₂ → p'.chunks i = p.chunks i := by
  obtain ⟨p', hp', hhead, hc⟩ := absorb_eq h
  have hnd := h.nodup
  simp only [List.nodup_append, List.nodup_cons, List.mem_cons, not_or] at hnd
  obtain ⟨_, ⟨⟨htd, htl⟩, hdl, hnd₂⟩, hdisj⟩ := hnd
  have h₁ : ∀ i ∈ l₁, p'.chunks i = p.chunks i := by
    intro i hi
    have hhd : i ∉ l₂.head? := fun hm => hdisj i hi i (by simp [List.mem_of_mem_head? hm]) rfl
    rw [hc, if_neg (hdisj i hi d (by simp)), if_neg (hdisj i hi t (by simp)), if_neg hhd]
  have ht : p'.chunks t = { p.chunks t with
      chunkSize := (p.chunks t).chunkSize + (p.chunks d).chunkSize
      nextIdx := (p.chunks d).nextIdx } := by
    rw [hc, if_neg htd, if_pos rfl]
  have h₂ : ∀ i ∈ l₂, p'.chunks i =
      if i ∈ l₂.head? then { p.chunks i with prevIdx := t } else p.chunks i := by
    intro i hi
    rw [hc, if_neg (fun he : i = d => hdl (he ▸ hi)), if_neg (fun he : i = t => htl (he ▸ hi))]
  refine ⟨p', hp', ⟨?_, ?_⟩, hhead, ?_, ?_, ?_, fun i => ?_, ?_⟩
  · obtain ⟨e, he⟩ := h.linked
    rw [hhead]
    refine he.remove_after ?_ ?_ ?_ ?_ ?_ ?_
    · simp [next, ht]
    · simp only [List.mem_append, List.mem_singleton]
      rintro i (hi | rfl)
      · simp [prev, h₁ i hi]
      · simp [prev, ht]
    · intro i hi
      simp [next, h₁ i hi]
    · intro i hi
      simp only [next, h₂ i hi]
      split_ifs <;> rfl
    · intro y hy
      simp [prev, h₂ y (List.mem_of_mem_head? hy), hy]
    · intro i hi
      have hhd : i ∉ l₂.head? := by
        cases l₂ with
        | nil => simp
        | cons y l =>
          intro hm
          obtain rfl : y = i := by simpa using hm
          exact (List.nodup_cons.mp hnd₂).1 hi
      simp [prev, h₂ i (List.mem_of_mem_tail hi), hhd]
  · have hsub : (l₁ ++ t :: l₂).Sublist (l₁ ++ t :: d :: l₂) := by simp
    exact h.nodup.sublist hsub
  · exact segs_congr fun i hi => by rw [h₁ i hi]
  · refine segs_congr fun i hi => ?_
    rw [h₂ i hi]
    split_ifs <;> rfl
  · rw [ht]; rfl
  · rw [hc]
    split_ifs with hid hit
    · exact ⟨by rw [hid], rfl⟩
    · exact ⟨by rw [hit], by rw [hit]⟩
    · exact ⟨rfl, rfl⟩
    · exact ⟨rfl, rfl⟩
  · intro i hi
    simp only [List.mem_append, List.mem_cons, not_or] at hi
    obtain ⟨_, hit, hid, hil⟩ := hi
    rw [hc, if_neg hid, if_neg hit, if_neg (fun hm => hil (List.mem_of_mem_head? hm))]

end Absorb

section Merge

theorem mergeLoop_neg_one (fuel : ℕ) (p : Page n) : mergeLoop (fuel + 1) (-1) p = .ok p := by
  simp [mergeLoop]

theorem mergeLoop_coe (fuel : ℕ) (t : Fin n) (p : Page n) :
    mergeLoop (fuel + 1) t p =
      if (p.chunks t).flag = 0 ∧ (p.chunks t).nextIdx ≠ -1 then
        slot n (p.chunks t).nextIdx >>= fun d =>
          if (p.chunks d).flag = 0 then absorb t d p >>= mergeLoop fuel t
          else mergeLoop fuel (p.chunks t).nextIdx p
      else mergeLoop fuel (p.chunks t).nextIdx p := by
  have ht : (t : ℤ) ≠ -1 := by omega
  rw [mergeLoop, if_neg ht, slot_coe]
  rfl

def isFree (p : Page n) (i : Fin n) : Bool := decide ((p.chunks i).flag = 0)

section Step

variable {p : Page n} {l₁ l₂ : List (Fin n)} {t d : Fin n}

theorem mergeLoop_last (fuel : ℕ) (h : p.Path (l₁ ++ [t])) :
    mergeLoop (fuel + 1 + 1) t p = .ok p := by
  have hn : (p.chunks t).nextIdx = -1 := by
    rcases h.next_eq with ⟨_, hn⟩ | ⟨_, _, hl, _⟩
    · exact hn
    · simp at hl
  rw [mergeLoop_coe, if_neg (by simp [hn]), hn, mergeLoop_neg_one]

/-- A round at a chunk with a successor: two free chunks are joined and the first of them is looked
at again, otherwise the loop moves on. -/
theorem mergeLoop_round (fuel : ℕ) (h : p.Path (l₁ ++ t :: d :: l₂)) :
    mergeLoop (fuel + 1) t p =
      if p.isFree t = true ∧ p.isFree d = true then absorb t d p >>= mergeLoop fuel t
      else mergeLoop fuel d p := by
  have hn : (p.chunks t).nextIdx = d := by
    rcases h.next_eq with ⟨hl, _⟩ | ⟨y, _, hl, hn⟩
    · simp at hl
    · rw [hn, (List.cons.inj hl).1]
  have hd : (d : ℤ) ≠ -1 := by omega
  rw [mergeLoop_coe, hn, slot_coe]
  by_cases ht : (p.chunks t).flag = 0
  · rw [if_pos ⟨ht, hd⟩]
    simp [isFree, ht, bind, Except.bind]
  · rw [if_neg fun hh => ht hh.1, if_neg (by simp [isFree, ht])]

end Step

/-- The slots of the first chunk of every stretch are left, behind the slots `l₁`; the others are
given back. -/
structure Merged (p : Page n) (l₁ : List (Fin n)) (rs : List (Stretch (Fin n))) (p' : Page n) :
    Prop where
  path : p'.Path (l₁ ++ rs.map Stretch.first)
  headIdx : p'.headIdx = p.headIdx
  front : p'.segs l₁ = p.segs l₁
  flag : ∀ i, (p'.chunks i).flag = (p.chunks i).flag
  isUsing : ∀ i, (p'.chunks i).isUsing =
    if i ∈ rs.flatMap Stretch.rest then 0 else (p.chunks i).isUsing

/-- From the chunk `t` on, the loop coalesces the rest of the list into it and behind it. -/
theorem mergeLoop_spec {p : Page n} {l₁ l₂ : List (Fin n)} {t : Fin n} {fuel : ℕ}
    (h : p.Path (l₁ ++ t :: l₂)) (hf : l₂.length + 2 ≤ fuel) :
    ∃ p', mergeLoop fuel t p = .ok p' ∧ p.Merged l₁ (stretchesFrom p.isFree t l₂) p' ∧
      p'.segs ((stretchesFrom p.isFree t l₂).map Stretch.first) =
        coalesceFrom (p.chunks t).seg (p.segs l₂) ∧
      ∀ i, i ∉ l₁ ++ t :: l₂ → p'.chunks i = p.chunks i := by
  induction l₂ generalizing p l₁ t fuel with
  | nil =>
    obtain ⟨k, rfl⟩ : ∃ k, fuel = k + 1 + 1 := ⟨fuel - 2, by simp at hf; omega⟩
    exact ⟨p, mergeLoop_last k h, ⟨h, rfl, rfl, fun _ => rfl, fun _ => rfl⟩, rfl, fun _ _ => rfl⟩
  | cons d l₂ ih =>
    obtain ⟨k, rfl⟩ : ∃ k, fuel = k + 1 := ⟨fuel - 1, by omega⟩
    have hk : l₂.length + 2 ≤ k := by simp only [List.length_cons] at hf; omega
    have hseg : ((p.chunks t).seg.free = true ∧ (p.chunks d).seg.free = true) ↔
        p.isFree t = true ∧ p.isFree d = true := Iff.rfl
    rw [mergeLoop_round k h, segs_cons, coalesceFrom, stretchesFrom]
    by_cases hfree : p.isFree t = true ∧ p.isFree d = true
    · -- Both are free: `t` absorbs `d` and the loop looks at `t` again.
      obtain ⟨p₁, hp₁, hpath₁, hh₁, hs₁, hs₂, hst, hslots, hfr₁⟩ := absorb_spec h
      have hmark : p₁.isFree = p.isFree := funext fun i => by rw [isFree, (hslots i).1]; rfl
      obtain ⟨p', hp', hm, hs', hfr'⟩ := ih hpath₁ hk
      obtain ⟨g, rs, hrs⟩ := stretchesFrom_head p.isFree t l₂
      rw [hmark, hrs] at hm hs'
      rw [if_pos hfree, if_pos hfree, if_pos (hseg.mpr hfree), hrs, hp₁]
      refine ⟨p', hp', ⟨hm.path, hm.headIdx.trans hh₁, hm.front.trans hs₁, fun i => ?_,
        fun i => ?_⟩, ?_, fun i hi => ?_⟩
      · rw [hm.flag, (hslots i).1]
      · rw [hm.isUsing, (hslots i).2]
        by_cases hid : i = d
        · simp [hid]
        · simp [hid]
      · rw [← hs₂, ← hst]
        exact hs'
      · have hsub : (l₁ ++ t :: l₂).Sublist (l₁ ++ t :: d :: l₂) := by simp
        rw [hfr' i (fun hm => hi (hsub.subset hm)), hfr₁ i hi]
    · -- Otherwise `t` is done and the loop moves on to `d`.
      have hpath : p.Path ((l₁ ++ [t]) ++ d :: l₂) := by simpa using h
      obtain ⟨p', hp', hm, hs', hfr'⟩ := ih hpath hk
      have hfront := hm.front
      rw [segs_append, segs_append] at hfront
      obtain ⟨hs₁, hst⟩ := List.append_inj' hfront rfl
      rw [if_neg hfree, if_neg hfree, if_neg (hseg.not.mpr hfree)]
      refine ⟨p', hp', ⟨by simpa using hm.path, hm.headIdx, hs₁, hm.flag, hm.isUsing⟩, ?_,
        fun i hi => hfr' i (by simpa using hi)⟩
      rw [← hs', List.map_cons, segs_cons]
      congr 1
      simpa [segs] using hst

theorem mergeChunk_spec {p : Page n} {t : Fin n} {l : List (Fin n)} (h : p.Path (t :: l)) :
    ∃ p', mergeChunk p = .ok p' ∧ p.Merged [] (stretchesFrom p.isFree t l) p' ∧
      p'.segs ((stretchesFrom p.isFree t l).map Stretch.first) =
        coalesceFrom (p.chunks t).seg (p.segs l) ∧
      ∀ i, i ∉ t :: l → p'.chunks i = p.chunks i := by
  have hlen := h.length_le
  have hf : l.length + 2 ≤ n + 1 := by simp only [List.length_cons] at hlen; omega
  have hnil : p.Path ([] ++ t :: l) := h
  obtain ⟨p', hp', hspec⟩ := mergeLoop_spec hnil hf
  exact ⟨p', by rw [mergeChunk, h.head_eq]; exact hp', hspec⟩

theorem Merged.chain {p p' : Page n} {l : List (Fin n)} {rs : List (Stretch (Fin n))}
    (hm : p.Merged [] rs p') (hrs : IsStretches p.isFree l rs) (h : p.Chain l) :
    p'.Chain (rs.map Stretch.first) := by
  refine ⟨hm.path.linked, hm.path.nodup, fun i => ?_⟩
  have hnodup := hrs.perm.nodup_iff.mp h.nodup
  have hdisj := (List.nodup_append.mp hnodup).2.2
  have hmem : i ∈ l ↔ i ∈ rs.map Stretch.first ∨ i ∈ rs.flatMap Stretch.rest := by
    rw [hrs.perm.mem_iff, List.mem_append]
  rw [hm.isUsing, h.isUsing]
  by_cases hfirst : i ∈ rs.map Stretch.first
  · have hrest : i ∉ rs.flatMap Stretch.rest := fun hi => hdisj i hfirst i hi rfl
    rw [if_neg hrest, if_pos (hmem.mpr (.inl hfirst)), if_pos hfirst]
  · rw [if_neg hfirst]
    split_ifs with hrest hl
    · rfl
    · exact absurd (hmem.mp hl) (not_or.mpr ⟨hfirst, hrest⟩)
    · rfl

end Merge

section Split

theorem findNext_spec {p : Page n} {l : List (Fin n)} (h : p.Chain l) (hl : l.length < n) :
    ∃ x : Fin n, p.findNext = x ∧ x ∉ l := by
  obtain ⟨y, hy⟩ : ∃ y : Fin n, y ∉ l := by
    by_contra! hall
    have hsub : (List.finRange n).Subperm l :=
      (List.nodup_finRange n).subperm fun i _ => hall i
    have := hsub.length_le
    simp at this
    omega
  cases hfind : (List.finRange n).find? (fun i => (p.chunks i).isUsing = 0) with
  | none =>
    have := List.find?_eq_none.mp hfind y (List.mem_finRange y)
    simp [h.isUsing, hy] at this
  | some x =>
    refine ⟨x, by rw [findNext, hfind], fun hx => ?_⟩
    have := List.find?_some hfind
    simp [h.isUsing, hx] at this

variable {p : Page n} {l₁ l₂ : List (Fin n)} {t x : Fin n}

theorem splitChunk_eq (size : ℤ) (h : p.Chain (l₁ ++ t :: l₂)) (hx : p.findNext = x) :
    ∃ p', splitChunk size t p = .ok (.found (p.chunks t).addr p') ∧
      p'.headIdx = (if l₁ = [] then (x : ℤ) else p.headIdx) ∧ ∀ i, p'.chunks i =
        if i = x then ⟨(p.chunks t).addr, size, 1, 1, t, (p.chunks t).prevIdx⟩
        else if i = t then { p.chunks t with
          prevIdx := x
          addr := ptrAdd (p.chunks t).addr size
          chunkSize := (p.chunks t).chunkSize - size }
        else if i ∈ l₁.getLast? then { p.chunks i with nextIdx := x }
        else p.chunks i := by
  rcases h.prev_eq with ⟨rfl, hq⟩ | ⟨l₀, q, rfl, hq⟩
  · refine ⟨(({ p with headIdx := x } : Page n).set t { p.chunks t with
        prevIdx := x
        addr := ptrAdd (p.chunks t).addr size
        chunkSize := (p.chunks t).chunkSize - size }).set x
          ⟨(p.chunks t).addr, size, 1, 1, t, (p.chunks t).prevIdx⟩, ?_, rfl, ?_⟩
    · rw [splitChunk, if_neg (not_not.mpr hq), hx, slot_coe]
      rfl
    · intro i
      simp [set_chunks]
  · refine ⟨((p.set q { p.chunks q with nextIdx := x }).set t { p.chunks t with
        prevIdx := x
        addr := ptrAdd (p.chunks t).addr size
        chunkSize := (p.chunks t).chunkSize - size }).set x
          ⟨(p.chunks t).addr, size, 1, 1, t, (p.chunks t).prevIdx⟩, ?_, by simp, ?_⟩
    · have hs : slot n (p.chunks t).prevIdx = .ok q := by rw [hq, slot_coe]
      rw [splitChunk, if_pos (by omega), hs, hx, slot_coe]
      rfl
    · intro i
      by_cases hi : i = q
      · subst hi; simp [set_chunks]
      · simp [set_chunks, hi, Ne.symm hi]

/-- A split links the fresh slot in front of the chunk and moves no other chunk. -/
theorem splitChunk_spec (size : ℤ) (h : p.Chain (l₁ ++ t :: l₂)) (hx : p.findNext = x)
    (hxl : x ∉ l₁ ++ t :: l₂) :
    ∃ p', splitChunk size t p = .ok (.found (p.chunks t).addr p') ∧
      p'.Chain (l₁ ++ x :: t :: l₂) ∧ p'.segs l₁ = p.segs l₁ ∧ p'.segs l₂ = p.segs l₂ ∧
      (p'.chunks x).seg = ⟨(p.chunks t).addr, size, false⟩ ∧
      (p'.chunks t).seg = ⟨ptrAdd (p.chunks t).addr size, (p.chunks t).chunkSize - size,
        (p.chunks t).seg.free⟩ := by
  obtain ⟨p', hp', hhead, hc⟩ := splitChunk_eq size h hx
  have hnd := h.nodup
  simp only [List.nodup_append, List.nodup_cons, List.mem_cons] at hnd
  obtain ⟨hnd₁, ⟨htl, _⟩, hdisj⟩ := hnd
  simp only [List.mem_append, List.mem_cons, not_or] at hxl
  obtain ⟨hx₁, hxt, hx₂⟩ := hxl
  have hx' : p'.chunks x = ⟨(p.chunks t).addr, size, 1, 1, t, (p.chunks t).prevIdx⟩ := by
    rw [hc, if_pos rfl]
  have ht : p'.chunks t = { p.chunks t with
      prevIdx := x
      addr := ptrAdd (p.chunks t).addr size
      chunkSize := (p.chunks t).chunkSize - size } := by
    rw [hc, if_neg (Ne.symm hxt), if_pos rfl]
  have h₁ : ∀ i ∈ l₁, p'.chunks i =
      if i ∈ l₁.getLast? then { p.chunks i with nextIdx := x } else p.chunks i := by
    intro i hi
    rw [hc, if_neg (fun he : i = x => hx₁ (he ▸ hi)), if_neg (hdisj i hi t (by simp))]
  have h₂ : ∀ i ∈ l₂, p'.chunks i = p.chunks i := by
    intro i hi
    have hlast : i ∉ l₁.getLast? := fun hm =>
      hdisj i (List.mem_of_getLast? hm) i (by simp [hi]) rfl
    rw [hc, if_neg (fun he : i = x => hx₂ (he ▸ hi)), if_neg (fun he : i = t => htl (he ▸ hi)),
      if_neg hlast]
  refine ⟨p', hp', ⟨?_, ?_, ?_⟩, ?_, ?_, ?_, ?_⟩
  · obtain ⟨e, he⟩ := h.linked
    refine ⟨e, ?_⟩
    rw [hhead]
    rcases h.prev_eq with ⟨rfl, hq⟩ | ⟨l₀, q, rfl, hq⟩
    · refine Linked.insert_front he ?_ ?_ ?_ ?_ ?_
      · simp [next, hx']
      · simp [prev, hx', hq]
      · simp [prev, ht]
      · simp only [List.mem_cons]
        rintro i (rfl | hi)
        · simp [next, ht]
        · simp [next, h₂ i hi]
      · intro i hi
        simp [prev, h₂ i hi]
    · rw [if_neg (by simp), List.append_assoc]
      rw [List.append_assoc] at he
      refine Linked.insert_between he ?_ ?_ ?_ ?_ ?_ ?_ ?_ ?_
      · simp [next, h₁ q (by simp)]
      · simp [next, hx']
      · simp [prev, hx', hq]
      · simp [prev, ht]
      · intro i hi
        have hiq : q ≠ i := by
          rintro rfl
          exact (List.nodup_append.mp hnd₁).2.2 q hi q (by simp) rfl
        simp [next, h₁ i (by simp [hi]), hiq]
      · intro i hi
        simp only [prev, h₁ i hi]
        split_ifs <;> rfl
      · simp only [List.mem_cons]
        rintro i (rfl | hi)
        · simp [next, ht]
        · simp [next, h₂ i hi]
      · intro i hi
        simp [prev, h₂ i hi]
  · have hperm : (x :: (l₁ ++ t :: l₂)).Perm (l₁ ++ x :: t :: l₂) :=
      List.perm_middle.symm
    refine hperm.nodup (List.nodup_cons.mpr ⟨?_, h.nodup⟩)
    simp [hx₁, hxt, hx₂]
  · intro i
    have hu := h.isUsing i
    rw [hc, apply_ite Mm.isUsing, apply_ite Mm.isUsing, apply_ite Mm.isUsing]
    by_cases hix : i = x
    · simp [hix]
    · have hmem : i ∈ l₁ ++ x :: t :: l₂ ↔ i ∈ l₁ ++ t :: l₂ := by simp [hix]
      rw [if_neg hix, ite_self, if_congr hmem rfl rfl, ← hu]
      split_ifs with hit
      · rw [hit]
      · rfl
  · refine segs_congr fun i hi => ?_
    rw [h₁ i hi]
    split_ifs <;> rfl
  · exact segs_congr fun i hi => by rw [h₂ i hi]
  · rw [hx']; rfl
  · rw [ht]; rfl

end Split

section Search

/-- A free chunk of at least `size` bytes. -/
def Fits (size : ℤ) (c : Mm) : Prop := size ≤ c.chunkSize ∧ c.flag = 0

/-- The index under which a loop continues with the slots `l`. -/
def cursor : List (Fin n) → ℤ
  | [] => -1
  | t :: _ => t

variable {p : Page n} {l₁ l₂ : List (Fin n)} {t : Fin n}

theorem Path.next_eq_cursor (h : p.Path (l₁ ++ t :: l₂)) :
    (p.chunks t).nextIdx = cursor l₂ := by
  rcases h.next_eq with ⟨rfl, hn⟩ | ⟨y, l, rfl, hn⟩ <;> exact hn

theorem Path.headIdx_eq_cursor {l : List (Fin n)} (h : p.Path l) : p.headIdx = cursor l := by
  cases l with
  | nil => obtain ⟨_, he⟩ := h.linked; exact he.2.symm
  | cons t l => exact h.head_eq

theorem Chain.set_flag {l : List (Fin n)} (h : p.Chain l) (t : Fin n) (f : ℤ) :
    (p.set t { p.chunks t with flag := f }).Chain l := by
  have hc : ∀ i, ((p.set t { p.chunks t with flag := f }).chunks i) =
      { p.chunks i with flag := if i = t then f else (p.chunks i).flag } := by
    intro i
    rw [set_chunks]
    split_ifs with hi
    · rw [hi]
    · rfl
  obtain ⟨e, he⟩ := h.linked
  refine ⟨⟨e, he.congr (fun i _ => ?_) (fun i _ => ?_)⟩, h.nodup, fun i => ?_⟩
  · simp [next, hc]
  · simp [prev, hc]
  · rw [hc]; exact h.isUsing i

/-- The search takes the first chunk that fits, or leaves the page with a verdict that only
depends on the size of the last chunk. -/
theorem allocLoop_spec (size : ℤ) (fuel : ℕ) (h : p.Chain (l₁ ++ l₂))
    (hf : l₂.length + 1 ≤ fuel) :
    (∃ la t lb, l₂ = la ++ t :: lb ∧ (∀ i ∈ la, ¬Fits size (p.chunks i)) ∧
      Fits size (p.chunks t) ∧ allocLoop size fuel (cursor l₂) p =
        if (p.chunks t).chunkSize = size then
          .ok (.found (p.chunks t).addr (p.set t { p.chunks t with flag := 1 }))
        else splitChunk size t p) ∨
    ((∀ i ∈ l₂, ¬Fits size (p.chunks i)) ∧ allocLoop size fuel (cursor l₂) p =
      .ok (if ∃ t ∈ l₂.getLast?, (p.chunks t).chunkSize < size then .lastTooSmall
        else .ranOff)) := by
  induction l₂ generalizing l₁ fuel with
  | nil =>
    obtain ⟨k, rfl⟩ : ∃ k, fuel = k + 1 := ⟨fuel - 1, by omega⟩
    exact Or.inr ⟨by simp, by simp [cursor, allocLoop]⟩
  | cons t l₂ ih =>
    obtain ⟨k, rfl⟩ : ∃ k, fuel = k + 1 := ⟨fuel - 1, by omega⟩
    have hk : l₂.length + 1 ≤ k := by simp only [List.length_cons] at hf; omega
    have ht : (t : ℤ) ≠ -1 := by omega
    have hn := h.path.next_eq_cursor
    have hstep : allocLoop size (k + 1) (cursor (t :: l₂)) p =
        if (p.chunks t).nextIdx = -1 ∧ (p.chunks t).chunkSize < size then .ok .lastTooSmall
        else if (p.chunks t).chunkSize ≥ size ∧ (p.chunks t).flag = 0 then
          if (p.chunks t).chunkSize = size then
            .ok (.found (p.chunks t).addr (p.set t { p.chunks t with flag := 1 }))
          else splitChunk size t p
        else allocLoop size k (p.chunks t).nextIdx p := by
      change allocLoop size (k + 1) t p = _
      rw [allocLoop, if_neg ht, slot_coe]
      rfl
    rw [hstep]
    by_cases hlast : (p.chunks t).nextIdx = -1 ∧ (p.chunks t).chunkSize < size
    · have hl₂ : l₂ = [] := by
        cases l₂ with
        | nil => rfl
        | cons y l =>
          have hy : (p.chunks t).nextIdx = y := hn
          omega
      subst hl₂
      refine Or.inr ⟨?_, by rw [if_pos hlast]; simp [hlast.2]⟩
      simp only [List.mem_singleton, forall_eq]
      exact fun hfit => absurd hfit.1 (not_le.mpr hlast.2)
    rw [if_neg hlast]
    by_cases hfit : (p.chunks t).chunkSize ≥ size ∧ (p.chunks t).flag = 0
    · exact Or.inl ⟨[], t, l₂, rfl, by simp, hfit, by rw [if_pos hfit]⟩
    rw [if_neg hfit, hn]
    have hc : p.Chain ((l₁ ++ [t]) ++ l₂) := by simpa using h
    rcases ih k hc hk with ⟨la, t', lb, rfl, hla, ht', hrun⟩ | ⟨hno, hrun⟩
    · refine Or.inl ⟨t :: la, t', lb, rfl, ?_, ht', hrun⟩
      exact List.forall_mem_cons.mpr ⟨hfit, hla⟩
    · refine Or.inr ⟨List.forall_mem_cons.mpr ⟨hfit, hno⟩, ?_⟩
      rw [hrun]
      cases l₂ with
      | nil =>
        have hge : ¬(p.chunks t).chunkSize < size := fun hlt => hlast ⟨hn, hlt⟩
        simp [hge]
      | cons y l => simp [List.getLast?_cons_cons]

theorem deallocLoop_spec (addr fuel : ℕ) (h : p.Chain (l₁ ++ l₂))
    (hf : l₂.length + 1 ≤ fuel) :
    (∃ la t lb, l₂ = la ++ t :: lb ∧ (∀ i ∈ la, (p.chunks i).addr ≠ addr) ∧
      (p.chunks t).addr = addr ∧ deallocLoop addr fuel (cursor l₂) p =
        .ok (some (p.set t { p.chunks t with flag := 0 }))) ∨
    ((∀ i ∈ l₂, (p.chunks i).addr ≠ addr) ∧ deallocLoop addr fuel (cursor l₂) p = .ok none) := by
  induction l₂ generalizing l₁ fuel with
  | nil =>
    obtain ⟨k, rfl⟩ : ∃ k, fuel = k + 1 := ⟨fuel - 1, by omega⟩
    exact Or.inr ⟨by simp, by simp [cursor, deallocLoop]⟩
  | cons t l₂ ih =>
    obtain ⟨k, rfl⟩ : ∃ k, fuel = k + 1 := ⟨fuel - 1, by omega⟩
    have hk : l₂.length + 1 ≤ k := by simp only [List.length_cons] at hf; omega
    have ht : (t : ℤ) ≠ -1 := by omega
    have hstep : deallocLoop addr (k + 1) (cursor (t :: l₂)) p =
        if (p.chunks t).addr = addr then .ok (some (p.set t { p.chunks t with flag := 0 }))
        else deallocLoop addr k (p.chunks t).nextIdx p := by
      change deallocLoop addr (k + 1) t p = _
      rw [deallocLoop, if_neg ht, slot_coe]
      rfl
    rw [hstep]
    by_cases ha : (p.chunks t).addr = addr
    · exact Or.inl ⟨[], t, l₂, rfl, by simp, ha, by rw [if_pos ha]⟩
    rw [if_neg ha, h.path.next_eq_cursor]
    have hc : p.Chain ((l₁ ++ [t]) ++ l₂) := by simpa using h
    rcases ih k hc hk with ⟨la, t', lb, rfl, hla, ht', hrun⟩ | ⟨hno, hrun⟩
    · exact Or.inl ⟨t :: la, t', lb, rfl, List.forall_mem_cons.mpr ⟨ha, hla⟩, ht', hrun⟩
    · exact Or.inr ⟨List.forall_mem_cons.mpr ⟨ha, hno⟩, hrun⟩

end Search

end Page

end SsuOs.Heap
