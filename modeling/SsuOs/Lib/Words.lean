import Mathlib.Data.List.Basic

/-! The words of a text: its maximal runs of characters that are not separators. -/
namespace SsuOs.Lib

variable {α : Type} {sep : α → Bool} {s t w : List α} {c : α}

def words (sep : α → Bool) (s : List α) : List (List α) :=
  (s.splitOnP sep).filter (!·.isEmpty)

structure IsWord (sep : α → Bool) (w : List α) : Prop where
  ne_nil : w ≠ []
  not_sep : ∀ c ∈ w, sep c = false

@[simp] theorem words_nil : words sep ([] : List α) = [] := by simp [words]

theorem words_append_cons (hc : sep c = true) :
    words sep (s ++ c :: t) = words sep s ++ words sep t := by
  rw [words, List.splitOnP_append_cons s t hc, List.filter_append, words, words]

theorem words_cons (hc : sep c = true) : words sep (c :: t) = words sep t := by
  simpa using words_append_cons (s := []) (t := t) hc

theorem IsWord.words_eq (h : IsWord sep w) : words sep w = [w] := by
  rw [words, List.splitOnP_eq_singleton h.not_sep]
  simp [h.ne_nil]

theorem forall_mem_splitOnP (sep : α → Bool) (s : List α) :
    ∀ w ∈ s.splitOnP sep, w.Sublist s ∧ ∀ c ∈ w, sep c = false := by
  induction s with
  | nil => simp
  | cons a s ih =>
    obtain ⟨u, us, hus⟩ := List.exists_cons_of_ne_nil (List.splitOnP_ne_nil sep s)
    rw [List.splitOnP_cons_eq_if_modifyHead, hus]
    rw [hus, List.forall_mem_cons] at ih
    obtain ⟨hu, ih⟩ := ih
    split_ifs with ha
    · rw [List.forall_mem_cons, List.forall_mem_cons]
      exact ⟨by simp, ⟨hu.1.cons a, hu.2⟩, fun w hw => ⟨(ih w hw).1.cons a, (ih w hw).2⟩⟩
    · rw [List.modifyHead_cons, List.forall_mem_cons, List.forall_mem_cons]
      exact ⟨⟨hu.1.cons_cons a, by simpa using ha, hu.2⟩,
        fun w hw => ⟨(ih w hw).1.cons a, (ih w hw).2⟩⟩

theorem isWord_of_mem_words (h : w ∈ words sep s) : IsWord sep w := by
  obtain ⟨hw, hne⟩ := List.mem_filter.mp h
  exact ⟨by simpa using hne, (forall_mem_splitOnP sep s w hw).2⟩

/-- A text that begins with a word has a word that begins so. -/
theorem IsWord.exists_isPrefix (h : IsWord sep w) (s : List α) :
    ∃ u ∈ words sep (w ++ s), w <+: u := by
  induction s generalizing w with
  | nil => exact ⟨w, by rw [List.append_nil, h.words_eq]; simp, List.prefix_rfl⟩
  | cons c s ih =>
    cases hc : sep c with
    | true => exact ⟨w, by rw [words_append_cons hc, h.words_eq]; simp, List.prefix_rfl⟩
    | false =>
      have hwc : IsWord sep (w ++ [c]) := by
        refine ⟨by simp, fun a ha => ?_⟩
        rcases List.mem_append.mp ha with ha | ha
        · exact h.not_sep a ha
        · rwa [List.mem_singleton.mp ha]
      obtain ⟨u, hu, hp⟩ := ih hwc
      rw [List.append_assoc, List.singleton_append] at hu
      exact ⟨u, hu, (List.prefix_append w [c]).trans hp⟩

/-- Words written one after the other, each with a separator behind it, are read back. -/
theorem words_flatMap {ws : List (List α)} (hc : sep c = true) (h : ∀ w ∈ ws, IsWord sep w) :
    words sep (ws.flatMap (· ++ [c])) = ws := by
  induction ws with
  | nil => simp
  | cons w ws ih =>
    have hw : IsWord sep w := h w List.mem_cons_self
    rw [List.flatMap_cons, List.append_assoc, List.singleton_append, words_append_cons hc,
      hw.words_eq, ih fun u hu => h u (List.mem_cons_of_mem w hu), List.singleton_append]

theorem length_splitOn [BEq α] (a : α) (s : List α) :
    (s.splitOn a).length = s.count a + 1 := by
  induction s with
  | nil => simp
  | cons b s ih =>
    rw [List.splitOn_cons_eq_if_modifyHead, List.count_cons]
    split_ifs <;> simp [ih]

/-- A renaming that makes and removes no separator keeps the pieces. -/
theorem splitOn_map [BEq α] [LawfulBEq α] {a : α} {f : α → α} (hf : ∀ x, f x = a ↔ x = a)
    (s : List α) : (s.map f).splitOn a = (s.splitOn a).map (List.map f) := by
  induction s with
  | nil => simp
  | cons x s ih =>
    obtain ⟨u, us, hus⟩ := List.exists_cons_of_ne_nil (List.splitOn_ne_nil a s)
    rw [List.map_cons, List.splitOn_cons_eq_if_modifyHead, List.splitOn_cons_eq_if_modifyHead, ih,
      hus]
    by_cases hx : x = a
    · rw [if_pos (by simp [(hf x).mpr hx]), if_pos (by simpa using hx)]
      simp
    · rw [if_neg (by simpa [hf] using hx), if_neg (by simpa using hx)]
      simp

theorem sublist_of_mem_splitOn [BEq α] {a : α} (hw : w ∈ s.splitOn a) : w.Sublist s := by
  rw [List.splitOn_eq_splitOnP] at hw
  exact (forall_mem_splitOnP _ s w hw).1

section Lines

variable [DecidableEq α] {a : α} {l : List α}

/-- The lines of a text, each of which ends with `a`; the last one may end with the text. -/
def linesOf (a : α) (s : List α) : List (List α) :=
  if (s.splitOn a).getLast? = some [] then (s.splitOn a).dropLast else s.splitOn a

@[simp] theorem linesOf_nil : linesOf a [] = [] := by simp [linesOf]

theorem splitOn_of_notMem (hl : a ∉ l) : l.splitOn a = [l] := by
  rw [List.splitOn_eq_splitOnP]
  apply List.splitOnP_eq_singleton
  intro x hx
  simpa using fun h : x = a => hl (h ▸ hx)

theorem linesOf_of_notMem (hl : a ∉ l) (hne : l ≠ []) : linesOf a l = [l] := by
  unfold linesOf
  rw [splitOn_of_notMem hl, if_neg (by simpa using hne)]

theorem linesOf_append_cons (hl : a ∉ l) (s : List α) :
    linesOf a (l ++ a :: s) = l :: linesOf a s := by
  have hsplit : (l ++ a :: s).splitOn a = l :: s.splitOn a := by
    rw [List.splitOn_eq_splitOnP, List.splitOnP_append_cons l s (by simp),
      ← List.splitOn_eq_splitOnP, ← List.splitOn_eq_splitOnP, splitOn_of_notMem hl,
      List.singleton_append]
  obtain ⟨u, us, hus⟩ := List.exists_cons_of_ne_nil (List.splitOn_ne_nil a s)
  unfold linesOf
  rw [hsplit, hus, List.getLast?_cons_cons, List.dropLast_cons_cons]
  split_ifs
  · rfl
  · rfl

/-- A text is empty, a last line, or a line with the rest of the text behind it. -/
theorem lines_induction {P : List α → Prop} (a : α) (nil : P [])
    (last : ∀ l, a ∉ l → l ≠ [] → P l) (line : ∀ l s, a ∉ l → P s → P (l ++ a :: s))
    (s : List α) : P s := by
  induction hn : s.length using Nat.strongRecOn generalizing s with
  | ind n ih =>
    by_cases ha : a ∈ s
    · obtain ⟨l, t, rfl, hl⟩ := List.eq_append_cons_of_mem ha
      rw [List.length_append, List.length_cons] at hn
      exact line l t hl (ih t.length (by omega) t rfl)
    · by_cases hs : s = []
      · rw [hs]
        exact nil
      · exact last s ha hs

end Lines

end SsuOs.Lib
