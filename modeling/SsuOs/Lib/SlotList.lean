import Mathlib.Data.List.Nodup
import Mathlib.Data.Fin.Basic
import Mathlib.Logic.Function.Basic

/-! Doubly linked lists threaded through the slots of an array. Links are integers,
`-1` stands for the missing neighbour. -/
namespace SsuOs.Lib

variable {n : ℕ} {next prev next' prev' : Fin n → ℤ}

/-- Coming from `p`, the links lead from `c` through the slots `l` and on to `c'`, and the slot
left last is `p'`. Every slot passed points back to the one before it. -/
def Linked (next prev : Fin n → ℤ) : ℤ → ℤ → List (Fin n) → ℤ → ℤ → Prop
  | p, c, [], p', c' => p' = p ∧ c' = c
  | p, c, i :: l, p', c' => c = i ∧ prev i = p ∧ Linked next prev i (next i) l p' c'

namespace Linked

theorem append_iff {l₁ l₂ : List (Fin n)} {p c p'' c'' : ℤ} :
    Linked next prev p c (l₁ ++ l₂) p'' c'' ↔
      ∃ p' c', Linked next prev p c l₁ p' c' ∧ Linked next prev p' c' l₂ p'' c'' := by
  induction l₁ generalizing p c with
  | nil =>
    constructor
    · exact fun h => ⟨p, c, ⟨rfl, rfl⟩, h⟩
    · rintro ⟨p', c', ⟨rfl, rfl⟩, h⟩
      exact h
  | cons i l₁ ih =>
    simp only [List.cons_append, Linked, ih]
    constructor
    · rintro ⟨hc, hp, p', c', h₁, h₂⟩
      exact ⟨p', c', ⟨hc, hp, h₁⟩, h₂⟩
    · rintro ⟨p', c', ⟨hc, hp, h₁⟩, h₂⟩
      exact ⟨hc, hp, p', c', h₁, h₂⟩

theorem congr {l : List (Fin n)} {p c p' c' : ℤ} (h : Linked next prev p c l p' c')
    (hn : ∀ i ∈ l, next' i = next i) (hp : ∀ i ∈ l, prev' i = prev i) :
    Linked next' prev' p c l p' c' := by
  induction l generalizing p c with
  | nil => exact h
  | cons i l ih =>
    obtain ⟨hc, hpi, hl⟩ := h
    refine ⟨hc, by rw [hp i (by simp)]; exact hpi, ?_⟩
    rw [hn i (by simp)]
    exact ih hl (fun j hj => hn j (by simp [hj])) (fun j hj => hp j (by simp [hj]))

theorem concat_iff {i : Fin n} {l : List (Fin n)} {p c p' c' : ℤ} :
    Linked next prev p c (l ++ [i]) p' c' ↔
      ∃ q, Linked next prev p c l q i ∧ prev i = q ∧ p' = i ∧ c' = next i := by
  rw [append_iff]
  constructor
  · rintro ⟨q, c₁, h₁, rfl, hq, rfl, rfl⟩
    exact ⟨q, h₁, hq, rfl, rfl⟩
  · rintro ⟨q, h₁, hq, rfl, rfl⟩
    exact ⟨q, i, h₁, rfl, hq, rfl, rfl⟩

theorem insert_front {t x : Fin n} {l : List (Fin n)} {p c p' c' : ℤ}
    (h : Linked next prev p c (t :: l) p' c')
    (hnx : next' x = t) (hpx : prev' x = p) (hpt : prev' t = x)
    (hn : ∀ i ∈ t :: l, next' i = next i) (hp : ∀ i ∈ l, prev' i = prev i) :
    Linked next' prev' p x (x :: t :: l) p' c' := by
  obtain ⟨_, _, hl⟩ := h
  refine ⟨rfl, hpx, hnx, hpt, ?_⟩
  rw [hn t (by simp)]
  exact hl.congr (fun i hi => hn i (by simp [hi])) hp

theorem insert_between {q t x : Fin n} {l₀ l : List (Fin n)} {p c p' c' : ℤ}
    (h : Linked next prev p c (l₀ ++ q :: t :: l) p' c')
    (hnq : next' q = x) (hnx : next' x = t) (hpx : prev' x = q) (hpt : prev' t = x)
    (hn₀ : ∀ i ∈ l₀, next' i = next i) (hp₀ : ∀ i ∈ l₀ ++ [q], prev' i = prev i)
    (hn : ∀ i ∈ t :: l, next' i = next i) (hp : ∀ i ∈ l, prev' i = prev i) :
    Linked next' prev' p c (l₀ ++ q :: x :: t :: l) p' c' := by
  rw [append_iff] at h ⊢
  obtain ⟨q₀, c₀, h₀, hq, hpq, _, _, hl⟩ := h
  refine ⟨q₀, c₀, h₀.congr hn₀ (fun i hi => hp₀ i (by simp [hi])), hq, ?_, hnq, hpx, hnx, hpt, ?_⟩
  · rw [hp₀ q (by simp)]; exact hpq
  · rw [hn t (by simp)]
    exact hl.congr (fun i hi => hn i (by simp [hi])) hp

theorem remove_after {t d : Fin n} {l₀ l : List (Fin n)} {p c p' : ℤ}
    (h : Linked next prev p c (l₀ ++ t :: d :: l) p' (-1))
    (hnt : next' t = next d) (hp₀ : ∀ i ∈ l₀ ++ [t], prev' i = prev i)
    (hn₀ : ∀ i ∈ l₀, next' i = next i) (hn : ∀ i ∈ l, next' i = next i)
    (hhead : ∀ y ∈ l.head?, prev' y = t) (hp : ∀ i ∈ l.tail, prev' i = prev i) :
    ∃ e, Linked next' prev' p c (l₀ ++ t :: l) e (-1) := by
  rw [append_iff] at h
  obtain ⟨q₀, c₀, h₀, ht, hpt, _, _, hl⟩ := h
  have hl₀ : Linked next' prev' p c l₀ q₀ c₀ :=
    h₀.congr hn₀ (fun i hi => hp₀ i (by simp [hi]))
  have hpt' : prev' t = q₀ := by rw [hp₀ t (by simp)]; exact hpt
  cases l with
  | nil =>
    refine ⟨t, append_iff.mpr ⟨q₀, c₀, hl₀, ht, hpt', rfl, ?_⟩⟩
    rw [hnt]
    exact hl.2
  | cons y l =>
    obtain ⟨hdy, _, hl⟩ := hl
    refine ⟨p', append_iff.mpr ⟨q₀, c₀, hl₀, ht, hpt', ?_, hhead y rfl, ?_⟩⟩
    · rw [hnt]; exact hdy
    · rw [hn y (by simp)]
      exact hl.congr (fun i hi => hn i (by simp [hi])) hp

end Linked

end SsuOs.Lib
