import Mathlib.Data.List.Nodup
import Mathlib.Logic.Function.Basic

/-! Singly linked lists in memory: `next` gives the successor of a node, `none` is the end. -/
namespace SsuOs.Lib

variable {A : Type*}

/-- The nodes from `start` on are those of the list. -/
inductive Chained (next : A → Option A) : Option A → List A → Prop
  | nil : Chained next none []
  | cons {a : A} {l : List A} : Chained next (next a) l → Chained next (some a) (a :: l)

namespace Chained

variable {next : A → Option A} {start : Option A} {l : List A} {a p q : A}

theorem eq_nil_iff (h : Chained next start l) : start = none ↔ l = [] := by
  cases h <;> simp

theorem head_mem (h : Chained next (some a) l) : a ∈ l := by
  cases h
  exact List.mem_cons_self

theorem of_some (h : Chained next (some a) l) : ∃ l', l = a :: l' ∧ Chained next (next a) l' := by
  cases h with
  | cons h => exact ⟨_, rfl, h⟩

theorem unique {l' : List A} (h : Chained next start l) (h' : Chained next start l') : l = l' := by
  induction h generalizing l' with
  | nil =>
    cases h'
    rfl
  | cons _ ih =>
    cases h' with
    | cons h' => rw [ih h']

theorem of_append {l₁ l₂ : List A} (h : Chained next start (l₁ ++ a :: l₂)) :
    Chained next (some a) (a :: l₂) := by
  induction l₁ generalizing start with
  | nil =>
    cases h with
    | cons h => exact .cons h
  | cons b l₁ ih =>
    cases h with
    | cons h => exact ih h

theorem nodup (h : Chained next start l) : l.Nodup := by
  induction h with
  | nil => exact List.nodup_nil
  | @cons a l h ih =>
    refine List.nodup_cons.mpr ⟨fun ha => ?_, ih⟩
    obtain ⟨l₁, l₂, rfl⟩ := List.append_of_mem ha
    -- The rest of the list behind the second `a` would be the whole list.
    have heq := congrArg List.length (h.of_append.unique (.cons h))
    simp only [List.length_cons, List.length_append] at heq
    omega

theorem congr {next' : A → Option A} (h : Chained next start l)
    (heq : ∀ a ∈ l, next' a = next a) : Chained next' start l := by
  induction h with
  | nil => exact .nil
  | cons _ ih =>
    obtain ⟨ha, hl⟩ := List.forall_mem_cons.mp heq
    exact .cons (ha ▸ ih hl)

theorem next_mem (h : Chained next start l) (hp : p ∈ l) (hq : next p = some q) : q ∈ l := by
  obtain ⟨l₁, l₂, rfl⟩ := List.append_of_mem hp
  have hrest := h.of_append
  cases hrest with
  | cons hrest =>
    rw [hq] at hrest
    exact List.mem_append_right _ (List.mem_cons_of_mem _ hrest.head_mem)

theorem concat [DecidableEq A] (h : Chained next start l) (hp : p ∈ l) (hend : next p = none)
    (ha : a ∉ l) (hnext : next a = none) :
    Chained (Function.update next p (some a)) start (l ++ [a]) := by
  induction h with
  | nil => cases hp
  | @cons b l h ih =>
    rw [List.mem_cons, not_or] at ha
    by_cases hpb : p = b
    · subst hpb
      obtain rfl : l = [] := h.eq_nil_iff.mp hend
      have hlast : Chained (Function.update next p (some a)) (some a) [a] := by
        apply Chained.cons
        rw [Function.update_of_ne ha.1, hnext]
        exact .nil
      apply Chained.cons
      rw [Function.update_self]
      exact hlast
    · apply Chained.cons
      rw [Function.update_of_ne (Ne.symm hpb)]
      exact ih ((List.mem_cons.mp hp).resolve_left hpb) ha.2

end Chained

end SsuOs.Lib
