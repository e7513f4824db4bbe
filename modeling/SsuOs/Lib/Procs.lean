import Mathlib.Algebra.Ring.Nat
import Mathlib.Tactic.ByContra
import SsuOs.Lib.Except

/-! Systems of processes that take turns. A step of one process changes its own state and the
part all share, and may start new processes. -/
namespace SsuOs.Lib

structure Sys (π γ : Type) where
  procs : List π
  shared : γ

inductive Blocked (ε : Type)
  | noProcess
  | stopped (e : ε)

namespace Sys

variable {π γ ε : Type} {f : γ → π → Except ε (π × List π × γ)} {p : ℕ} {S S' : Sys π γ} {q : π}

def step (f : γ → π → Except ε (π × List π × γ)) (p : ℕ) (S : Sys π γ) :
    Except (Blocked ε) (Sys π γ) :=
  match S.procs[p]? with
  | none => .error .noProcess
  | some q =>
    match f S.shared q with
    | .error e => .error (.stopped e)
    | .ok (q', new, g) => .ok ⟨S.procs.set p q' ++ new, g⟩

theorem step_eq_ok :
    S.step f p = .ok S' ↔ ∃ q q' new g, S.procs[p]? = some q ∧ f S.shared q = .ok (q', new, g) ∧
      S' = ⟨S.procs.set p q' ++ new, g⟩ := by
  unfold step
  cases hq : S.procs[p]? with
  | none => simp
  | some q =>
    cases hf : f S.shared q with
    | error e => simp [hf]
    | ok r =>
      obtain ⟨q', new, g⟩ := r
      simp only [hf, Except.ok.injEq]
      constructor
      · intro h
        exact ⟨q, q', new, g, rfl, hf, h.symm⟩
      · rintro ⟨_, _, _, _, hq', hf', rfl⟩
        cases hq'
        rw [hf] at hf'
        cases hf'
        rfl

def weight (w : π → ℕ) (S : Sys π γ) : ℕ := (S.procs.map w).sum

theorem weight_eq_zero_iff {w : π → ℕ} : S.weight w = 0 ↔ ∀ q ∈ S.procs, w q = 0 := by
  rw [weight, List.sum_eq_zero_iff_forall_eq_nat, List.forall_mem_map]

theorem sum_map_set {l : List π} (w : π → ℕ) (h : l[p]? = some q) (q' : π) :
    ((l.set p q').map w).sum + w q = (l.map w).sum + w q' := by
  induction l generalizing p with
  | nil => simp at h
  | cons x l ih =>
    cases p with
    | zero =>
      obtain rfl : x = q := by simpa using h
      simp only [List.set_cons_zero, List.map_cons, List.sum_cons]
      omega
    | succ p =>
      have := ih (p := p) (by simpa using h)
      simp only [List.set_cons_succ, List.map_cons, List.sum_cons]
      omega

theorem weight_step {w : π → ℕ}
    (hw : ∀ q q' new g, S.procs[p]? = some q → f S.shared q = .ok (q', new, g) →
      w q' + (new.map w).sum + 1 = w q)
    (h : S.step f p = .ok S') : S'.weight w + 1 = S.weight w := by
  obtain ⟨q, q', new, g, hq, hf, rfl⟩ := step_eq_ok.mp h
  have hset := sum_map_set w hq q'
  have hdec := hw q q' new g hq hf
  simp only [weight, List.map_append, List.sum_append]
  omega

theorem exists_step {w : π → ℕ} (hw : ∀ q ∈ S.procs, w q ≠ 0 → ∃ r, f S.shared q = .ok r)
    (h : S.weight w ≠ 0) : ∃ p S', S.step f p = .ok S' := by
  obtain ⟨q, hq, hne⟩ : ∃ q ∈ S.procs, w q ≠ 0 := by
    by_contra! hall
    exact h (weight_eq_zero_iff.mpr hall)
  obtain ⟨⟨q', new, g⟩, hr⟩ := hw q hq hne
  obtain ⟨p, hp⟩ := List.mem_iff_getElem?.mp hq
  exact ⟨p, _, step_eq_ok.mpr ⟨q, q', new, g, hp, hr, rfl⟩⟩

end Sys

end SsuOs.Lib
