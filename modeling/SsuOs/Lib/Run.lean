import Mathlib.Data.List.Basic

/-! Runs of a machine whose calls may fault, and the rules that carry a property
along every run. -/
namespace SsuOs.Lib

variable {σ ι ρ ε : Type*}

/-- A completed call: the state it was issued in, the call itself and its result. -/
structure Event (σ ι ρ : Type*) where
  pre : σ
  call : ι
  ret : ρ

/-- Runs of admissible calls from an initial state, latest event first. A faulting call
completes no event, so it extends no run. -/
inductive Run (exec : ι → σ → Except ε (ρ × σ)) (admissible : ι → σ → Prop) (init : σ → Prop) :
    List (Event σ ι ρ) → σ → Prop
  | start {s : σ} : init s → Run exec admissible init [] s
  | step {tr : List (Event σ ι ρ)} {s s' : σ} {c : ι} {r : ρ} :
      Run exec admissible init tr s → admissible c s → exec c s = .ok (r, s') →
      Run exec admissible init (⟨s, c, r⟩ :: tr) s'

namespace Run

variable {exec : ι → σ → Except ε (ρ × σ)} {admissible : ι → σ → Prop} {init : σ → Prop}
  {tr : List (Event σ ι ρ)} {s : σ}

/-- What holds initially and is kept by every call holds after every run. -/
theorem invariant {I : σ → Prop} (h₀ : ∀ s, init s → I s)
    (hstep : ∀ s c r s', I s → admissible c s → exec c s = .ok (r, s') → I s')
    (h : Run exec admissible init tr s) : I s := by
  induction h with
  | start hi => exact h₀ _ hi
  | step _ ha he ih => exact hstep _ _ _ _ ih ha he

/-- The history may enter the invariant. -/
theorem invariant_history (I : List (Event σ ι ρ) → σ → Prop)
    (h₀ : ∀ s, init s → I [] s)
    (hstep : ∀ tr s c r s', I tr s → admissible c s → exec c s = .ok (r, s') →
      I (⟨s, c, r⟩ :: tr) s')
    (h : Run exec admissible init tr s) : I tr s := by
  induction h with
  | start hi => exact h₀ _ hi
  | step _ ha he ih => exact hstep _ _ _ _ _ ih ha he

theorem mono {admissible' : ι → σ → Prop} (hle : ∀ c s, admissible c s → admissible' c s)
    (h : Run exec admissible init tr s) : Run exec admissible' init tr s := by
  induction h with
  | start hi => exact .start hi
  | step _ ha he ih => exact .step ih (hle _ _ ha) he

theorem of_cons {e : Event σ ι ρ} (h : Run exec admissible init (e :: tr) s) :
    Run exec admissible init tr e.pre ∧ admissible e.call e.pre ∧
      exec e.call e.pre = .ok (e.ret, s) := by
  cases h with
  | step hr ha he => exact ⟨hr, ha, he⟩

theorem of_append {tr' : List (Event σ ι ρ)} (h : Run exec admissible init (tr' ++ tr) s) :
    ∃ s', Run exec admissible init tr s' := by
  induction tr' generalizing s with
  | nil => exact ⟨s, h⟩
  | cons e tr' ih => exact ih h.of_cons.1

theorem admissible_of_mem {e : Event σ ι ρ} (h : Run exec admissible init tr s) (he : e ∈ tr) :
    admissible e.call e.pre := by
  obtain ⟨tr₂, tr₁, rfl⟩ := List.append_of_mem he
  obtain ⟨s', hr⟩ := h.of_append
  exact hr.of_cons.2.1

/-- A run of good calls, with these as the admissible ones. -/
theorem of_good {good : ι → σ → Prop} (h : Run exec admissible init tr s)
    (hgood : ∀ e ∈ tr, good e.call e.pre) : Run exec good init tr s := by
  induction h with
  | start hi => exact .start hi
  | step _ _ he ih =>
    obtain ⟨hc, htr⟩ := List.forall_mem_cons.mp hgood
    exact .step (ih htr) hc he

/-- What holds after an event and is kept by all events behind it holds at the end. -/
theorem since {P : σ → Prop} {e : Event σ ι ρ} {mid : List (Event σ ι ρ)}
    (h : Run exec admissible init (mid ++ e :: tr) s)
    (h₀ : ∀ s', Run exec admissible init tr e.pre → exec e.call e.pre = .ok (e.ret, s') → P s')
    (hstep : ∀ x ∈ mid, ∀ tr' s', Run exec admissible init tr' x.pre → P x.pre →
      exec x.call x.pre = .ok (x.ret, s') → P s') : P s := by
  induction mid generalizing s with
  | nil =>
    obtain ⟨hr, -, he⟩ := h.of_cons
    exact h₀ s hr he
  | cons x mid ih =>
    obtain ⟨hr, -, he⟩ := h.of_cons
    obtain ⟨hx, hmid⟩ := List.forall_mem_cons.mp hstep
    exact hx _ s hr (ih hr hmid) he

/-- When, from a state with `P`, a call leads to `P` again exactly if it is `good`, a run stays
inside `P` exactly if all its calls are good. -/
theorem forall_iff_good (I P : σ → Prop) (good : ι → σ → Prop) (h₀ : ∀ s, init s → I s ∧ P s)
    (hI : ∀ s c r s', I s → admissible c s → exec c s = .ok (r, s') → I s')
    (hP : ∀ s c r s', I s → P s → admissible c s → exec c s = .ok (r, s') → (P s' ↔ good c s))
    (h : Run exec admissible init tr s) :
    (P s ∧ ∀ e ∈ tr, P e.pre) ↔ ∀ e ∈ tr, good e.call e.pre := by
  induction h with
  | start hi => simpa using (h₀ _ hi).2
  | step hr ha he ih =>
    have hinv := hr.invariant (fun s hs => (h₀ s hs).1) hI
    simp only [List.forall_mem_cons]
    constructor
    · rintro ⟨hs', hs, htr⟩
      exact ⟨(hP _ _ _ _ hinv hs ha he).mp hs', ih.mp ⟨hs, htr⟩⟩
    · rintro ⟨hg, htr⟩
      obtain ⟨hs, hall⟩ := ih.mpr htr
      exact ⟨(hP _ _ _ _ hinv hs ha he).mpr hg, hs, hall⟩

end Run

section Trace

variable {τ : Type*}

/-- What a machine given by its steps can have done from `t₀` on, latest call first. -/
inductive Trace (step : τ → ι → ρ → τ → Prop) (t₀ : τ) : List (ι × ρ) → τ → Prop
  | nil : Trace step t₀ [] t₀
  | cons {l : List (ι × ρ)} {t t' : τ} {c : ι} {r : ρ} :
      Trace step t₀ l t → step t c r t' → Trace step t₀ ((c, r) :: l) t'

variable {exec : ι → σ → Except ε (ρ × σ)} {admissible : ι → σ → Prop} {init : σ → Prop} {t₀ : τ}
  {tr : List (Event σ ι ρ)} {s : σ}

/-- The step under a label; without one nothing changes. -/
def Labelled {κ ρ' : Type*} (step : τ → κ → ρ' → τ → Prop) (t t' : τ) : Option (κ × ρ') → Prop
  | none => t' = t
  | some (c, r) => step t c r t'

/-- When every event of a run, with the label it has, is a step of the abstract machine, the labels
of the run are one of its traces. -/
theorem Run.trace_filterMap {κ ρ' : Type*} {step : τ → κ → ρ' → τ → Prop}
    (label : Event σ ι ρ → Option (κ × ρ')) (I : σ → Prop) (abs : σ → τ)
    (h₀ : ∀ s, init s → I s ∧ abs s = t₀)
    (hI : ∀ s c r s', I s → admissible c s → exec c s = .ok (r, s') → I s')
    (hstep : ∀ s c r s', I s → admissible c s → exec c s = .ok (r, s') →
      Labelled step (abs s) (abs s') (label ⟨s, c, r⟩))
    (h : Run exec admissible init tr s) : Trace step t₀ (tr.filterMap label) (abs s) := by
  induction h with
  | start hi =>
    rw [(h₀ _ hi).2]
    exact .nil
  | @step tr s s' c r hr ha he ih =>
    have hlabel := hstep _ _ _ _ (hr.invariant (fun s hs => (h₀ s hs).1) hI) ha he
    cases hl : label ⟨s, c, r⟩ with
    | none =>
      rw [hl] at hlabel
      rw [List.filterMap_cons_none hl, show abs s' = abs s from hlabel]
      exact ih
    | some kx =>
      rw [hl] at hlabel
      rw [List.filterMap_cons_some hl]
      exact .cons ih hlabel

/-- When every call of a run is a step of the abstract machine, the run is one of its traces. -/
theorem Run.trace {step : τ → ι → ρ → τ → Prop} (I : σ → Prop) (abs : σ → τ)
    (h₀ : ∀ s, init s → I s ∧ abs s = t₀)
    (hI : ∀ s c r s', I s → admissible c s → exec c s = .ok (r, s') → I s')
    (hstep : ∀ s c r s', I s → admissible c s → exec c s = .ok (r, s') →
      step (abs s) c r (abs s'))
    (h : Run exec admissible init tr s) :
    Trace step t₀ (tr.map fun e => (e.call, e.ret)) (abs s) := by
  rw [← List.filterMap_eq_map]
  exact h.trace_filterMap (fun e => some (e.call, e.ret)) I abs h₀ hI hstep

end Trace

section Replay

variable (exec : ι → σ → Except ε (ρ × σ)) (admissible : ι → σ → Prop)
  [∀ c s, Decidable (admissible c s)]

/-- Execute a list of calls behind a run that is already there; `none` when a call is not
admissible or faults. -/
def replay : List ι → List (Event σ ι ρ) → σ → Option (List (Event σ ι ρ) × σ)
  | [], tr, s => some (tr, s)
  | c :: cs, tr, s =>
    if admissible c s then
      match exec c s with
      | .ok (r, s') => replay cs (⟨s, c, r⟩ :: tr) s'
      | .error _ => none
    else none

def replayCheck (cs : List ι) (s : σ) (p : List (Event σ ι ρ) → σ → Bool) : Bool :=
  match replay exec admissible cs [] s with
  | some (tr, s') => p tr s'
  | none => false

variable {exec admissible} {init : σ → Prop}

theorem Run.of_replay {tr tr' : List (Event σ ι ρ)} {s s' : σ} {cs : List ι}
    (h : Run exec admissible init tr s) (hr : replay exec admissible cs tr s = some (tr', s')) :
    Run exec admissible init tr' s' := by
  induction cs generalizing tr s with
  | nil =>
    obtain ⟨rfl, rfl⟩ := Prod.mk.inj (Option.some.inj hr)
    exact h
  | cons c cs ih =>
    unfold replay at hr
    split_ifs at hr with ha
    cases he : exec c s with
    | error e => simp [he] at hr
    | ok p =>
      simp only [he] at hr
      exact ih (h.step ha he) hr

theorem Run.exists_of_replayCheck {s : σ} (cs : List ι) {p : List (Event σ ι ρ) → σ → Bool}
    (h₀ : init s) (h : replayCheck exec admissible cs s p = true) :
    ∃ tr s', Run exec admissible init tr s' ∧ p tr s' = true := by
  unfold replayCheck at h
  split at h
  · rename_i tr s' hr
    exact ⟨tr, s', (Run.start h₀).of_replay hr, h⟩
  · simp at h

end Replay

section ExecAll

variable (exec : ι → σ → Except ε (ρ × σ))

/-- The results of a list of calls and the state behind them. -/
def execAll : List ι → σ → Except ε (List ρ × σ)
  | [], s => .ok ([], s)
  | c :: cs, s => do
    let (r, s) ← exec c s
    let (rs, s) ← execAll cs s
    .ok (r :: rs, s)

variable {exec}

theorem execAll_cons {c : ι} {cs : List ι} {s s' s'' : σ} {r : ρ} {rs : List ρ}
    (h : exec c s = .ok (r, s')) (hs : execAll exec cs s' = .ok (rs, s'')) :
    execAll exec (c :: cs) s = .ok (r :: rs, s'') := by
  simp only [execAll, h, bind, Except.bind, hs]

theorem execAll_concat {c : ι} {cs : List ι} {s s' s'' : σ} {r : ρ} {rs : List ρ}
    (hs : execAll exec cs s = .ok (rs, s')) (h : exec c s' = .ok (r, s'')) :
    execAll exec (cs ++ [c]) s = .ok (rs ++ [r], s'') := by
  induction cs generalizing s rs with
  | nil =>
    obtain ⟨rfl, rfl⟩ := Prod.mk.inj (Except.ok.inj hs)
    exact execAll_cons h rfl
  | cons d cs ih =>
    simp only [execAll, bind, Except.bind] at hs
    split at hs
    · simp at hs
    · rename_i x hx
      split at hs
      · simp at hs
      · rename_i y hy
        obtain ⟨rfl, rfl⟩ := Prod.mk.inj (Except.ok.inj hs)
        exact execAll_cons hx (ih hy)

end ExecAll

end SsuOs.Lib
