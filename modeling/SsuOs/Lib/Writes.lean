import Mathlib.Data.List.Basic
import Mathlib.Logic.Function.Basic

/-! Writing a list of addressed values into a store, one after the other, as a redo log does. -/
namespace SsuOs.Lib

variable {α β : Type*} [DecidableEq α]

def applyWrites (ws : List (α × β)) (d : α → β) : α → β :=
  ws.foldl (fun d w => Function.update d w.1 w.2) d

@[simp] theorem applyWrites_nil (d : α → β) : applyWrites [] d = d := rfl

theorem applyWrites_cons (w : α × β) (ws : List (α × β)) (d : α → β) :
    applyWrites (w :: ws) d = applyWrites ws (Function.update d w.1 w.2) := rfl

theorem applyWrites_concat (w : α × β) (ws : List (α × β)) (d : α → β) :
    applyWrites (ws ++ [w]) d = Function.update (applyWrites ws d) w.1 w.2 := by
  simp [applyWrites]

theorem applyWrites_of_notMem {ws : List (α × β)} {a : α} (h : ∀ w ∈ ws, w.1 ≠ a) (d : α → β) :
    applyWrites ws d a = d a := by
  induction ws generalizing d with
  | nil => rfl
  | cons w ws ih =>
    obtain ⟨hw, hws⟩ := List.forall_mem_cons.mp h
    rw [applyWrites_cons, ih hws, Function.update_of_ne hw.symm]

theorem applyWrites_of_mem {ws : List (α × β)} {a : α} (h : ∃ w ∈ ws, w.1 = a) (d d' : α → β) :
    applyWrites ws d a = applyWrites ws d' a := by
  induction ws generalizing d d' with
  | nil => simp at h
  | cons w ws ih =>
    rw [applyWrites_cons, applyWrites_cons]
    by_cases hmem : ∃ w ∈ ws, w.1 = a
    · exact ih hmem _ _
    · push Not at hmem
      obtain ⟨v, hv, hva⟩ := h
      obtain rfl : v = w := (List.mem_cons.mp hv).resolve_right fun hv => hmem v hv hva
      rw [applyWrites_of_notMem hmem, applyWrites_of_notMem hmem, ← hva]
      simp

theorem applyWrites_agree {ws : List (α × β)} {a : α} {d' : α → β} (h : ∃ w ∈ ws, w.1 = a)
    (hd : ∀ w ∈ ws, w.2 = d' w.1) (d : α → β) : applyWrites ws d a = d' a := by
  rw [applyWrites_of_mem h d d']
  clear h
  induction ws with
  | nil => rfl
  | cons w ws ih =>
    obtain ⟨hw, hws⟩ := List.forall_mem_cons.mp hd
    rw [applyWrites_cons, hw, Function.update_eq_self]
    exact ih hws

theorem applyWrites_update {ws : List (α × β)} {a : α} (h : ∃ w ∈ ws, w.1 = a) (d : α → β)
    (v : β) : applyWrites ws (Function.update d a v) = applyWrites ws d := by
  funext b
  by_cases hb : ∃ w ∈ ws, w.1 = b
  · exact applyWrites_of_mem hb _ _
  · push Not at hb
    have hba : b ≠ a := by
      rintro rfl
      obtain ⟨w, hw, hwb⟩ := h
      exact hb w hw hwb
    rw [applyWrites_of_notMem hb, applyWrites_of_notMem hb, Function.update_of_ne hba]

theorem applyWrites_concat_fixed {ws : List (α × β)} {d : α → β} (h : applyWrites ws d = d)
    (a : α) (v : β) :
    applyWrites (ws ++ [(a, v)]) (Function.update d a v) = Function.update d a v := by
  rw [applyWrites_concat]
  by_cases ha : ∃ w ∈ ws, w.1 = a
  · rw [applyWrites_update ha, h]
  · push Not at ha
    funext b
    by_cases hb : b = a
    · simp [hb]
    · rw [Function.update_of_ne hb]
      by_cases hw : ∃ w ∈ ws, w.1 = b
      · rw [applyWrites_of_mem hw _ d, h, Function.update_of_ne hb]
      · push Not at hw
        rw [applyWrites_of_notMem hw]

end SsuOs.Lib
