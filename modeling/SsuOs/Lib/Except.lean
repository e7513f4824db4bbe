import Mathlib.Data.List.Forall2

/-! Sequencing of computations that may fault. -/
namespace SsuOs.Lib

variable {ε α β : Type}

@[simp] theorem ok_bind (a : α) (f : α → Except ε β) : (Except.ok a >>= f) = f a := rfl

@[simp] theorem map_ok (f : α → β) (a : α) : (Except.ok a : Except ε α).map f = .ok (f a) := rfl

theorem bind_eq_ok {x : Except ε α} {f : α → Except ε β} {b : β} :
    (x >>= f) = .ok b ↔ ∃ a, x = .ok a ∧ f a = .ok b := by
  cases x with
  | error e => simp [bind, Except.bind]
  | ok a => simp

theorem map_eq_ok {x : Except ε α} {f : α → β} {b : β} :
    x.map f = .ok b ↔ ∃ a, x = .ok a ∧ f a = b := by
  cases x with
  | error e => simp [Except.map]
  | ok a => simp

theorem ok_pair_inj {a a' : α} {b b' : β} (h : (.ok (a, b) : Except ε (α × β)) = .ok (a', b')) :
    a = a' ∧ b = b' :=
  Prod.mk.inj (Except.ok.inj h)

theorem ok_unique {x : Except ε α} {a b : α} (h : x = .ok a) (h' : x = .ok b) : a = b :=
  Except.ok.inj (h.symm.trans h')

theorem ok_unique_pair {x : Except ε (α × β)} {a a' : α} {b b' : β} (h : x = .ok (a, b))
    (h' : x = .ok (a', b')) : a = a' ∧ b = b' :=
  ok_pair_inj (h.symm.trans h')

/-- A loop over a list whose body goes through wherever the invariant holds. The invariant
speaks of what is left of the list. -/
theorem foldlM_ok {f : β → α → Except ε β} (inv : List α → β → Prop)
    (step : ∀ a l b, inv (a :: l) b → ∃ b', f b a = .ok b' ∧ inv l b') {l : List α} {b : β}
    (h : inv l b) : ∃ b', l.foldlM f b = .ok b' ∧ inv [] b' := by
  induction l generalizing b with
  | nil => exact ⟨b, rfl, h⟩
  | cons a l ih =>
    obtain ⟨b₁, hb₁, h₁⟩ := step a l b h
    obtain ⟨b', hb', h'⟩ := ih h₁
    exact ⟨b', by rw [List.foldlM_cons, hb₁, ok_bind, hb'], h'⟩

/-- What a loop that goes through has kept. -/
theorem foldlM_inv {f : β → α → Except ε β} (inv : List α → β → Prop)
    (step : ∀ a l b b', inv (a :: l) b → f b a = .ok b' → inv l b') {l : List α} {b b' : β}
    (h : inv l b) (hf : l.foldlM f b = .ok b') : inv [] b' := by
  induction l generalizing b with
  | nil =>
    obtain rfl := Except.ok.inj hf
    exact h
  | cons a l ih =>
    rw [List.foldlM_cons] at hf
    obtain ⟨b₁, hb₁, hf⟩ := bind_eq_ok.mp hf
    exact ih (step a l b b₁ h hb₁) hf

/-- `f` on every element of a list in turn, together with the number of elements behind it. -/
def mapRest (f : ℕ → α → Except ε β) : List α → Except ε (List β)
  | [] => .ok []
  | a :: l => do
    let b ← f l.length a
    let bs ← mapRest f l
    .ok (b :: bs)

theorem mapRest_ok {γ : Type} {f : ℕ → α → Except ε β} {R : α → γ → Prop} {S : β → γ → Prop}
    {l : List α} {xs : List γ} (h : List.Forall₂ R l xs)
    (hf : ∀ k a x, x ∈ xs → R a x → ∃ b, f k a = .ok b ∧ S b x) :
    ∃ bs, mapRest f l = .ok bs ∧ List.Forall₂ S bs xs := by
  induction h with
  | nil => exact ⟨[], rfl, .nil⟩
  | @cons a x l xs ha _ ih =>
    obtain ⟨b, hb, hS⟩ := hf l.length a x List.mem_cons_self ha
    obtain ⟨bs, hbs, hrest⟩ := ih fun k a x hx => hf k a x (List.mem_cons_of_mem _ hx)
    exact ⟨b :: bs, by rw [mapRest, hb, ok_bind, hbs, ok_bind], .cons hS hrest⟩

end SsuOs.Lib
