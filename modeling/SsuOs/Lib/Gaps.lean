import SsuOs.Lib.FirstFit

/-! The free segments of a separated tiling are the maximal gaps between the allocated ones. -/
namespace SsuOs.Lib

variable {l l₁ l₂ : List Seg} {s x : Seg} {lo hi p q : ℤ}

/-- The addresses `[p, q)` of the range meet no allocated segment. -/
def Gap (lo hi : ℤ) (l : List Seg) (p q : ℤ) : Prop :=
  lo ≤ p ∧ p < q ∧ q ≤ hi ∧ ∀ x ∈ l, x.free = false → x.addr + x.size ≤ p ∨ q ≤ x.addr

/-- A gap that lies in no larger one. -/
def MaximalGap (lo hi : ℤ) (l : List Seg) (p q : ℤ) : Prop :=
  Gap lo hi l p q ∧ ∀ p' q', Gap lo hi l p' q' → p' ≤ p → q ≤ q' → p' = p ∧ q' = q

theorem Gap.union {p' q' : ℤ} (hpos : ∀ x ∈ l, 0 < x.size) (h : Gap lo hi l p q)
    (h' : Gap lo hi l p' q') (hle : p' ≤ p) (hlt : p < q') : Gap lo hi l p' (max q q') := by
  obtain ⟨_, hpq, hq, hx⟩ := h
  obtain ⟨hp', _, hq', hx'⟩ := h'
  refine ⟨hp', by omega, by omega, fun x hm hf => ?_⟩
  have h₀ := hpos x hm
  have h₁ := hx x hm hf
  have h₂ := hx' x hm hf
  omega

theorem MaximalGap.eq {p' q' : ℤ} (hpos : ∀ x ∈ l, 0 < x.size) (h : MaximalGap lo hi l p q)
    (h' : MaximalGap lo hi l p' q') (hle : p' ≤ p) (hlt : p < q') : p' = p ∧ q' = q := by
  have hu := h.1.union hpos h'.1 hle hlt
  obtain ⟨hp, hq⟩ := h.2 _ _ hu hle (le_max_left _ _)
  obtain ⟨_, hq'⟩ := h'.2 _ _ hu le_rfl (le_max_right _ _)
  exact ⟨hp, hq'.symm.trans hq⟩

namespace Tiles

theorem exists_mem (h : Tiles lo l hi) (hp : lo ≤ p) (hlt : p < hi) :
    ∃ s ∈ l, s.addr ≤ p ∧ p < s.addr + s.size := by
  induction l generalizing lo with
  | nil =>
    have he : lo = hi := h
    omega
  | cons s l ih =>
    obtain ⟨hs, _, hl⟩ := h
    by_cases hps : p < s.addr + s.size
    · exact ⟨s, List.mem_cons_self, by omega, hps⟩
    · obtain ⟨t, ht, hb⟩ := ih hl (by omega)
      exact ⟨t, List.mem_cons_of_mem _ ht, hb⟩

theorem gap_of_free (h : Tiles lo l hi) (hs : s ∈ l) (hf : s.free = true) :
    Gap lo hi l s.addr (s.addr + s.size) := by
  have hb := h.bounds_of_mem hs
  have hpos := h.pos_of_mem hs
  obtain ⟨l₁, l₂, rfl⟩ := List.append_of_mem hs
  refine ⟨hb.1, by omega, hb.2, fun x hx hxf => ?_⟩
  rcases List.mem_append.mp hx with h₁ | h₂
  · exact Or.inl (h.le_of_mem_left h₁)
  · rcases List.mem_cons.mp h₂ with rfl | h₂
    · simp [hf] at hxf
    · exact Or.inr (h.le_of_mem_right h₂)

theorem left_of_free (h : Tiles lo (l₁ ++ s :: l₂) hi) (hsep : Separated (l₁ ++ s :: l₂))
    (hf : s.free = true) : (s.addr : ℤ) = lo ∨
      ∃ x ∈ l₁, x.free = false ∧ x.addr + x.size = s.addr ∧ 0 < x.size := by
  rcases List.eq_nil_or_concat l₁ with rfl | ⟨r, x, rfl⟩
  · exact Or.inl h.1
  · right
    rw [List.concat_eq_append] at h hsep ⊢
    obtain ⟨b, h₁, hb, _⟩ := append_iff.mp h
    obtain ⟨c, _, hc, hpos, hend⟩ := append_iff.mp h₁
    have hadj : ¬(x.free = true ∧ s.free = true) := by
      rw [List.append_assoc] at hsep
      exact (List.isChain_cons_cons.mp hsep.right_of_append).1
    have hxe : c + x.size = b := hend
    refine ⟨x, by simp, ?_, by omega, hpos⟩
    cases hx : x.free with
    | false => rfl
    | true => exact absurd ⟨hx, hf⟩ hadj

theorem right_of_free (h : Tiles lo (l₁ ++ s :: l₂) hi) (hsep : Separated (l₁ ++ s :: l₂))
    (hf : s.free = true) : s.addr + s.size = hi ∨
      ∃ x ∈ l₂, x.free = false ∧ (x.addr : ℤ) = s.addr + s.size ∧ 0 < x.size := by
  obtain ⟨b, _, hb, _, h₂⟩ := append_iff.mp h
  cases l₂ with
  | nil =>
    left
    have he : b + s.size = hi := h₂
    omega
  | cons x r =>
    right
    have hadj := (List.isChain_cons_cons.mp hsep.right_of_append).1
    refine ⟨x, by simp, ?_, by rw [h₂.1, hb], h₂.2.1⟩
    cases hx : x.free with
    | false => rfl
    | true => exact absurd ⟨hf, hx⟩ hadj

theorem maximalGap_of_free (h : Tiles lo l hi) (hsep : Separated l) (hs : s ∈ l)
    (hf : s.free = true) : MaximalGap lo hi l s.addr (s.addr + s.size) := by
  refine ⟨h.gap_of_free hs hf, fun p' q' hg hp hq => ?_⟩
  obtain ⟨hlo, _, hhi, hclear⟩ := hg
  have hpos := h.pos_of_mem hs
  obtain ⟨l₁, l₂, rfl⟩ := List.append_of_mem hs
  constructor
  · rcases h.left_of_free hsep hf with he | ⟨x, hx, hxf, hxe, hxpos⟩
    · omega
    · have := hclear x (by simp [hx]) hxf
      omega
  · rcases h.right_of_free hsep hf with he | ⟨x, hx, hxf, hxe, hxpos⟩
    · omega
    · have := hclear x (by simp [hx]) hxf
      omega

/-- The free segments are exactly the maximal gaps. -/
theorem free_mem_iff (h : Tiles lo l hi) (hsep : Separated l) {a : ℕ} {n : ℤ} :
    ⟨a, n, true⟩ ∈ l ↔ MaximalGap lo hi l a (a + n) := by
  constructor
  · intro hm
    exact h.maximalGap_of_free hsep hm rfl
  · intro hg
    obtain ⟨hlo, hlt, hhi, hclear⟩ := hg.1
    obtain ⟨s, hs, hle, hend⟩ := h.exists_mem hlo (hlt.trans_le hhi)
    have hf : s.free = true := by
      cases hsf : s.free with
      | true => rfl
      | false =>
        have := hclear s hs hsf
        omega
    obtain ⟨ha, hn⟩ := hg.eq (fun x => h.pos_of_mem) (h.maximalGap_of_free hsep hs hf) hle
      hend
    have heq : s = ⟨a, n, true⟩ := by
      obtain ⟨a', n', f⟩ := s
      obtain rfl : f = true := hf
      dsimp only at ha hn
      obtain rfl : a' = a := by omega
      obtain rfl : n' = n := by omega
      rfl
    rw [← heq]
    exact hs

end Tiles

end SsuOs.Lib
