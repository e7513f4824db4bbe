import SsuOs.Lib.Chained
import SsuOs.Xv6.Vm

/-! Who holds which page. Every page from the end of the kernel to `PHYSTOP` is either on the free
list or has exactly one holder. -/
namespace SsuOs.Xv6
open SsuOs.Lib

/-- A present entry of a page directory or a page table. -/
structure Pte where
  page : ℕ
  flags : UInt32
  deriving DecidableEq

def Pte.ofWord (w : UInt32) : Option Pte :=
  if w &&& pteP = 0 then none else some ⟨pteAddr w, pteFlags w⟩

section Words

variable {x : ℕ} {f w : UInt32}

theorem toNat_pageAddr_or (hx : x < nPages) (hf : f.toNat < pgSize) :
    (pageAddr x ||| f).toNat = pgSize * x + f.toNat := by
  have hlt : x * pgSize < 2 ^ 32 := by
    unfold nPages nPtEntries at hx
    unfold pgSize
    omega
  rw [UInt32.toNat_or, pageAddr, UInt32.toNat_ofNat_of_lt' hlt, Nat.mul_comm]
  exact (Nat.two_pow_add_eq_or_of_lt (i := 12) hf x).symm

theorem pteFlags_toNat (w : UInt32) : (pteFlags w).toNat = w.toNat % pgSize := by
  rw [pteFlags, UInt32.toNat_and]
  exact Nat.and_two_pow_sub_one_eq_mod w.toNat 12

theorem and_pteP_eq_zero : w &&& pteP = 0 ↔ w.toNat % 2 = 0 := by
  rw [← UInt32.toNat_inj, UInt32.toNat_and]
  exact Eq.congr_left (Nat.and_two_pow_sub_one_eq_mod w.toNat 1)

theorem pteAddr_or (hx : x < nPages) (hf : f.toNat < pgSize) : pteAddr (pageAddr x ||| f) = x := by
  rw [pteAddr, toNat_pageAddr_or hx hf, Nat.mul_add_div (by decide), Nat.div_eq_of_lt hf,
    Nat.add_zero]

theorem pteFlags_or (hx : x < nPages) (hf : f.toNat < pgSize) :
    pteFlags (pageAddr x ||| f) = f := by
  rw [← UInt32.toNat_inj, pteFlags_toNat, toNat_pageAddr_or hx hf, Nat.mul_add_mod,
    Nat.mod_eq_of_lt hf]

theorem Pte.ofWord_zero : Pte.ofWord 0 = none := rfl

theorem Pte.ofWord_or (hx : x < nPages) (hf : f.toNat < pgSize) (hp : f &&& pteP ≠ 0) :
    Pte.ofWord (pageAddr x ||| f) = some ⟨x, f⟩ := by
  have hpres : (pageAddr x ||| f) &&& pteP ≠ 0 := by
    rw [Ne, and_pteP_eq_zero, toNat_pageAddr_or hx hf]
    rw [Ne, and_pteP_eq_zero] at hp
    unfold pgSize
    omega
  rw [Pte.ofWord, if_neg hpres, pteAddr_or hx hf, pteFlags_or hx hf]

theorem Pte.ofWord_eq_some {e : Pte} (h : Pte.ofWord w = some e) :
    w &&& pteP ≠ 0 ∧ pteAddr w = e.page ∧ pteFlags w = e.flags := by
  unfold Pte.ofWord at h
  split_ifs at h with hp
  obtain rfl := Option.some.inj h
  exact ⟨hp, rfl, rfl⟩

theorem Pte.ofWord_eq_none : Pte.ofWord w = none ↔ w &&& pteP = 0 := by
  unfold Pte.ofWord
  split_ifs with hp <;> simp [hp]

theorem p2v_toNat (hx : x < kernBase) : (p2v x).toNat = (kernBase + x) * pgSize := by
  have hlt : (kernBase + x) * pgSize < 2 ^ 32 := by
    unfold kernBase pgSize at *
    omega
  rw [p2v, UInt32.toNat_ofNat_of_lt' hlt]

theorem v2p_p2v (hx : x < kernBase) : v2p (p2v x) = x := by
  have hv := p2v_toNat hx
  unfold v2p kernBase pgSize at *
  omega

theorem p2v_ne_zero (hx : x < kernBase) : p2v x ≠ 0 := by
  rw [Ne, ← UInt32.toNat_inj, p2v_toNat hx, UInt32.toNat_zero]
  unfold kernBase pgSize
  omega

end Words

/-- The page that a pointer of the free list is for. -/
def freeLink (a : UInt32) : Option ℕ := if a = 0 then none else some (v2p a)

theorem freeLink_p2v {x : ℕ} (hx : x < kernBase) : freeLink (p2v x) = some x := by
  rw [freeLink, if_neg (p2v_ne_zero hx), v2p_p2v hx]

theorem Layout.phystop_lt (L : Layout) : L.phystop < kernBase := by
  have hle := L.phystop_le
  have hlt := L.devspace_lt
  unfold kernBase nPages nPtEntries at *
  omega

/-- The pages that are handed out. -/
def Layout.pool (L : Layout) (x : ℕ) : ℕ := if L.first ≤ x ∧ x < L.phystop then 1 else 0

theorem Layout.pool_le (L : Layout) (x : ℕ) : L.pool x ≤ 1 := by
  unfold Layout.pool
  split_ifs <;> simp

/-- A holder of page `x` only. -/
def only (x : ℕ) : ℕ → ℕ := fun y => if y = x then 1 else 0

@[simp] theorem only_self (x : ℕ) : only x x = 1 := if_pos rfl

theorem count_cons_only (x y : ℕ) (l : List ℕ) : (x :: l).count y = l.count y + only x y := by
  rw [List.count_cons, only]
  simp only [beq_iff_eq, eq_comm (a := x)]

/-- `free` is the free list, and `A x` counts the holders of page `x`. -/
structure Ledger (L : Layout) (m : Phys) (free : List ℕ) (A : ℕ → ℕ) : Prop where
  chained : Chained (fun x => freeLink (m.page x 0)) (freeLink m.freelist) free
  count : ∀ x, free.count x + A x = L.pool x

/-- The pages that are not on the free list are held as `A` says. -/
def Held (L : Layout) (m : Phys) (A : ℕ → ℕ) : Prop := ∃ free, Ledger L m free A

/-- The pages of the holders `E` are what they were. -/
def Kept (E : ℕ → ℕ) (m m' : Phys) : Prop := ∀ x, E x ≠ 0 → m'.page x = m.page x

theorem Kept.refl (E : ℕ → ℕ) (m : Phys) : Kept E m m := fun _ _ => rfl

theorem Kept.trans {E : ℕ → ℕ} {m m' m'' : Phys} (h : Kept E m m') (h' : Kept E m' m'') :
    Kept E m m'' := fun x hx => (h' x hx).trans (h x hx)

theorem Kept.mono {E F : ℕ → ℕ} {m m' : Phys} (h : Kept E m m') (hle : ∀ x, F x ≤ E x) :
    Kept F m m' :=
  fun x hx => h x ((Nat.pos_of_ne_zero hx).trans_le (hle x)).ne'

namespace Phys

variable (m : Phys) (x : ℕ) (c : Page) (i : Fin nPtEntries) (w : UInt32)

@[simp] theorem fill_page (y : ℕ) : (m.fill x c).page y = if y = x then c else m.page y := by
  exact Function.update_apply m.page x c y

theorem set_page (y : ℕ) :
    (m.set x i w).page y = if y = x then Function.update (m.page x) i w else m.page y := by
  rw [set, fill_page]

end Phys

namespace Held

variable {L : Layout} {m : Phys} {A : ℕ → ℕ} {x : ℕ}

theorem le_one (h : Held L m A) (x : ℕ) : A x ≤ 1 := by
  obtain ⟨free, h⟩ := h
  have hcount := h.count x
  have hle := L.pool_le x
  omega

theorem in_pool (h : Held L m A) (hx : A x ≠ 0) : L.first ≤ x ∧ x < L.phystop := by
  obtain ⟨free, h⟩ := h
  have hcount := h.count x
  by_contra hno
  rw [Layout.pool, if_neg hno] at hcount
  omega

theorem lt_kernBase (h : Held L m A) (hx : A x ≠ 0) : x < kernBase :=
  (h.in_pool hx).2.trans L.phystop_lt

theorem lt_nPages (h : Held L m A) (hx : A x ≠ 0) : x < nPages :=
  (h.lt_kernBase hx).trans (by decide)

theorem congr {B : ℕ → ℕ} (h : Held L m A) (hAB : ∀ x, A x = B x) : Held L m B :=
  (funext hAB : A = B) ▸ h

theorem kalloc (h : Held L m A) : m.kalloc = (none, m) ∨ ∃ x m', m.kalloc = (some x, m') ∧
    m'.page = m.page ∧ A x = 0 ∧ Held L m' (A + only x) := by
  obtain ⟨free, hc, hcount⟩ := h
  unfold Phys.kalloc
  by_cases hz : m.freelist = 0
  · exact .inl (if_pos hz)
  · right
    rw [freeLink, if_neg hz] at hc
    obtain ⟨rest, rfl, hrest⟩ := hc.of_some
    refine ⟨v2p m.freelist, { m with freelist := m.page (v2p m.freelist) 0 }, if_neg hz, rfl, ?_,
      rest, hrest, fun y => ?_⟩
    · have h1 := hcount (v2p m.freelist)
      have hle := L.pool_le (v2p m.freelist)
      rw [List.count_cons_self] at h1
      omega
    · rw [← hcount y, count_cons_only, Pi.add_apply]
      omega

theorem fill (h : Held L m A) (hx : A x ≠ 0) (c : Page) : Held L (m.fill x c) A := by
  obtain ⟨free, hc, hcount⟩ := h
  refine ⟨free, hc.congr fun y hy => ?_, hcount⟩
  have hyx : y ≠ x := by
    rintro rfl
    have h1 := hcount y
    have hpos := List.count_pos_iff.mpr hy
    have hle := L.pool_le y
    omega
  rw [Phys.fill_page, if_neg hyx]

theorem set (h : Held L m A) (hx : A x ≠ 0) (i : Fin nPtEntries) (w : UInt32) :
    Held L (m.set x i w) A :=
  h.fill hx _

theorem kfree (h : Held L m (A + only x)) : ∃ m', m.kfree L x = .ok m' ∧
    (∀ y, y ≠ x → m'.page y = m.page y) ∧ Held L m' A := by
  have hx : (A + only x) x ≠ 0 := by simp
  obtain ⟨hlo, hhi⟩ := h.in_pool hx
  have hwritten := (h.fill hx fun _ => 0x01010101).set hx 0 m.freelist
  refine ⟨_, if_neg (by omega), fun y hy => ?_, ?_⟩
  · simp [Phys.set_page, hy]
  · obtain ⟨free, hc, hcount⟩ := hwritten
    refine ⟨x :: free, ?_, fun y => ?_⟩
    · dsimp only
      rw [freeLink_p2v (h.lt_kernBase hx)]
      refine .cons ?_
      rw [Phys.set_page, if_pos rfl, Function.update_self]
      exact hc
    · rw [← hcount y, count_cons_only, Pi.add_apply]
      omega

end Held

end SsuOs.Xv6
