import SsuOs.Heap.Ealloc

/-! Pages of the growing heap are never given back but fully reused. -/
namespace SsuOs.Heap.Ealloc
open SsuOs.Lib Page

/-- The page at `a` lies inside the address space, away from the null pointer and from the pages
mapped before. -/
def NewPage (a : ℕ) (s : State) : Prop :=
  0 < a ∧ a + pageSize ≤ 2 ^ 64 ∧
    ∀ i : Fin pageMax, (i : ℤ) < s.pagenum → Apart pageSize (s.page i).base a

instance (a : ℕ) (s : State) : Decidable (NewPage a s) := inferInstanceAs (Decidable (_ ∧ _))

/-- Sizes are positive, and a page that is mapped is a new one. -/
abbrev MapsFresh : Call → State → Prop := CallOk (0 < ·) NewPage

/-- Any sequence of calls after one `init_alloc` at program start, `mmap` giving disjoint pages. -/
abbrev FreshRun : List (Event State Call Ret) → State → Prop :=
  Run exec MapsFresh (· = initAlloc State.zero)

/-- The first `pagenum` pages lie apart at `b` with their chunks at the offsets `L`, the tables
of the others are clear. -/
structure Mapped (s : State) (b : Fin pageMax → ℕ) (L : Fin pageMax → List Seg) : Prop where
  nonneg : 0 ≤ s.pagenum
  le : s.pagenum ≤ pageMax
  pos : ∀ i : Fin pageMax, (i : ℤ) < s.pagenum → 0 < b i ∧ b i + pageSize ≤ 2 ^ 64
  apart : ∀ i j : Fin pageMax, (i : ℤ) < s.pagenum → (j : ℤ) < s.pagenum → i ≠ j →
    Apart pageSize (b i) (b j)
  laid : ∀ i : Fin pageMax, (i : ℤ) < s.pagenum →
    (s.page i).Laid minAlloc pageSize (b i) (L i)
  clear : ∀ i : Fin pageMax, s.pagenum ≤ i → ∀ j, ((s.page i).chunks j).isUsing = 0

section

variable {s : State} {b : Fin pageMax → ℕ} {L : Fin pageMax → List Seg} {i : Fin pageMax}
  {size : ℤ}

theorem mapped_init : Mapped (initAlloc State.zero) (fun _ => 0) (fun _ => []) := by
  have hnone : ∀ i : Fin pageMax, ¬(i : ℤ) < (initAlloc State.zero).pagenum := by
    intro i hi
    change (i : ℤ) < 0 at hi
    omega
  exact ⟨le_rfl, by decide, fun i hi => absurd hi (hnone i), fun i _ hi => absurd hi (hnone i),
    fun i hi => absurd hi (hnone i), fun _ _ _ => rfl⟩

theorem Mapped.setPage (h : Mapped s b L) (hi : (i : ℤ) < s.pagenum) {p : Page chunkMax}
    {L' : List Seg} (hp : p.Laid minAlloc pageSize (b i) L') :
    Mapped (s.setPage i p) b (Function.update L i L') := by
  refine ⟨h.nonneg, h.le, h.pos, h.apart, fun j hj => ?_, fun j hj => ?_⟩
  · rw [setPage_page, Function.update_apply]
    split_ifs with hji
    · rw [hji]
      exact hp
    · exact h.laid j hj
  · have hne : j ≠ i := by
      rintro rfl
      exact absurd hi (not_lt.mpr hj)
    rw [setPage_page, if_neg hne]
    exact h.clear j hj

theorem Mapped.grow (h : Mapped s b L) (hpn : s.pagenum = i) {a : ℕ} (ha : 0 < a)
    (hle : a + pageSize ≤ 2 ^ 64)
    (hapart : ∀ j : Fin pageMax, (j : ℤ) < s.pagenum → Apart pageSize (b j) a) :
    Mapped { s.setPage i ((s.page i).start a pageSize ⟨0, by decide⟩) with
      pagenum := s.pagenum + 1 } (Function.update b i a)
      (Function.update L i [⟨0, pageSize, true⟩]) := by
  have hold : ∀ j : Fin pageMax, (j : ℤ) < s.pagenum + 1 → j ≠ i → (j : ℤ) < s.pagenum := by
    intro j hj hne
    have hv : (j : ℕ) ≠ i := fun he => hne (Fin.ext he)
    omega
  have hnone := h.nonneg
  refine ⟨by dsimp only; omega, by dsimp only; omega, fun j hj => ?_, fun j l hj hl hjl => ?_,
    fun j hj => ?_, fun j hj => ?_⟩
  · rw [Function.update_apply]
    split_ifs with hji
    · exact ⟨ha, hle⟩
    · exact h.pos j (hold j hj hji)
  · rw [Function.update_apply, Function.update_apply]
    split_ifs with hji hli hli
    · exact absurd (hji.trans hli.symm) hjl
    · exact Or.symm (hapart l (hold l hl hli))
    · exact hapart j (hold j hj hji)
    · exact h.apart j l (hold j hj hji) (hold l hl hli) hjl
  · change ((s.setPage i _).page j).Laid _ _ _ _
    rw [setPage_page, Function.update_apply, Function.update_apply]
    split_ifs with hji
    · exact Laid.start rfl (h.clear i hpn.le) (by decide) (by decide)
    · exact h.laid j (hold j hj hji)
  · have hne : j ≠ i := by
      rintro rfl
      dsimp only at hj
      omega
    change ∀ k, (((s.setPage i _).page j).chunks k).isUsing = 0
    rw [setPage_page, if_neg hne]
    exact h.clear j (by dsimp only at hj; omega)

theorem Mapped.addr_ne (h : Mapped s b L) {j : Fin pageMax} (hi : (i : ℤ) < s.pagenum)
    (hj : (j : ℤ) < s.pagenum) (hij : i ≠ j) {y : Seg} {addr : ℕ} (hy : y ∈ L j)
    (hya : y.addr + b j = addr) : ∀ x ∈ (s.page i).segments, x.addr ≠ addr := by
  intro x hx he
  have hb₁ := (h.laid j hj).tiles.bounds_of_mem hy
  have hp₁ := (h.laid j hj).tiles.pos_of_mem hy
  have hb₂ := (h.laid i hi).tiles_segments.bounds_of_mem hx
  have hp₂ := (h.laid i hi).tiles_segments.pos_of_mem hx
  have hap := h.apart i j hi hj hij
  unfold Apart at hap
  omega

theorem Mapped.apart_of_base (h : Mapped s b L) {a : ℕ}
    (hapart : ∀ j : Fin pageMax, (j : ℤ) < s.pagenum → Apart pageSize (s.page j).base a) :
    ∀ j : Fin pageMax, (j : ℤ) < s.pagenum → Apart pageSize (b j) a := by
  intro j hj
  rw [← (h.laid j hj).base_eq pageSize_pos]
  exact hapart j hj

section Alloc

variable (hs : ValidSize minAlloc size)

include hs

theorem Mapped.noRoom (h : Mapped s b L) (hi : (i : ℤ) < s.pagenum)
    (hpl : place size (L i) = none) : NoRoom size (s.page i) := by
  have hb := (h.pos i hi).2
  exact (h.laid i hi).allocLoop_none (by decide) (pageSize_eq (by decide)) (by exact_mod_cast hb)
    hs.1 hs.2.1 hpl

theorem Mapped.allocRec_hit (h : Mapped s b L) (hi : (i : ℤ) < s.pagenum)
    (hfull : ∀ j < i, place size (L j) = none) {o : ℕ} {L' : List Seg}
    (hpl : place size (L i) = some (o, L')) :
    ∃ s', (∀ fuel mmap, allocRec size (fuel + 1) mmap s = .ok (o + b i, s')) ∧
      Mapped s' b (Function.update L i L') ∧ s'.pagenum = s.pagenum := by
  have hb := (h.pos i hi).2
  obtain ⟨p', hrun, hl'⟩ := (h.laid i hi).allocLoop_some (by decide) (pageSize_eq (by decide))
    (by exact_mod_cast hb) hs.1 hs.2.1 hpl
  refine ⟨s.setPage i p', fun fuel mmap => ?_, h.setPage hi hl', rfl⟩
  refine Ealloc.allocRec_hit hs.not_refused hi (fun j hj => ?_) hrun fuel mmap
  have hlt : (j : ℕ) < i := hj
  exact h.noRoom hs (by omega) (hfull j hj)

theorem Mapped.allocRec_grow (h : Mapped s b L) {mmap : ℕ → ℕ} (hpn : s.pagenum = i)
    (hfull : ∀ j : Fin pageMax, (j : ℤ) < s.pagenum → place size (L j) = none)
    (hnew : NewPage (mmap 0) s) :
    ∃ s', (∀ fuel, allocRec size (fuel + 2) mmap s = .ok (mmap 0, s')) ∧
      Mapped s' (Function.update b i (mmap 0))
        (Function.update L i (carve size ⟨0, pageSize, true⟩)) ∧
      s'.pagenum = s.pagenum + 1 := by
  obtain ⟨hpos, hle, hapart⟩ := hnew
  have hg := h.grow hpn hpos hle (h.apart_of_base hapart)
  have hbefore : ∀ j < i,
      place size (Function.update L i [⟨0, pageSize, true⟩] j) = none := by
    intro j hj
    rw [Function.update_of_ne hj.ne]
    exact hfull j (by omega)
  have hfront : place size (Function.update L i [⟨0, pageSize, true⟩] i) =
      some (0, carve size ⟨0, pageSize, true⟩) := by
    rw [Function.update_self]
    exact place_singleton rfl hs.2.2
  obtain ⟨s', hrun, hm, hpn'⟩ := hg.allocRec_hit hs (by dsimp only; omega) hbefore hfront
  rw [Function.update_idem] at hm
  refine ⟨s', fun fuel => ?_, hm, hpn'⟩
  rw [Ealloc.allocRec_grow hs.not_refused hpn fun j hj => h.noRoom hs hj (hfull j hj), hrun fuel,
    Function.update_self, Nat.zero_add]

theorem Mapped.callsMmap (h : Mapped s b L) (hpn : s.pagenum = i)
    (hfull : ∀ j : Fin pageMax, (j : ℤ) < s.pagenum → place size (L j) = none) :
    CallsMmap size s := by
  have hlt := i.isLt
  refine ⟨hs.not_refused, searchPages_none h.le fun j hj => h.noRoom hs hj (hfull j hj), ?_⟩
  omega

/-- A block goes to the first page with a place for it, to the next page, or nowhere. -/
theorem Mapped.alloc_cases (h : Mapped s b L) {mmap : ℕ → ℕ}
    (hnew : CallsMmap size s → NewPage (mmap 0) s) :
    (∃ (i : Fin pageMax) (o : ℕ) (L' : List Seg) (s' : State), (i : ℤ) < s.pagenum ∧
      (∀ j < i, place size (L j) = none) ∧ place size (L i) = some (o, L') ∧
      (∀ fuel mmap, allocRec size (fuel + 1) mmap s = .ok (o + b i, s')) ∧
      Mapped s' b (Function.update L i L') ∧ s'.pagenum = s.pagenum) ∨
    (∀ j : Fin pageMax, (j : ℤ) < s.pagenum → place size (L j) = none) ∧
      ((∃ (i : Fin pageMax) (s' : State), s.pagenum = i ∧
        (∀ fuel, allocRec size (fuel + 2) mmap s = .ok (mmap 0, s')) ∧
        Mapped s' (Function.update b i (mmap 0))
          (Function.update L i (carve size ⟨0, pageSize, true⟩)) ∧
        s'.pagenum = s.pagenum + 1) ∨
      s.pagenum = pageMax ∧ ∀ fuel mmap, allocRec size (fuel + 1) mmap s = .ok (0, s)) := by
  by_cases hex : ∃ i : Fin pageMax, (i : ℤ) < s.pagenum ∧ place size (L i) ≠ none
  · classical
    -- The least page with a place.
    obtain ⟨i, ⟨hi, hpl⟩, hmin⟩ : ∃ i : Fin pageMax, ((i : ℤ) < s.pagenum ∧
        place size (L i) ≠ none) ∧ ∀ j < i, ¬((j : ℤ) < s.pagenum ∧ place size (L j) ≠ none) :=
      ⟨Fin.find _ hex, Fin.find_spec hex, fun j hj => Fin.find_min hex hj⟩
    have hfull : ∀ j < i, place size (L j) = none := by
      intro j hj
      have hlt : (j : ℕ) < i := hj
      by_contra hne
      exact hmin j hj ⟨by omega, hne⟩
    obtain ⟨⟨o, L'⟩, hx⟩ := Option.ne_none_iff_exists'.mp hpl
    obtain ⟨s', hrun, hm', hpn⟩ := h.allocRec_hit hs hi hfull hx
    exact Or.inl ⟨i, o, L', s', hi, hfull, hx, hrun, hm', hpn⟩
  · push Not at hex
    refine Or.inr ⟨hex, ?_⟩
    have h₀ := h.nonneg
    have hpm := h.le
    by_cases hpn : s.pagenum = pageMax
    · right
      exact ⟨hpn, allocRec_full hs.not_refused hpn fun j hj => h.noRoom hs hj (hex j hj)⟩
    · left
      obtain ⟨i, hi⟩ : ∃ i : Fin pageMax, s.pagenum = i :=
        ⟨⟨s.pagenum.toNat, by omega⟩, by dsimp only; omega⟩
      obtain ⟨s', hrun⟩ := h.allocRec_grow hs hi hex (hnew (h.callsMmap hs hi hex))
      exact ⟨i, s', hi, hrun⟩

end Alloc

theorem Mapped.alloc (h : Mapped s b L) {mmap : ℕ → ℕ} (ha : MapsFresh (.alloc size mmap) s) :
    ∃ a s' b' L', alloc size mmap s = .ok (a, s') ∧ Mapped s' b' L' := by
  obtain ⟨hpos, hnew⟩ := ha
  by_cases hs : ValidSize minAlloc size
  · rcases h.alloc_cases hs hnew with
      ⟨i, o, L', s', -, -, -, hrun, hm', -⟩ | ⟨-, ⟨i, s', -, hrun, hm', -⟩ | ⟨-, hrun⟩⟩
    · exact ⟨_, s', b, _, hrun pageMax mmap, hm'⟩
    · exact ⟨_, s', _, _, hrun 3, hm'⟩
    · exact ⟨0, s, b, L, hrun pageMax mmap, h⟩
  · have hbad : size.tmod minAlloc ≠ 0 ∨ size > pageSize := by
      by_contra hok
      push Not at hok
      exact hs ⟨hpos, Int.dvd_of_tmod_eq_zero hok.1, hok.2⟩
    exact ⟨0, s, b, L, if_pos hbad, h⟩

theorem Mapped.deallocPages (h : Mapped s b L) (addr : ℕ) {is : List ℕ}
    (his : ∀ k ∈ is, (k : ℤ) < s.pagenum) :
    ∃ s' L', deallocPages addr is s = .ok s' ∧ Mapped s' b L' ∧ s'.pagenum = s.pagenum ∧
      ∀ i : Fin pageMax, (i : ℤ) < s.pagenum → (s'.page i).segments =
        if (i : ℕ) ∈ is then coalesce (release addr (s.page i).segments)
        else (s.page i).segments := by
  induction is with
  | nil => exact ⟨s, L, rfl, h, rfl, fun i _ => by simp⟩
  | cons k is ih =>
    obtain ⟨hk, hrest⟩ := List.forall_mem_cons.mp his
    have hpm := h.le
    obtain ⟨j, rfl⟩ : ∃ j : Fin pageMax, k = j := ⟨⟨k, by omega⟩, rfl⟩
    have hl := h.laid j hk
    obtain ⟨o, ho⟩ := hl.exists_names addr
    rw [Ealloc.deallocPages, slot_coe, ok_bind]
    rcases hl.deallocLoop pageSize_pos ho with
      ⟨p₁, p₂, hrun, hm, hl₂, y, hy, hya⟩ | ⟨hrun, hno, -⟩
    · refine ⟨s.setPage j p₂, _, ?_, h.setPage hk hl₂, rfl, fun i hi => ?_⟩
      · rw [hrun, ok_bind]
        dsimp only
        rw [hm, ok_bind]
      · rw [setPage_page]
        by_cases hij : i = j
        · rw [if_pos hij, hij, if_pos List.mem_cons_self]
          exact hl.segments_released ho hl₂
        · rw [if_neg hij, (h.laid i hi).coalesce_release_of_ne, ite_self]
          exact h.addr_ne hi hk hij hy hya
    · obtain ⟨s', L', he, hm, hpn, hseg⟩ := ih hrest
      refine ⟨s', L', ?_, hm, hpn, fun i hi => ?_⟩
      · rw [hrun, ok_bind]
        exact he
      · rw [hseg i hi]
        by_cases hij : i = j
        · have hne : ∀ x ∈ (s.page j).segments, x.addr ≠ addr := by
            intro x hx
            rw [hl.segments_eq] at hx
            obtain ⟨z, hz, rfl⟩ := List.mem_map.mp hx
            exact hno z hz
          rw [hij, hl.coalesce_release_of_ne hne, ite_self, ite_self]
        · have hne : (i : ℕ) ≠ j := fun he => hij (Fin.ext he)
          simp [hne]

theorem Mapped.dealloc (h : Mapped s b L) (addr : ℕ) :
    ∃ s' L', dealloc addr s = .ok s' ∧ Mapped s' b L' ∧ s'.pagenum = s.pagenum ∧
      ∀ i : Fin pageMax, (i : ℤ) < s.pagenum →
        (s'.page i).segments = coalesce (release addr (s.page i).segments) := by
  have his : ∀ k ∈ List.range s.pagenum.toNat, (k : ℤ) < s.pagenum := by
    intro k hk
    have := List.mem_range.mp hk
    omega
  obtain ⟨s', L', he, hm, hpn, hseg⟩ := h.deallocPages addr his
  refine ⟨s', L', he, hm, hpn, fun i hi => ?_⟩
  rw [hseg i hi, if_pos (List.mem_range.mpr (by omega))]

theorem Mapped.deallocAll (h : Mapped s b L) (addrs : List ℕ) :
    ∃ rs s' L', execAll exec (addrs.map .dealloc) s = .ok (rs, s') ∧ Mapped s' b L' ∧
      s'.pagenum = s.pagenum ∧ ∀ i : Fin pageMax, (i : ℤ) < s.pagenum →
        ∀ x ∈ (s'.page i).segments, x.free = false →
          x ∈ (s.page i).segments ∧ x.addr ∉ addrs := by
  induction addrs generalizing s L with
  | nil => exact ⟨[], s, L, rfl, h, rfl, fun i _ x hx _ => ⟨hx, by simp⟩⟩
  | cons a addrs ih =>
    obtain ⟨s₁, L₁, hr, hm₁, hpn₁, hseg₁⟩ := h.dealloc a
    obtain ⟨rs, s', L', hes, hm', hpn', hmem'⟩ := ih hm₁
    have he : exec (.dealloc a) s = .ok (.void, s₁) := by
      rw [exec, hr]
      rfl
    refine ⟨.void :: rs, s', L', execAll_cons he hes, hm', hpn'.trans hpn₁, fun i hi x hxm hx => ?_⟩
    obtain ⟨hx₁, hxa⟩ := hmem' i (by omega) x hxm hx
    rw [hseg₁ i hi, (h.laid i hi).mem_segments_released hx] at hx₁
    refine ⟨hx₁.1, ?_⟩
    rw [List.mem_cons, not_or]
    exact ⟨hx₁.2, hxa⟩

end

theorem freshRun_mapped {tr : List (Event State Call Ret)} {s : State} (hr : FreshRun tr s) :
    ∃ b L, Mapped s b L := by
  apply hr.invariant
  · rintro _ rfl
    exact ⟨_, _, mapped_init⟩
  · rintro s c r s' ⟨b, L, h⟩ ha he
    cases c with
    | alloc size mmap =>
      obtain ⟨a, s'', b', L', hrun, hm⟩ := h.alloc ha
      rw [exec, hrun] at he
      obtain ⟨_, rfl⟩ := ok_pair_inj he
      exact ⟨b', L', hm⟩
    | dealloc a =>
      obtain ⟨s'', L', hrun, hm, -⟩ := h.dealloc a
      rw [exec, hrun] at he
      obtain ⟨_, rfl⟩ := ok_pair_inj he
      exact ⟨b, L', hm⟩

section Refill

variable {s : State} {b : Fin pageMax → ℕ} {L : Fin pageMax → List Seg} {q t z : ℕ}

theorem Mapped.congr {L' : Fin pageMax → List Seg} (h : Mapped s b L)
    (hL : ∀ i : Fin pageMax, (i : ℤ) < s.pagenum → L' i = L i) : Mapped s b L' := by
  refine ⟨h.nonneg, h.le, h.pos, h.apart, fun i hi => ?_, h.clear⟩
  rw [hL i hi]
  exact h.laid i hi

/-- How many of `t` blocks the page `j` holds when each page takes `q` before the next one. -/
def share (q t j : ℕ) : ℕ := min q (t - j * q)

theorem share_of_lt {j : ℕ} (h : j < t / q) : share q t j = q := by
  have hle : (j + 1) * q ≤ t := (Nat.mul_le_mul_right q h).trans (Nat.div_mul_le_self t q)
  rw [Nat.add_mul, Nat.one_mul] at hle
  unfold share
  omega

theorem share_div (hq : 0 < q) : share q t (t / q) = t % q := by
  have hlt := Nat.mod_lt t hq
  have hdm := Nat.div_add_mod' t q
  unfold share
  omega

theorem share_succ_div (hq : 0 < q) : share q (t + 1) (t / q) = t % q + 1 := by
  have hlt := Nat.mod_lt t hq
  have hdm := Nat.div_add_mod' t q
  unfold share
  omega

theorem share_succ_of_ne {j : ℕ} (hq : 0 < q) (hj : j ≠ t / q) :
    share q (t + 1) j = share q t j := by
  rcases Nat.lt_or_gt_of_ne hj with hlt | hgt
  · have hle : t / q ≤ (t + 1) / q := Nat.div_le_div_right (Nat.le_succ t)
    rw [share_of_lt hlt, share_of_lt (hlt.trans_le hle)]
  · have hle : (t / q + 1) * q ≤ j * q := Nat.mul_le_mul_right q hgt
    have hlt := Nat.mod_lt t hq
    have hdm := Nat.div_add_mod' t q
    rw [Nat.add_mul, Nat.one_mul] at hle
    unfold share
    omega

theorem share_mono (q t j : ℕ) : share q t j ≤ share q (t + 1) j := by
  unfold share
  omega

theorem Mapped.refill_step (hz : ValidSize minAlloc z)
    (h : Mapped s b fun j => packed pageSize z (share (pageSize / z) t j))
    (ht : t < s.pagenum.toNat * (pageSize / z)) :
    ∃ (i : Fin pageMax) (s' : State), (i : ℤ) < s.pagenum ∧ (i : ℕ) = t / (pageSize / z) ∧
      (∀ mmap, exec (.alloc z mmap) s = .ok (.ptr (t % (pageSize / z) * z + b i), s')) ∧
      s'.pagenum = s.pagenum ∧
      Mapped s' b fun j => packed pageSize z (share (pageSize / z) (t + 1) j) := by
  have hpos : 0 < z := by exact_mod_cast hz.1
  have hle : z ≤ pageSize := by exact_mod_cast hz.2.2
  have hq : 0 < pageSize / z := Nat.div_pos hle hpos
  have hdiv : t / (pageSize / z) < s.pagenum.toNat := Nat.div_lt_of_lt_mul (by rwa [Nat.mul_comm])
  have hpm := h.le
  obtain ⟨i, hi⟩ : ∃ i : Fin pageMax, (i : ℕ) = t / (pageSize / z) :=
    ⟨⟨t / (pageSize / z), by omega⟩, rfl⟩
  have hmod := Nat.mod_lt t hq
  have hfit : (t % (pageSize / z) + 1) * z ≤ pageSize :=
    (Nat.mul_le_mul_right z hmod).trans (Nat.div_mul_le_self pageSize z)
  have hfull : ∀ j < i, place z (packed pageSize z (share (pageSize / z) t j)) = none := by
    intro j hj
    have hlt : (j : ℕ) < i := hj
    rw [hi] at hlt
    rw [share_of_lt hlt]
    exact place_packed_full (Nat.lt_mul_of_div_lt (Nat.lt_succ_self _) hpos)
  have hpl : place z (packed pageSize z (share (pageSize / z) t i)) =
      some (t % (pageSize / z) * z, packed pageSize z (t % (pageSize / z) + 1)) := by
    rw [hi, share_div hq]
    exact place_packed hpos hfit
  have hilt : (i : ℤ) < s.pagenum := by omega
  obtain ⟨s', hrun, hm, hpn⟩ := h.allocRec_hit hz hilt hfull hpl
  refine ⟨i, s', hilt, hi, fun mmap => ?_, hpn, hm.congr fun j hj => ?_⟩
  · rw [exec, Ealloc.alloc, hrun pageMax mmap]
    rfl
  · rw [Function.update_apply]
    split_ifs with hji
    · rw [hji, hi, share_succ_div hq]
    · have hne : (j : ℕ) ≠ t / (pageSize / z) := fun he => hji (Fin.ext (he.trans hi.symm))
      rw [share_succ_of_ne hq hne]

/-- `t` blocks of `z` bytes lie on the pages that hold them. -/
def Held (s : State) (b : Fin pageMax → ℕ) (z t a : ℕ) : Prop :=
  ∃ (j : Fin pageMax) (m : ℕ), (j : ℤ) < s.pagenum ∧ m < share (pageSize / z) t j ∧ a = m * z + b j

theorem Mapped.apart_of_held (h : Mapped s b L) {i : Fin pageMax}
    (hi : (i : ℤ) < s.pagenum) (hit : (i : ℕ) = t / (pageSize / z)) (hq : 0 < pageSize / z)
    {a : ℕ} (ha : Held s b z t a) : Apart z a (t % (pageSize / z) * z + b i) := by
  obtain ⟨j, m, hj, hm, rfl⟩ := ha
  have hle : ∀ m < pageSize / z, m * z + z ≤ pageSize := by
    intro m hm
    rw [← Nat.succ_mul]
    exact (Nat.mul_le_mul_right z hm).trans (Nat.div_mul_le_self pageSize z)
  have hmq : m < pageSize / z := hm.trans_le (Nat.min_le_left _ _)
  unfold Apart
  by_cases hji : j = i
  · rw [hji, hit, share_div hq] at hm
    have hmul : (m + 1) * z ≤ t % (pageSize / z) * z := Nat.mul_le_mul_right z hm
    rw [Nat.add_mul, Nat.one_mul] at hmul
    rw [hji]
    omega
  · have hap := h.apart j i hj hi hji
    have h₁ := hle m hmq
    have h₂ := hle _ (Nat.mod_lt t hq)
    unfold Apart at hap
    omega

/-- The pages take all blocks that fit, without a further page. -/
theorem Mapped.refill (hz : ValidSize minAlloc z) (h : Mapped s b fun _ => packed pageSize z 0)
    (ht : t ≤ s.pagenum.toNat * (pageSize / z)) :
    ∃ (as : List ℕ) (s' : State), as.length = t ∧ s'.pagenum = s.pagenum ∧
      (∀ mmaps : List (ℕ → ℕ), mmaps.length = t →
        execAll exec (mmaps.map (.alloc z)) s = .ok (as.map .ptr, s')) ∧
      Mapped s' b (fun j => packed pageSize z (share (pageSize / z) t j)) ∧
      (∀ a ∈ as, Held s b z t a) ∧ as.Pairwise (Apart z) := by
  have hpos : 0 < z := by exact_mod_cast hz.1
  have hle : z ≤ pageSize := by exact_mod_cast hz.2.2
  have hq : 0 < pageSize / z := Nat.div_pos hle hpos
  induction t with
  | zero =>
    refine ⟨[], s, rfl, rfl, fun mmaps hm => ?_, h.congr fun j _ => ?_, by simp, .nil⟩
    · rw [List.length_eq_zero_iff.mp hm]
      rfl
    · simp [share]
  | succ t ih =>
    obtain ⟨as, s₁, hlen, hpn, hrun, hm, hheld, hpw⟩ := ih (by omega)
    obtain ⟨i, s', hi, hit, hexec, hpn', hm'⟩ := hm.refill_step hz (by rw [hpn]; omega)
    rw [hpn] at hi
    refine ⟨as ++ [t % (pageSize / z) * z + b i], s', by simp [hlen], hpn'.trans hpn,
      fun mmaps hmm => ?_, hm', ?_, ?_⟩
    · obtain ⟨ms, mmap, rfl⟩ : ∃ ms mmap, mmaps = ms ++ [mmap] := by
        rcases List.eq_nil_or_concat mmaps with rfl | ⟨ms, mmap, rfl⟩
        · simp at hmm
        · exact ⟨ms, mmap, List.concat_eq_append⟩
      have hms : ms.length = t := by simpa using hmm
      rw [List.map_append, List.map_append]
      exact execAll_concat (hrun ms hms) (hexec mmap)
    · intro a ha
      rcases List.mem_append.mp ha with hold | hnew
      · obtain ⟨j, m, hj, hmj, rfl⟩ := hheld a hold
        exact ⟨j, m, hj, hmj.trans_le (share_mono _ _ _), rfl⟩
      · rw [List.mem_singleton.mp hnew]
        refine ⟨i, t % (pageSize / z), hi, ?_, rfl⟩
        rw [hit, share_succ_div hq]
        exact Nat.lt_succ_self _
    · refine List.pairwise_append.mpr ⟨hpw, List.pairwise_singleton _ _, fun a ha a' ha' => ?_⟩
      rw [List.mem_singleton.mp ha']
      exact h.apart_of_held hi hit hq (hheld a ha)

end Refill

/-- After all blocks have been released, in any order, every page of a run is one free chunk, and
all pages together take again as many blocks of any size as fit on them, without `mmap`. -/
theorem pages_reused {tr : List (Event State Call Ret)} {s : State} (hr : FreshRun tr s)
    {addrs : List ℕ} (haddrs : ∀ i : Fin pageMax, (i : ℤ) < s.pagenum →
      ∀ x ∈ (s.page i).segments, x.free = false → x.addr ∈ addrs) :
    ∃ rs s', execAll exec (addrs.map .dealloc) s = .ok (rs, s') ∧ s'.pagenum = s.pagenum ∧
      (∀ i : Fin pageMax, (i : ℤ) < s.pagenum →
        (s'.page i).layout = [⟨0, pageSize, true⟩]) ∧
      ∀ z : ℕ, ValidSize minAlloc z → ∃ (as : List ℕ) (s'' : State),
        as.length = s.pagenum.toNat * (pageSize / z) ∧ s''.pagenum = s.pagenum ∧
        (∀ mmaps : List (ℕ → ℕ), mmaps.length = s.pagenum.toNat * (pageSize / z) →
          execAll exec (mmaps.map (.alloc z)) s' = .ok (as.map .ptr, s'')) ∧
        (∀ a ∈ as, a ≠ 0) ∧ as.Pairwise (Apart z) := by
  obtain ⟨b, L, h⟩ := freshRun_mapped hr
  obtain ⟨rs, s', L', he, hm, hpn, hmem⟩ := h.deallocAll addrs
  have hempty : ∀ i : Fin pageMax, (i : ℤ) < s.pagenum → L' i = [⟨0, pageSize, true⟩] := by
    intro i hi
    have hl' := hm.laid i (by omega)
    exact hl'.eq_free_of_released pageSize_pos (hmem i hi) (haddrs i hi)
  refine ⟨rs, s', he, hpn, fun i hi => ?_, fun z hz => ?_⟩
  · rw [(hm.laid i (by omega)).layout_eq pageSize_pos, hempty i hi]
  · have hz₀ : Mapped s' b fun _ => packed pageSize z 0 := by
      apply hm.congr
      intro i hi
      rw [hempty i (by omega), packed_zero (by decide)]
    obtain ⟨as, s'', hlen, hpn', hrun, -, hheld, hpw⟩ := hz₀.refill hz le_rfl
    rw [hpn] at hlen hpn' hrun
    refine ⟨as, s'', hlen, hpn', hrun, fun a ha => ?_, hpw⟩
    obtain ⟨j, m, hj, -, rfl⟩ := hheld a ha
    have := (hm.pos j hj).1
    omega

/-- Two pages, one of them with two blocks, are released and take eight blocks of a quarter page. -/
theorem pages_reused_twice : ∃ s s' : State, s.pagenum = 2 ∧
    (∃ rs, execAll exec [.dealloc 8192, .dealloc 4352, .dealloc 4096] s = .ok (rs, s')) ∧
    ∃ (as : List ℕ) (s'' : State), as.length = 8 ∧ s''.pagenum = 2 ∧ as.Pairwise (Apart 1024) := by
  have h : ∃ tr s, FreshRun tr s ∧ decide (s.pagenum = 2 ∧ ∀ i : Fin pageMax,
      (i : ℤ) < s.pagenum → ∀ x ∈ (s.page i).segments, x.free = false →
        x.addr ∈ [8192, 4352, 4096]) = true :=
    Run.exists_of_replayCheck [.alloc 256 fun _ => 4096, .alloc 512 fun _ => 8192,
      .alloc 4096 fun _ => 8192] rfl (by decide +kernel)
  obtain ⟨tr, s, hr, hp⟩ := h
  obtain ⟨hpn, haddrs⟩ := of_decide_eq_true hp
  obtain ⟨rs, s', he, -, -, hfill⟩ := pages_reused hr haddrs
  obtain ⟨as, s'', hlen, hpn', -, -, hpw⟩ := hfill 1024 ⟨by decide, by decide, by decide⟩
  rw [hpn] at hlen hpn'
  exact ⟨s, s', hpn, ⟨rs, he⟩, as, s'', hlen, hpn', hpw⟩

end SsuOs.Heap.Ealloc
