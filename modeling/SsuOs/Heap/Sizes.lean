import SsuOs.Lib.CInt
import SsuOs.Heap.Fit
import SsuOs.Heap.Growth

/-! Which sizes the check of `alloc` refuses, in both allocators. It uses the signed remainder and
an upper bound only, so zero and negative multiples pass. -/
namespace SsuOs.Heap
open SsuOs.Lib

namespace Page

variable {n : ℕ} {p p' : Page n} {l : List (Fin n)} {size : ℤ}

theorem isUsing_of_findNext {x : Fin n} (h : p.findNext = x) : (p.chunks x).isUsing = 0 := by
  unfold findNext at h
  split at h
  · rename_i i hfind
    obtain rfl : i = x := Fin.ext (by omega)
    simpa using List.find?_some hfind
  · omega

/-- Entering a block in a free slot shows in the table. -/
theorem set_ne_of_findNext {x : Fin n} {c : Mm} (hx : slot n p.findNext = .ok x)
    (hc : c.isUsing = 1) : p'.set x c ≠ p := by
  intro he
  have hfree := isUsing_of_findNext (slot_eq_ok hx)
  rw [← he] at hfree
  simp [set, hc] at hfree

theorem splitChunk_found {t : Fin n} {r : Search n} (h : splitChunk size t p = .ok r) :
    ∃ p', r = .found (p.chunks t).addr p' ∧ p' ≠ p := by
  unfold splitChunk at h
  dsimp only at h
  split_ifs at h
  · obtain ⟨q, -, h⟩ := bind_eq_ok.mp h
    obtain ⟨p₁, -, h⟩ := bind_eq_ok.mp h
    obtain ⟨x, hx, h⟩ := bind_eq_ok.mp h
    obtain rfl := Except.ok.inj h
    exact ⟨_, rfl, set_ne_of_findNext hx rfl⟩
  · obtain ⟨p₁, -, h⟩ := bind_eq_ok.mp h
    obtain ⟨x, hx, h⟩ := bind_eq_ok.mp h
    obtain rfl := Except.ok.inj h
    exact ⟨_, rfl, set_ne_of_findNext hx rfl⟩

/-- When every chunk is large enough, the search takes a free one, or runs off the list. -/
theorem Chain.allocLoop_cases (h : p.Chain l) (hsize : ∀ s ∈ p.segments, size ≤ s.size)
    {r : Search n} (hrun : allocLoop size (n + 1) p.headIdx p = .ok r) :
    (∃ x ∈ p.segments, ∃ p', x.free = true ∧ r = .found x.addr p' ∧ p' ≠ p) ∨
      r = .ranOff ∧ ∀ x ∈ p.segments, x.free = false := by
  by_cases hfree : ∃ x ∈ p.segments, x.free = true
  · left
    have hlen := h.path.length_le
    have hnil : p.Chain ([] ++ l) := h
    have hseg := h.segments_eq
    rw [h.path.headIdx_eq_cursor] at hrun
    rcases allocLoop_spec size (n + 1) hnil (by omega) with
      ⟨la, t, lb, rfl, -, hfit, hspec⟩ | ⟨hno, -⟩
    · refine ⟨(p.chunks t).seg, by rw [hseg]; exact List.mem_map_of_mem (by simp), ?_⟩
      have hflag := (fits_iff.mp hfit).1
      rw [hspec] at hrun
      split_ifs at hrun
      · obtain rfl := Except.ok.inj hrun
        refine ⟨_, hflag, rfl, fun he => ?_⟩
        have hone : (p.chunks t).flag = 1 := by
          rw [← he]
          simp [set]
        simp [Mm.seg, hone] at hflag
      · obtain ⟨p', hr, hne⟩ := splitChunk_found hrun
        exact ⟨p', hflag, hr, hne⟩
    · obtain ⟨x, hx, hxf⟩ := hfree
      have hle := hsize x hx
      rw [hseg] at hx
      obtain ⟨t, ht, rfl⟩ := List.mem_map.mp hx
      exact absurd (fits_iff.mpr ⟨hxf, hle⟩) (hno t ht)
  · right
    have hnone : ∀ x ∈ p.segments, x.free = false := by
      intro x hx
      cases hf : x.free with
      | false => rfl
      | true => exact absurd ⟨x, hx, hf⟩ hfree
    rw [h.allocLoop_of_none fun x hx hfit => hfree ⟨x, hx, hfit.1⟩, if_neg] at hrun
    · exact ⟨(Except.ok.inj hrun).symm, hnone⟩
    · rintro ⟨x, hx, hlt⟩
      exact absurd (hsize x (List.mem_of_getLast? hx)) (not_le.mpr hlt)

end Page

namespace Alloc

abbrev AnySize : Call → State → Prop := CallOk InInt (· + pageSize ≤ 2 ^ 64)

abbrev IntRun : List (Event State Call Ret) → State → Prop :=
  Run exec AnySize (· = Page.fresh)

variable {tr : List (Event State Call Ret)} {h : State} {size : ℤ}

/-- A multiple that is not positive gets past the check, and then into the table or off the list. -/
theorem Placed.not_rejected (hp : Placed tr h) (hs : Slips minAlloc size) :
    ¬∀ junk, alloc size junk h = .ok (0, h) := by
  intro hrej
  have hone := hrej 1
  rw [alloc, if_neg hs.not_refused] at hone
  obtain ⟨r, hrun, hone⟩ := bind_eq_ok.mp hone
  rcases hp with rfl | ⟨b, L, ⟨-, l, hw, hL⟩, -⟩
  · obtain rfl : Page.Search.ranOff = r := Except.ok.inj hrun
    exact absurd (ok_pair_inj hone).1 one_ne_zero
  · have htiles : Tiles b h.segments (b + pageSize) := by
      rw [hw.segments_eq]
      exact hw.tiles
    have hsize : ∀ x ∈ h.segments, size ≤ x.size :=
      fun x hx => hs.1.trans (htiles.pos_of_mem hx).le
    rcases hw.toChain.allocLoop_cases hsize hrun with ⟨x, -, p', -, rfl, hne⟩ | ⟨rfl, -⟩
    · exact hne (ok_pair_inj hone).2
    · exact absurd (ok_pair_inj hone).1 one_ne_zero

theorem Placed.rejected_iff (hp : Placed tr h) (hs : ¬ValidSize minAlloc size) :
    (∀ junk, alloc size junk h = .ok (0, h)) ↔ ¬Slips minAlloc size := by
  constructor
  · intro hrej hslip
    exact hp.not_rejected hslip hrej
  · intro hgood junk
    exact alloc_refused (refused_iff.mpr ⟨hs, hgood⟩) junk h

end Alloc

namespace Ealloc

/-- Any 32-bit size; a page that is mapped is a new one. -/
abbrev AnySize : Call → State → Prop := CallOk InInt NewPage

abbrev IntRun : List (Event State Call Ret) → State → Prop :=
  Run exec AnySize (· = initAlloc State.zero)

variable {s s' : State} {b : Fin pageMax → ℕ} {L : Fin pageMax → List Seg} {size : ℤ}

theorem searchPages_pagenum {is : List ℕ} {a : ℕ}
    (hrun : searchPages size is s = .ok (some (a, s'))) : s'.pagenum = s.pagenum := by
  induction is with
  | nil => simp [searchPages] at hrun
  | cons k is ih =>
    obtain ⟨i, -, hrun⟩ := bind_eq_ok.mp hrun
    obtain ⟨found, -, hrun⟩ := bind_eq_ok.mp hrun
    cases found with
    | found addr p =>
      obtain ⟨-, rfl⟩ := Prod.mk.inj (Option.some.inj (Except.ok.inj hrun))
      rfl
    | lastTooSmall => exact ih hrun
    | ranOff => exact ih hrun

theorem le_pagenum_of_allocRec {fuel a : ℕ} {mmap : ℕ → ℕ}
    (hrun : allocRec size fuel mmap s = .ok (a, s')) : s.pagenum ≤ s'.pagenum := by
  induction fuel generalizing s mmap with
  | zero => simp [allocRec] at hrun
  | succ fuel ih =>
    rw [allocRec] at hrun
    by_cases hbad : size.tmod minAlloc ≠ 0 ∨ size > pageSize
    · rw [if_pos hbad] at hrun
      obtain ⟨-, rfl⟩ := ok_pair_inj hrun
      exact le_rfl
    rw [if_neg hbad] at hrun
    obtain ⟨found, hsearch, hrun⟩ := bind_eq_ok.mp hrun
    cases found with
    | some r =>
      obtain rfl := Except.ok.inj hrun
      exact (searchPages_pagenum hsearch).ge
    | none =>
      dsimp only at hrun
      split_ifs at hrun
      · obtain ⟨-, rfl⟩ := ok_pair_inj hrun
        exact le_rfl
      obtain ⟨i, -, hrun⟩ := bind_eq_ok.mp hrun
      have hle := ih hrun
      dsimp only [State.setPage] at hle
      omega

/-- A call that maps a page does not leave the state as it was. -/
theorem CallsMmap.lt_pagenum (hc : CallsMmap size s) {mmap : ℕ → ℕ} {a : ℕ}
    (hrun : alloc size mmap s = .ok (a, s')) : s.pagenum < s'.pagenum := by
  obtain ⟨hguard, hsearch, hne⟩ := hc
  rw [alloc, allocRec, if_neg hguard, hsearch, ok_bind] at hrun
  dsimp only at hrun
  rw [if_neg hne] at hrun
  obtain ⟨i, -, hrun⟩ := bind_eq_ok.mp hrun
  have hle := le_pagenum_of_allocRec hrun
  dsimp only [State.setPage] at hle
  omega

/-- What a search for a size that is not positive finds, page by page. -/
theorem Mapped.searchPages_nonpos (h : Mapped s b L) (hs : size ≤ 0) {is : List ℕ}
    (his : ∀ k ∈ is, (k : ℤ) < s.pagenum) {r : Option (ℕ × State)}
    (hrun : searchPages size is s = .ok r) :
    (∃ a s', r = some (a, s') ∧ 0 < a) ∨
      r = none ∧ ∀ i : Fin pageMax, (i : ℕ) ∈ is → ∀ x ∈ (s.page i).segments, x.free = false := by
  induction is with
  | nil => exact Or.inr ⟨(Except.ok.inj hrun).symm, by simp⟩
  | cons k is ih =>
    obtain ⟨hk, hrest⟩ := List.forall_mem_cons.mp his
    obtain ⟨i, hslot, hrun⟩ := bind_eq_ok.mp hrun
    obtain ⟨found, hloop, hrun⟩ := bind_eq_ok.mp hrun
    have hi : (k : ℤ) = i := slot_eq_ok hslot
    have hlt : (i : ℤ) < s.pagenum := by omega
    have hl := h.laid i hlt
    have hsize : ∀ x ∈ (s.page i).segments, size ≤ x.size :=
      fun x hx => hs.trans (hl.tiles_segments.pos_of_mem hx).le
    obtain ⟨l, hw, -⟩ := id hl
    rcases hw.toChain.allocLoop_cases hsize hloop with ⟨x, hx, p', -, rfl, -⟩ | ⟨rfl, hnone⟩
    · left
      obtain rfl := Except.ok.inj hrun
      have hbound := (hl.tiles_segments.bounds_of_mem hx).1
      have hpos := (h.pos i hlt).1
      exact ⟨x.addr, _, rfl, by omega⟩
    · rcases ih hrest hrun with hsome | ⟨hr, hall⟩
      · exact Or.inl hsome
      · refine Or.inr ⟨hr, fun j hj => ?_⟩
        rcases List.mem_cons.mp hj with he | hm
        · obtain rfl : j = i := Fin.ext (by omega)
          exact hnone
        · exact hall j hm

theorem Mapped.full_of_rejected (h : Mapped s b L) (hs : Slips minAlloc size)
    {mmap : ℕ → ℕ} (hrej : Ealloc.alloc size mmap s = .ok (0, s)) :
    s.pagenum = pageMax ∧ ∀ i : Fin pageMax, ∀ x ∈ (s.page i).segments, x.free = false := by
  have hguard := hs.not_refused
  have hrej' := hrej
  rw [Ealloc.alloc, allocRec, if_neg hguard] at hrej'
  obtain ⟨r, hsearch, hrej'⟩ := bind_eq_ok.mp hrej'
  have his : ∀ k ∈ List.range s.pagenum.toNat, (k : ℤ) < s.pagenum := by
    intro k hk
    have := List.mem_range.mp hk
    omega
  rcases h.searchPages_nonpos hs.1 his hsearch with ⟨a, t, rfl, hpos⟩ | ⟨rfl, hall⟩
  · have ha := (ok_pair_inj hrej').1
    omega
  · by_cases hpn : s.pagenum = pageMax
    · refine ⟨hpn, fun i => hall i (List.mem_range.mpr ?_)⟩
      have := i.isLt
      omega
    · exact absurd (CallsMmap.lt_pagenum ⟨hguard, hsearch, hpn⟩ hrej) (lt_irrefl _)

theorem Mapped.rejected_of_full (h : Mapped s b L) (hpn : s.pagenum = pageMax)
    (hfull : ∀ i : Fin pageMax, ∀ x ∈ (s.page i).segments, x.free = false) (mmap : ℕ → ℕ) :
    Ealloc.alloc size mmap s = .ok (0, s) := by
  by_cases hbad : size.tmod minAlloc ≠ 0 ∨ size > pageSize
  · exact alloc_refused hbad mmap s
  · refine allocRec_full hbad hpn (fun i hi => ?_) pageMax mmap
    obtain ⟨l, hw, -⟩ := h.laid i hi
    have hnone : ∀ x ∈ (s.page i).segments, ¬(x.free = true ∧ size ≤ x.size) := by
      intro x hx hfit
      simp [hfull i x hx] at hfit
    unfold NoRoom
    rw [hw.toChain.allocLoop_of_none hnone]
    split_ifs
    · exact Or.inl rfl
    · exact Or.inr rfl

theorem Mapped.rejected_iff (h : Mapped s b L) (hs : ¬ValidSize minAlloc size) (mmap : ℕ → ℕ) :
    Ealloc.alloc size mmap s = .ok (0, s) ↔ ¬Slips minAlloc size ∨
      s.pagenum = pageMax ∧ ∀ i : Fin pageMax, ∀ x ∈ (s.page i).segments, x.free = false := by
  constructor
  · intro hrej
    by_cases hslip : Slips minAlloc size
    · exact Or.inr (h.full_of_rejected hslip hrej)
    · exact Or.inl hslip
  · rintro (hgood | ⟨hpn, hfull⟩)
    · exact alloc_refused (refused_iff.mpr ⟨hs, hgood⟩) mmap s
    · exact h.rejected_of_full hpn hfull mmap

end Ealloc

/-- As long as the calls of a run pass no size to `alloc` that is a multiple of `MINALLOC` but not
positive, the pages stay tiled whatever else the sizes are; and an invalid size is rejected without
a trace exactly if it is not such a multiple either (or nothing is left that could serve it). -/
theorem invalid_sizes_rejected_iff {tr : List (Event Alloc.State Alloc.Call Alloc.Ret)}
    {h : Alloc.State} {tr' : List (Event Ealloc.State Ealloc.Call Ealloc.Ret)} {s : Ealloc.State}
    {size : ℤ} (hr : Alloc.IntRun tr h) (hgood : ∀ e ∈ tr, Alloc.Checked e.call e.pre)
    (hr' : Ealloc.IntRun tr' s) (hgood' : ∀ e ∈ tr', Ealloc.Checked e.call e.pre)
    (_ : InInt size) :
    ((h.headIdx ≠ -1 → ∃ base l, h.WellFormed Alloc.minAlloc pageSize base l) ∧
      (¬ValidSize Alloc.minAlloc size → ((∀ junk, Alloc.alloc size junk h = .ok (0, h)) ↔
        ¬(size ≤ 0 ∧ (Alloc.minAlloc : ℤ) ∣ size)))) ∧
    (∀ i : Fin Ealloc.pageMax, (i : ℤ) < s.pagenum →
      ∃ base l, (s.page i).WellFormed Ealloc.minAlloc pageSize base l) ∧
    (¬ValidSize Ealloc.minAlloc size → ∀ mmap, (Ealloc.alloc size mmap s = .ok (0, s) ↔
      ¬(size ≤ 0 ∧ (Ealloc.minAlloc : ℤ) ∣ size) ∨ s.pagenum = Ealloc.pageMax ∧
        ∀ i : Fin Ealloc.pageMax, ∀ x ∈ (s.page i).segments, x.free = false)) := by
  have hp := Alloc.checkedRun_placed (hr.of_good hgood)
  obtain ⟨b, L, hm, -⟩ := Ealloc.checkedRun_placed (hr'.of_good hgood')
  refine ⟨⟨fun hinit => ?_, hp.rejected_iff⟩, fun i hi => ?_, hm.rejected_iff⟩
  · rcases hp with rfl | ⟨b, L, ⟨-, l, hw, -⟩, -⟩
    · exact absurd rfl hinit
    · exact ⟨b, l, hw⟩
  · obtain ⟨l, hw, -⟩ := hm.laid i hi
    exact ⟨b i, l, hw⟩

/-- A negative size in either allocator, behind runs that have sizes refused already. -/
theorem invalid_sizes_rejected_odd :
    ∃ (h : Alloc.State) (s : Ealloc.State), h.headIdx ≠ -1 ∧ s.pagenum = 1 ∧
      (∀ junk, Alloc.alloc (-3) junk h = .ok (0, h)) ∧
      ∀ mmap, Ealloc.alloc (-3) mmap s = .ok (0, s) := by
  have h₁ : ∃ tr h, Alloc.IntRun tr h ∧ decide (h.headIdx ≠ -1 ∧
      ∀ e ∈ tr, Alloc.Checked e.call e.pre) = true :=
    Run.exists_of_replayCheck [.initAlloc 4096, .alloc 12 0, .alloc 8 0, .alloc (-4) 0] rfl
      (by decide +kernel)
  have h₂ : ∃ tr s, Ealloc.IntRun tr s ∧ decide (s.pagenum = 1 ∧
      ∀ e ∈ tr, Ealloc.Checked e.call e.pre) = true :=
    Run.exists_of_replayCheck [.alloc 256 fun _ => 4096, .alloc 4352 fun _ => 8192] rfl
      (by decide +kernel)
  obtain ⟨tr, h, hr, hp⟩ := h₁
  obtain ⟨hinit, hgood⟩ := of_decide_eq_true hp
  obtain ⟨tr', s, hr', hp'⟩ := h₂
  obtain ⟨hpn, hgood'⟩ := of_decide_eq_true hp'
  have hint : InInt (-3) := by decide
  obtain ⟨⟨-, hrej⟩, -, hrej'⟩ := invalid_sizes_rejected_iff hr hgood hr' hgood' hint
  have hneg : ¬ValidSize Alloc.minAlloc (-3) := by
    decide
  have hneg' : ¬ValidSize Ealloc.minAlloc (-3) := by
    decide
  exact ⟨h, s, hinit, hpn, (hrej hneg).mpr (by decide), fun mmap =>
    (hrej' hneg' mmap).mpr (Or.inl (by decide))⟩

/-- The size zero passes the check: it is answered with the address of a free chunk, and an empty
chunk enters the list. -/
theorem size_zero_accepted :
    (∃ tr h, Alloc.IntRun tr h ∧ ∃ h', (∀ junk, Alloc.alloc 0 junk h = .ok (4096, h')) ∧
      h.segments = [⟨4096, 4096, true⟩] ∧
      h'.segments = [⟨4096, 0, false⟩, ⟨4096, 4096, true⟩]) ∧
    ∃ tr s, Ealloc.IntRun tr s ∧ ∃ s', (∀ mmap, Ealloc.alloc 0 mmap s = .ok (4352, s')) ∧
      (s.page 0).segments = [⟨4096, 256, false⟩, ⟨4352, 3840, true⟩] ∧
      (s'.page 0).segments = [⟨4096, 256, false⟩, ⟨4352, 0, false⟩, ⟨4352, 3840, true⟩] := by
  constructor
  · have h₀ : Alloc.IntRun [] Page.fresh := .start rfl
    have ha : Alloc.AnySize (.initAlloc 4096) Page.fresh := by decide
    have h₁ := h₀.step ha rfl
    have hsplit : (match Page.allocLoop 0 513 0 (Alloc.initAlloc 4096 Page.fresh).2 with
        | .ok (.found a p) =>
          decide (a = 4096 ∧ p.segments = [⟨4096, 0, false⟩, ⟨4096, 4096, true⟩])
        | _ => false) = true := by decide +kernel
    split at hsplit
    · rename_i a p hloop
      obtain ⟨rfl, hseg⟩ := of_decide_eq_true hsplit
      exact ⟨_, _, h₁, p, Alloc.alloc_of_found (by decide) hloop, by decide +kernel, hseg⟩
    · simp at hsplit
  · have h₀ : Ealloc.IntRun [] (Ealloc.initAlloc Ealloc.State.zero) := .start rfl
    have ha : Ealloc.AnySize (.alloc 256 fun _ => 4096)
        (Ealloc.initAlloc Ealloc.State.zero) := by decide
    have h₁ := h₀.step ha rfl
    exact ⟨_, _, h₁, _, fun _ => rfl, by decide +kernel, by decide +kernel⟩

end SsuOs.Heap
