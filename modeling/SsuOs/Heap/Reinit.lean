import SsuOs.Heap.Reuse

/-! Shutting the growing heap down and starting it again. -/
namespace SsuOs.Heap.Ealloc
open SsuOs.Lib

/-- `cleanup` has an empty body. -/
def cleanup (s : State) : State := s

/-- All functions of `ealloc.h`. -/
inductive ApiCall
  | initAlloc
  | cleanup
  | heap (c : Call)

def execApi : ApiCall → State → Except Fault (Ret × State)
  | .initAlloc, s => .ok (.void, initAlloc s)
  | .cleanup, s => .ok (.void, cleanup s)
  | .heap c, s => exec c s

/-- Any sequence of calls from program start, in any order and with any arguments. -/
abbrev ApiRun : List (Event State ApiCall Ret) → State → Prop :=
  Run execApi (fun _ _ => True) (· = State.zero)

/-- `alloc` with a size in the range of the heap and an `mmap` that succeeds, or `dealloc`. -/
def ValidCall : Call → Prop
  | .alloc size mmap => ValidSize minAlloc size ∧ ∀ k, 0 < mmap k ∧ mmap k + pageSize ≤ 2 ^ 64
  | .dealloc _ => True

/-- Whether a call has succeeded. -/
def Ret.success : Ret → Bool
  | .ptr addr => addr ≠ 0
  | .void => true

/-- Which of the calls succeed from the state `s`. -/
def outcomes (cs : List Call) (s : State) : Except Fault (List Bool) :=
  (execAll exec cs s).map fun r => r.1.map Ret.success

/-- After `cleanup` and `init_alloc` the heap behaves as in a program just started. -/
def LikeFresh (s : State) : Prop :=
  ∀ cs : List Call, (∀ c ∈ cs, ValidCall c) →
    outcomes cs (initAlloc (cleanup s)) = outcomes cs (initAlloc State.zero)

/-- The tables of the pages that were never mapped are as at program start. -/
structure Untouched (s : State) : Prop where
  nonneg : 0 ≤ s.pagenum
  le : s.pagenum ≤ pageMax
  zero : ∀ i : Fin pageMax, s.pagenum ≤ i → (s.page i).chunks = fun _ => Mm.zero

section Untouched

variable {s s' : State} {i : Fin pageMax}

theorem Untouched.setPage (h : Untouched s) (hi : (i : ℤ) < s.pagenum) (p : Page chunkMax) :
    Untouched (s.setPage i p) := by
  refine ⟨h.nonneg, h.le, fun j hj => ?_⟩
  have hne : j ≠ i := by
    rintro rfl
    exact absurd hi (not_lt.mpr hj)
  rw [setPage_page, if_neg hne]
  exact h.zero j hj

theorem Untouched.grow (h : Untouched s) (hpn : s.pagenum = i) (p : Page chunkMax) :
    Untouched { s.setPage i p with pagenum := s.pagenum + 1 } := by
  refine ⟨by dsimp only; omega, by dsimp only; omega, fun j hj => ?_⟩
  dsimp only at hj
  have hne : j ≠ i := by
    rintro rfl
    omega
  change ((s.setPage i p).page j).chunks = _
  rw [setPage_page, if_neg hne]
  exact h.zero j (by omega)

theorem Untouched.initAlloc (h : Untouched s) : Untouched (initAlloc s) :=
  ⟨h.nonneg, h.le, h.zero⟩

theorem Untouched.searchPages (h : Untouched s) {size : ℤ} {a : ℕ} {is : List ℕ}
    (his : ∀ k ∈ is, (k : ℤ) < s.pagenum) (hrun : searchPages size is s = .ok (some (a, s'))) :
    Untouched s' := by
  induction is with
  | nil => simp [Ealloc.searchPages] at hrun
  | cons k is ih =>
    obtain ⟨hk, hrest⟩ := List.forall_mem_cons.mp his
    obtain ⟨i, hslot, hrun⟩ := bind_eq_ok.mp hrun
    obtain ⟨found, hloop, hrun⟩ := bind_eq_ok.mp hrun
    have hi := slot_eq_ok hslot
    cases found with
    | found addr p =>
      obtain ⟨_, rfl⟩ := Prod.mk.inj (Option.some.inj (Except.ok.inj hrun))
      exact h.setPage (by omega) p
    | lastTooSmall => exact ih hrest hrun
    | ranOff => exact ih hrest hrun

theorem Untouched.allocRec (h : Untouched s) {size : ℤ} {a fuel : ℕ} {mmap : ℕ → ℕ}
    (hrun : allocRec size fuel mmap s = .ok (a, s')) : Untouched s' := by
  induction fuel generalizing s mmap with
  | zero => simp [Ealloc.allocRec] at hrun
  | succ fuel ih =>
    rw [Ealloc.allocRec] at hrun
    by_cases hbad : size.tmod minAlloc ≠ 0 ∨ size > pageSize
    · rw [if_pos hbad] at hrun
      obtain ⟨_, rfl⟩ := ok_pair_inj hrun
      exact h
    rw [if_neg hbad] at hrun
    obtain ⟨found, hsearch, hrun⟩ := bind_eq_ok.mp hrun
    cases found with
    | some r =>
      obtain rfl := Except.ok.inj hrun
      refine h.searchPages (fun k hk => ?_) hsearch
      have := List.mem_range.mp hk
      omega
    | none =>
      dsimp only at hrun
      split_ifs at hrun with hfull
      · obtain ⟨_, rfl⟩ := ok_pair_inj hrun
        exact h
      obtain ⟨i, hslot, hrun⟩ := bind_eq_ok.mp hrun
      exact ih (h.grow (slot_eq_ok hslot) _) hrun

theorem Untouched.deallocPages (h : Untouched s) {addr : ℕ} {is : List ℕ}
    (his : ∀ k ∈ is, (k : ℤ) < s.pagenum) (hrun : deallocPages addr is s = .ok s') :
    Untouched s' := by
  induction is with
  | nil =>
    obtain rfl := Except.ok.inj hrun
    exact h
  | cons k is ih =>
    obtain ⟨hk, hrest⟩ := List.forall_mem_cons.mp his
    obtain ⟨i, hslot, hrun⟩ := bind_eq_ok.mp hrun
    obtain ⟨found, hloop, hrun⟩ := bind_eq_ok.mp hrun
    have hi := slot_eq_ok hslot
    cases found with
    | some p =>
      obtain ⟨p', hmerge, hrun⟩ := bind_eq_ok.mp hrun
      obtain rfl := Except.ok.inj hrun
      exact h.setPage (by omega) p'
    | none => exact ih hrest hrun

theorem Untouched.execApi (h : Untouched s) {c : ApiCall} {r : Ret}
    (hrun : execApi c s = .ok (r, s')) : Untouched s' := by
  cases c with
  | initAlloc =>
    obtain ⟨_, rfl⟩ := ok_pair_inj hrun
    exact h.initAlloc
  | cleanup =>
    obtain ⟨_, rfl⟩ := ok_pair_inj hrun
    exact h
  | heap c =>
    cases c with
    | alloc size mmap =>
      obtain ⟨⟨a, t⟩, halloc, heq⟩ := map_eq_ok.mp hrun
      obtain ⟨_, rfl⟩ := Prod.mk.inj heq
      exact h.allocRec halloc
    | dealloc addr =>
      obtain ⟨t, hdealloc, heq⟩ := map_eq_ok.mp hrun
      obtain ⟨_, rfl⟩ := Prod.mk.inj heq
      refine h.deallocPages (fun k hk => ?_) hdealloc
      have := List.mem_range.mp hk
      omega

end Untouched

theorem apiRun_untouched {tr : List (Event State ApiCall Ret)} {s : State} (hr : ApiRun tr s) :
    Untouched s := by
  apply hr.invariant
  · rintro _ rfl
    exact ⟨le_rfl, by decide, fun _ _ => rfl⟩
  · intro s c r s' hs _ he
    exact hs.execApi he

theorem Untouched.initAlloc_eq {s : State} (h : Untouched s) (hpn : s.pagenum = 0) :
    Ealloc.initAlloc s = Ealloc.initAlloc State.zero := by
  have hchunks : ∀ i, (s.page i).chunks = fun _ => Mm.zero := fun i => h.zero i (by omega)
  simp [Ealloc.initAlloc, hchunks, hpn, State.zero]

section WholePages

variable {s : State}

/-- No mapped page takes a block of a whole page. -/
def Occupied (s : State) : Prop :=
  ∀ i : Fin pageMax, (i : ℤ) < s.pagenum → NoRoom pageSize (s.page i)

theorem occupied_initAlloc (s : State) : Occupied (initAlloc s) :=
  fun _ _ => Or.inr rfl

theorem validSize_pageSize : ValidSize minAlloc pageSize := by decide

theorem chunkMax_pos : 0 < chunkMax := by decide

def taken (addr : ℕ) (p : Page chunkMax) : Page chunkMax :=
  (p.start addr pageSize ⟨0, chunkMax_pos⟩).set ⟨0, chunkMax_pos⟩ ⟨addr, pageSize, 1, 1, -1, -1⟩

theorem allocLoop_start (addr : ℕ) (p : Page chunkMax) :
    Page.allocLoop pageSize (chunkMax + 1) 0 (p.start addr pageSize ⟨0, by decide⟩) =
      .ok (.found addr (taken addr p)) := rfl

theorem noRoom_taken (addr : ℕ) (p : Page chunkMax) : NoRoom pageSize (taken addr p) :=
  Or.inr rfl

theorem Occupied.alloc (h : Occupied s) (h₀ : 0 ≤ s.pagenum) (hle : s.pagenum ≤ pageMax)
    (mmap : ℕ → ℕ) :
    ∃ s', Ealloc.alloc pageSize mmap s = .ok (if s.pagenum < pageMax then mmap 0 else 0, s') ∧
      Occupied s' ∧ s'.pagenum = min (s.pagenum + 1) pageMax := by
  by_cases hlt : s.pagenum < pageMax
  · obtain ⟨i, hi⟩ : ∃ i : Fin pageMax, s.pagenum = i :=
      ⟨⟨s.pagenum.toNat, by omega⟩, by dsimp only; omega⟩
    have hbefore : ∀ j ≠ i, (j : ℤ) < s.pagenum + 1 → NoRoom pageSize (s.page j) := by
      intro j hne hj
      have hv : (j : ℕ) ≠ i := fun he => hne (Fin.ext he)
      exact h j (by omega)
    have hmap : Ealloc.alloc pageSize mmap s = _ :=
      allocRec_grow validSize_pageSize.not_refused hi h pageMax mmap
    rw [allocRec_hit (i := i) (p := taken (mmap 0) (s.page i)) (a := mmap 0)
      validSize_pageSize.not_refused (by dsimp only; omega)] at hmap
    · rw [if_pos hlt]
      refine ⟨_, hmap, fun j hj => ?_, by change s.pagenum + 1 = _; omega⟩
      rw [setPage_page]
      split_ifs with hji
      · exact noRoom_taken _ _
      · change NoRoom pageSize ((s.setPage i _).page j)
        rw [setPage_page, if_neg hji]
        exact hbefore j hji hj
    · intro j hj
      change NoRoom pageSize ((s.setPage i _).page j)
      rw [setPage_page, if_neg hj.ne]
      have hlt : (j : ℕ) < i := hj
      exact hbefore j hj.ne (by omega)
    · have hpage : (s.setPage i ((s.page i).start (mmap 0) pageSize ⟨0, by decide⟩)).page i =
          (s.page i).start (mmap 0) pageSize ⟨0, by decide⟩ := by
        rw [setPage_page, if_pos rfl]
      dsimp only
      rw [hpage]
      exact allocLoop_start (mmap 0) (s.page i)
  · have hfull : s.pagenum = pageMax := by omega
    refine ⟨s, ?_, h, by omega⟩
    rw [if_neg hlt]
    exact allocRec_full validSize_pageSize.not_refused hfull h pageMax mmap

theorem outcomes_cons {c : Call} {cs : List Call} {s' : State} {r : Ret} {bs : List Bool}
    (hc : exec c s = .ok (r, s')) (hcs : outcomes cs s' = .ok bs) :
    outcomes (c :: cs) s = .ok (r.success :: bs) := by
  obtain ⟨⟨rs, t⟩, hrun, rfl⟩ := map_eq_ok.mp hcs
  rw [outcomes, execAll_cons hc hrun]
  rfl

/-- Blocks of a whole page are there as long as a page is left to be mapped. -/
theorem Occupied.outcomes (h : Occupied s) (h₀ : 0 ≤ s.pagenum) (hle : s.pagenum ≤ pageMax)
    {mmaps : List (ℕ → ℕ)} (hm : ∀ mmap ∈ mmaps, 0 < mmap 0) :
    outcomes (mmaps.map (.alloc pageSize)) s =
      .ok ((List.range mmaps.length).map fun k : ℕ => decide (s.pagenum + k < pageMax)) := by
  induction mmaps generalizing s with
  | nil => rfl
  | cons mmap mmaps ih =>
    obtain ⟨hpos, hrest⟩ := List.forall_mem_cons.mp hm
    obtain ⟨s', hrun, hocc, hpn⟩ := h.alloc h₀ hle mmap
    have hcall : exec (.alloc pageSize mmap) s =
        .ok (.ptr (if s.pagenum < pageMax then mmap 0 else 0), s') := by
      rw [exec, hrun]
      rfl
    rw [List.map_cons, outcomes_cons hcall (ih hocc (by omega) (by omega) hrest), List.length_cons,
      List.range_succ_eq_map, List.map_cons, List.map_map]
    congr 2
    · simp only [Ret.success, decide_eq_decide, Nat.cast_zero, add_zero]
      split_ifs with hlt
      · exact iff_of_true hpos.ne' hlt
      · exact iff_of_false (not_not.mpr rfl) hlt
    · apply List.map_congr_left
      intro k _
      simp only [Function.comp_apply, decide_eq_decide, hpn]
      omega

end WholePages

/-- After `cleanup` and `init_alloc` the heap behaves as in a program just started exactly when
no page was mapped before: `pagenum` is never reset. -/
theorem likeFresh_iff_unmapped {tr : List (Event State ApiCall Ret)} {s : State}
    (hr : ApiRun tr s) : LikeFresh s ↔ s.pagenum = 0 := by
  have hs := apiRun_untouched hr
  constructor
  · intro hlike
    let mmaps : List (ℕ → ℕ) := List.replicate pageMax fun _ => pageSize
    have hpos : ∀ mmap ∈ mmaps, 0 < mmap 0 := by
      intro mmap hmem
      rw [List.eq_of_mem_replicate hmem]
      decide
    have hpages := hlike (mmaps.map (.alloc pageSize)) (by
      intro c hc
      obtain ⟨mmap, hmem, rfl⟩ := List.mem_map.mp hc
      rw [List.eq_of_mem_replicate hmem]
      have hpage : 0 < pageSize ∧ pageSize + pageSize ≤ 2 ^ 64 := by decide
      exact ⟨validSize_pageSize, fun _ => hpage⟩)
    rw [cleanup, (occupied_initAlloc _).outcomes hs.nonneg hs.le hpos,
      (occupied_initAlloc _).outcomes le_rfl (by decide) hpos] at hpages
    -- The last of the four pages.
    have hlast := List.map_inj_left.mp (Except.ok.inj hpages) 3 (by decide)
    change decide (s.pagenum + 3 < 4) = true at hlast
    have h₀ := hs.nonneg
    have := of_decide_eq_true hlast
    omega
  · intro hpn cs _
    rw [cleanup, hs.initAlloc_eq hpn]

theorem likeFresh_unused : ∃ tr s, ApiRun tr s ∧ s.pagenum = 0 ∧ LikeFresh s := by
  have h : ∃ tr s, ApiRun tr s ∧ decide (s.pagenum = 0) = true :=
    Run.exists_of_replayCheck [.initAlloc, .heap (.alloc 4097 fun _ => 4096), .cleanup] rfl
      (by decide +kernel)
  obtain ⟨tr, s, hr, hp⟩ := h
  have hpn := of_decide_eq_true hp
  exact ⟨tr, s, hr, hpn, (likeFresh_iff_unmapped hr).mpr hpn⟩

def fourPages : List Call :=
  [8192, 16384, 24576, 32768].map fun a => .alloc 4096 fun _ => a

/-- One page is used before the heap is shut down and started again: the fourth block of a whole
page fails. -/
theorem page_lost_by_restart : ∃ tr s, ApiRun tr s ∧ ¬LikeFresh s ∧
    outcomes fourPages (initAlloc (cleanup s)) = .ok [true, true, true, false] ∧
    outcomes fourPages (initAlloc State.zero) = .ok [true, true, true, true] := by
  have h : ∃ tr s, ApiRun tr s ∧ decide
      (outcomes fourPages (initAlloc (cleanup s)) = .ok [true, true, true, false]) = true :=
    Run.exists_of_replayCheck [.initAlloc, .heap (.alloc 4096 fun _ => 4096)] rfl
      (by decide +kernel)
  obtain ⟨tr, s, hr, hp⟩ := h
  have hs := of_decide_eq_true hp
  have hfresh : outcomes fourPages (initAlloc State.zero) = .ok [true, true, true, true] := by
    decide +kernel
  refine ⟨tr, s, hr, fun hlike => ?_, hs, hfresh⟩
  have hsame := hlike fourPages (by
    intro c hc
    obtain ⟨a, ha, rfl⟩ := List.mem_map.mp hc
    have hrange : ∀ a ∈ [8192, 16384, 24576, 32768], 0 < a ∧ a + pageSize ≤ 2 ^ 64 := by decide
    exact ⟨validSize_pageSize, fun _ => hrange a ha⟩)
  rw [hs, hfresh] at hsame
  exact absurd hsame (by decide)

end SsuOs.Heap.Ealloc
