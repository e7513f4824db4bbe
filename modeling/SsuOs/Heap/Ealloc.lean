import SsuOs.Lib.Except
import SsuOs.Lib.Run
import SsuOs.Heap.PageLayout

/-! The growing heap of `ealloc.c`: up to four pages, each with its own chunk table. -/
namespace SsuOs.Heap.Ealloc
open SsuOs.Lib

abbrev minAlloc : ℕ := 256

abbrev pageMax : ℕ := 4

abbrev chunkMax : ℕ := pageSize / minAlloc

/-- The globals; `page i` is the pair `head_idx[i]`, `chunks[i]`. -/
structure State where
  pagenum : ℤ
  page : Fin pageMax → Page chunkMax

/-- The static data at program start. -/
def State.zero : State := ⟨0, fun _ => ⟨0, fun _ => Mm.zero⟩⟩

def State.setPage (s : State) (i : Fin pageMax) (p : Page chunkMax) : State :=
  { s with page := Function.update s.page i p }

def initAlloc (s : State) : State :=
  { s with page := fun i => { s.page i with headIdx := -1 } }

/-- The `for` loop of `alloc` over the pages numbered `is`. -/
def searchPages (size : ℤ) : List ℕ → State → Except Fault (Option (ℕ × State))
  | [], _ => .ok none
  | i :: is, s => do
    let i ← slot pageMax i
    match ← Page.allocLoop size (chunkMax + 1) (s.page i).headIdx (s.page i) with
    | .found addr p => .ok (some (addr, s.setPage i p))
    | .lastTooSmall => searchPages size is s
    | .ranOff => searchPages size is s

/-- `alloc`; `mmap k` is what the `k`-th further call of `mmap` returns. Each recursive call
follows the mapping of a page, so `fuel` bounds their number. -/
def allocRec (size : ℤ) : ℕ → (ℕ → ℕ) → State → Except Fault (ℕ × State)
  | 0, _, _ => .error .outOfFuel
  | fuel + 1, mmap, s =>
    if size.tmod minAlloc ≠ 0 ∨ size > pageSize then .ok (0, s)
    else do
      match ← searchPages size (List.range s.pagenum.toNat) s with
      | some r => .ok r
      | none =>
        if s.pagenum = pageMax then .ok (0, s)
        else do
          let i ← slot pageMax s.pagenum
          let s := s.setPage i ((s.page i).start (mmap 0) pageSize ⟨0, by decide⟩)
          allocRec size fuel (fun k => mmap (k + 1)) { s with pagenum := s.pagenum + 1 }

def alloc (size : ℤ) (mmap : ℕ → ℕ) (s : State) : Except Fault (ℕ × State) :=
  allocRec size (pageMax + 1) mmap s

/-- `alloc` gets as far as its call of `mmap`. -/
def CallsMmap (size : ℤ) (s : State) : Prop :=
  ¬(size.tmod minAlloc ≠ 0 ∨ size > pageSize) ∧
    searchPages size (List.range s.pagenum.toNat) s = .ok none ∧ s.pagenum ≠ pageMax

theorem map_isNone_iff {α : Type} {x : Except Fault (Option α)} :
    x.map Option.isNone = .ok true ↔ x = .ok none := by
  rw [map_eq_ok]
  constructor
  · rintro ⟨o, rfl, ho⟩
    rw [Option.isNone_iff_eq_none.mp ho]
  · intro hx
    exact ⟨none, hx, rfl⟩

theorem callsMmap_iff {size : ℤ} {s : State} :
    (¬(size.tmod minAlloc ≠ 0 ∨ size > pageSize) ∧
      (searchPages size (List.range s.pagenum.toNat) s).map Option.isNone = .ok true ∧
      s.pagenum ≠ pageMax) ↔ CallsMmap size s := by
  rw [map_isNone_iff]
  rfl

instance (size : ℤ) (s : State) : Decidable (CallsMmap size s) := decidable_of_iff _ callsMmap_iff

/-- The `for` loop of `dealloc` over the pages numbered `is`. -/
def deallocPages (addr : ℕ) : List ℕ → State → Except Fault State
  | [], s => .ok s
  | i :: is, s => do
    let i ← slot pageMax i
    match ← Page.deallocLoop addr (chunkMax + 1) (s.page i).headIdx (s.page i) with
    | some p => do
      let p ← p.mergeChunk
      .ok (s.setPage i p)
    | none => deallocPages addr is s

def dealloc (addr : ℕ) (s : State) : Except Fault State :=
  deallocPages addr (List.range s.pagenum.toNat) s

inductive Call
  | alloc (size : ℤ) (mmap : ℕ → ℕ)
  | dealloc (addr : ℕ)

def Call.size : Call → Option ℤ
  | .alloc size _ => some size
  | .dealloc _ => none

inductive Ret
  | ptr (addr : ℕ)
  | void

def exec : Call → State → Except Fault (Ret × State)
  | .alloc size mmap, s => (alloc size mmap s).map fun r => (.ptr r.1, r.2)
  | .dealloc a, s => (dealloc a s).map fun s' => (.void, s')

/-- The sizes are `ok`, and `mmap` returns a `page` when `alloc` gets as far. -/
def CallOk (ok : ℤ → Prop) (page : ℕ → State → Prop) : Call → State → Prop
  | .alloc size mmap, s => ok size ∧ (CallsMmap size s → page (mmap 0) s)
  | .dealloc _, _ => True

instance (ok : ℤ → Prop) (page : ℕ → State → Prop) [DecidablePred ok]
    [∀ a s, Decidable (page a s)] (c : Call) (s : State) : Decidable (CallOk ok page c s) :=
  match c with
  | .alloc _ _ => inferInstanceAs (Decidable (_ ∧ _))
  | .dealloc _ => inferInstanceAs (Decidable True)

/-- Sizes are positive and `mmap` succeeds with pages inside the address space. -/
abbrev Admissible : Call → State → Prop := CallOk (0 < ·) fun a _ => a + pageSize ≤ 2 ^ 64

/-- Any sequence of admissible calls after one `init_alloc` at program start. -/
abbrev HeapRun : List (Event State Call Ret) → State → Prop :=
  Run exec Admissible (· = initAlloc State.zero)

/-- What `mmap` returns in the call, if it gets as far. -/
def mapped : Call → State → Option ℕ
  | .alloc size mmap, s => if CallsMmap size s then some (mmap 0) else none
  | .dealloc _, _ => none

/-- What `mmap` has returned in the calls of the history, in their order. -/
def mmapped (tr : List (Event State Call Ret)) : List ℕ :=
  (tr.filterMap fun e => mapped e.call e.pre).reverse

theorem mmapped_cons (e : Event State Call Ret) (tr : List (Event State Call Ret)) :
    mmapped (e :: tr) = mmapped tr ++ (mapped e.call e.pre).toList := by
  unfold mmapped
  cases h : mapped e.call e.pre with
  | none => simp [h]
  | some a => simp [h]

/-- The `n` bytes at `a` and those at `a'` do not overlap. -/
def Apart (n a a' : ℕ) : Prop := a + n ≤ a' ∨ a' + n ≤ a

instance (n a a' : ℕ) : Decidable (Apart n a a') := inferInstanceAs (Decidable (_ ∨ _))

def PageOk (base : ℕ) (p : Page chunkMax) : Prop :=
  base + pageSize ≤ 2 ^ 64 ∧ ∃ l : List (Fin chunkMax), p.WellFormed minAlloc pageSize base l

theorem PageOk.bounds_of_mem {base : ℕ} {p : Page chunkMax} (h : PageOk base p) {x : Seg}
    (hx : x ∈ p.segments) : (base : ℤ) ≤ x.addr ∧ x.addr + x.size ≤ base + (pageSize : ℤ) := by
  obtain ⟨-, l, hw⟩ := h
  rw [hw.segments_eq] at hx
  exact hw.tiles.bounds_of_mem hx

/-- The pages that `mmap` returned at `bs` are well formed, the tables of the others are clear. -/
structure Inv (bs : List ℕ) (s : State) : Prop where
  pagenum : s.pagenum = bs.length
  length_le : bs.length ≤ pageMax
  mapped : ∀ (i : Fin pageMax) (hi : (i : ℕ) < bs.length), PageOk bs[(i : ℕ)] (s.page i)
  clear : ∀ i : Fin pageMax, bs.length ≤ i → ∀ j, ((s.page i).chunks j).isUsing = 0

theorem setPage_page (s : State) (i j : Fin pageMax) (p : Page chunkMax) :
    (s.setPage i p).page j = if j = i then p else s.page j := by
  simp [State.setPage, Function.update_apply]

theorem initAlloc_zero_inv : Inv [] (initAlloc State.zero) :=
  ⟨rfl, Nat.zero_le _, fun i hi => absurd hi (Nat.not_lt_zero i), fun _ _ _ => rfl⟩

section Invariant

variable {bs : List ℕ} {s : State} {i : Fin pageMax} {p : Page chunkMax} {size : ℤ}

theorem Inv.setPage (hi : Inv bs s) (hlt : (i : ℕ) < bs.length) (hp : PageOk bs[(i : ℕ)] p) :
    Inv bs (s.setPage i p) := by
  refine ⟨hi.pagenum, hi.length_le, fun j hj => ?_, fun j hj => ?_⟩
  · rw [setPage_page]
    split_ifs with hji
    · subst hji
      exact hp
    · exact hi.mapped j hj
  · have hne : j ≠ i := by
      rintro rfl
      exact absurd hlt (not_lt.mpr hj)
    rw [setPage_page, if_neg hne]
    exact hi.clear j hj

theorem Inv.grow (hi : Inv bs s) (hpn : bs.length = i) {addr : ℕ}
    (ha : addr + pageSize ≤ 2 ^ 64) :
    Inv (bs ++ [addr]) { s.setPage i ((s.page i).start addr pageSize ⟨0, by decide⟩) with
      pagenum := s.pagenum + 1 } := by
  have hlen : (bs ++ [addr]).length = bs.length + 1 := by simp
  refine ⟨?_, by omega, fun j hj => ?_, fun j hj => ?_⟩
  · rw [hlen, hi.pagenum]
    rfl
  · change PageOk _ ((s.setPage i _).page j)
    rw [setPage_page]
    by_cases hji : j = i
    · subst hji
      rw [if_pos rfl]
      have hget : (bs ++ [addr])[(j : ℕ)] = addr := by simp [← hpn]
      rw [hget]
      exact ⟨ha, [⟨0, by decide⟩],
        Page.wellFormed_start rfl (hi.clear j hpn.le) (by decide) (by decide)⟩
    · have hne : (j : ℕ) ≠ i := fun he => hji (Fin.ext he)
      have hold : (j : ℕ) < bs.length := by omega
      rw [if_neg hji, List.getElem_append_left hold]
      exact hi.mapped j hold
  · have hne : j ≠ i := by
      rintro rfl
      omega
    change ∀ k, (((s.setPage i _).page j).chunks k).isUsing = 0
    rw [setPage_page, if_neg hne]
    exact hi.clear j (by omega)

theorem Inv.slot_of_lt (hi : Inv bs s) {k : ℕ} (hk : k < bs.length) :
    ∃ i : Fin pageMax, slot pageMax (k : ℤ) = .ok i ∧ (i : ℕ) = k := by
  have hlt : k < pageMax := hk.trans_le hi.length_le
  exact ⟨⟨k, hlt⟩, slot_coe (⟨k, hlt⟩ : Fin pageMax), rfl⟩

theorem Inv.mem_range (hi : Inv bs s) : ∀ k ∈ List.range s.pagenum.toNat, k < bs.length := by
  intro k hk
  have hlt := List.mem_range.mp hk
  rw [hi.pagenum] at hlt
  exact_mod_cast hlt

theorem searchPages_inv (hi : Inv bs s) (hs : 0 < size) (hd : (minAlloc : ℤ) ∣ size)
    {is : List ℕ} (his : ∀ k ∈ is, k < bs.length) :
    (∃ a s', searchPages size is s = .ok (some (a, s')) ∧ Inv bs s') ∨
      searchPages size is s = .ok none := by
  induction is with
  | nil => exact Or.inr rfl
  | cons k is ih =>
    obtain ⟨hk, hrest⟩ := List.forall_mem_cons.mp his
    obtain ⟨i, hslot, rfl⟩ := hi.slot_of_lt hk
    obtain ⟨hb, l, hw⟩ := hi.mapped i hk
    rw [searchPages, hslot, ok_bind]
    rcases hw.allocLoop (by decide) (pageSize_eq (by decide)) (by exact_mod_cast hb) hs hd with
      ⟨a, p', l', hrun, hw', -⟩ | ⟨-, hrun | hrun⟩
    · rw [hrun, ok_bind]
      exact Or.inl ⟨a, s.setPage i p', rfl, hi.setPage hk ⟨hb, l', hw'⟩⟩
    · rw [hrun, ok_bind]
      exact ih hrest
    · rw [hrun, ok_bind]
      exact ih hrest

theorem deallocPages_inv (addr : ℕ) (hi : Inv bs s) {is : List ℕ}
    (his : ∀ k ∈ is, k < bs.length) : ∃ s', deallocPages addr is s = .ok s' ∧ Inv bs s' := by
  induction is with
  | nil => exact ⟨s, rfl, hi⟩
  | cons k is ih =>
    obtain ⟨hk, hrest⟩ := List.forall_mem_cons.mp his
    obtain ⟨i, hslot, rfl⟩ := hi.slot_of_lt hk
    obtain ⟨hb, l, hw⟩ := hi.mapped i hk
    rw [deallocPages, hslot, ok_bind]
    rcases hw.deallocLoop addr with ⟨p, hrun, ht, -, -⟩ | ⟨hrun, -⟩
    · obtain ⟨p', l', hm, hw', -⟩ := ht.mergeChunk (by decide)
      refine ⟨s.setPage i p', ?_, hi.setPage hk ⟨hb, l', hw'⟩⟩
      rw [hrun, ok_bind]
      dsimp only
      rw [hm, ok_bind]
    · rw [hrun, ok_bind]
      exact ih hrest

end Invariant

section Search

variable {size : ℤ} {s : State} {i : Fin pageMax}

/-- The search of `alloc` finds no chunk on the page. -/
def NoRoom (size : ℤ) (p : Page chunkMax) : Prop :=
  Page.allocLoop size (chunkMax + 1) p.headIdx p = .ok .lastTooSmall ∨
    Page.allocLoop size (chunkMax + 1) p.headIdx p = .ok .ranOff

theorem searchPages_append {is is' : List ℕ}
    (his : ∀ k ∈ is, ∃ j : Fin pageMax, (j : ℕ) = k ∧ NoRoom size (s.page j)) :
    searchPages size (is ++ is') s = searchPages size is' s := by
  induction is with
  | nil => rfl
  | cons k is ih =>
    obtain ⟨⟨j, rfl, hno⟩, hrest⟩ := List.forall_mem_cons.mp his
    rw [List.cons_append, searchPages, slot_coe, ok_bind]
    rcases hno with hrun | hrun
    · rw [hrun, ok_bind]
      exact ih hrest
    · rw [hrun, ok_bind]
      exact ih hrest

theorem searchPages_none (hle : s.pagenum ≤ pageMax)
    (hno : ∀ j : Fin pageMax, (j : ℤ) < s.pagenum → NoRoom size (s.page j)) :
    searchPages size (List.range s.pagenum.toNat) s = .ok none := by
  rw [← List.append_nil (List.range s.pagenum.toNat), searchPages_append]
  · rfl
  · intro k hk
    have hlt := List.mem_range.mp hk
    exact ⟨⟨k, by omega⟩, rfl, hno _ (by dsimp only; omega)⟩

theorem range_split {i n : ℕ} (h : i < n) : ∃ l, List.range n = List.range i ++ i :: l := by
  obtain ⟨m, rfl⟩ : ∃ m, n = i + (m + 1) := ⟨n - i - 1, by omega⟩
  refine ⟨(List.range m).map fun k => i + (k + 1), ?_⟩
  rw [List.range_add, List.range_succ_eq_map, List.map_cons, List.map_map]
  rfl

variable (hs : ¬(size.tmod minAlloc ≠ 0 ∨ size > pageSize))

include hs

theorem allocRec_hit (hi : (i : ℤ) < s.pagenum) (hno : ∀ j < i, NoRoom size (s.page j)) {a : ℕ}
    {p : Page chunkMax} (hrun : Page.allocLoop size (chunkMax + 1) (s.page i).headIdx (s.page i) =
      .ok (.found a p)) (fuel : ℕ) (mmap : ℕ → ℕ) :
    allocRec size (fuel + 1) mmap s = .ok (a, s.setPage i p) := by
  obtain ⟨l, hl⟩ := range_split (show (i : ℕ) < s.pagenum.toNat by omega)
  rw [allocRec, if_neg hs, hl, searchPages_append, searchPages, slot_coe, ok_bind, hrun]
  · rfl
  · intro k hk
    have hki := List.mem_range.mp hk
    exact ⟨⟨k, hki.trans i.isLt⟩, rfl, hno _ hki⟩

theorem allocRec_grow (hpn : s.pagenum = i)
    (hno : ∀ j : Fin pageMax, (j : ℤ) < s.pagenum → NoRoom size (s.page j)) (fuel : ℕ)
    (mmap : ℕ → ℕ) :
    allocRec size (fuel + 1) mmap s = allocRec size fuel (fun k => mmap (k + 1))
      { s.setPage i ((s.page i).start (mmap 0) pageSize ⟨0, by decide⟩) with
        pagenum := s.pagenum + 1 } := by
  have hlt := i.isLt
  have hne : s.pagenum ≠ pageMax := by omega
  rw [allocRec, if_neg hs, searchPages_none (by omega) hno, ok_bind]
  dsimp only
  have hslot : slot pageMax s.pagenum = .ok i := by
    rw [hpn]
    exact slot_coe i
  rw [if_neg hne, hslot, ok_bind]
  rfl

theorem allocRec_full (hpn : s.pagenum = pageMax)
    (hno : ∀ j : Fin pageMax, (j : ℤ) < s.pagenum → NoRoom size (s.page j)) (fuel : ℕ)
    (mmap : ℕ → ℕ) : allocRec size (fuel + 1) mmap s = .ok (0, s) := by
  rw [allocRec, if_neg hs, searchPages_none hpn.le hno, ok_bind]
  exact if_pos hpn

end Search

section

variable {bs : List ℕ} {s : State} {size : ℤ}

/-- A page that has just been mapped serves every valid size. -/
theorem allocLoop_newPage (hs : ValidSize minAlloc size) {p : Page chunkMax} {addr : ℕ}
    (hp : ∀ j, (p.chunks j).isUsing = 0) (ha : addr + pageSize ≤ 2 ^ 64) :
    ∃ a p' l, Page.allocLoop size (chunkMax + 1) (p.start addr pageSize ⟨0, by decide⟩).headIdx
      (p.start addr pageSize ⟨0, by decide⟩) = .ok (.found a p') ∧
      p'.WellFormed minAlloc pageSize addr l := by
  have hw : (p.start addr pageSize ⟨0, by decide⟩ : Page chunkMax).WellFormed minAlloc pageSize
      addr [⟨0, by decide⟩] := Page.wellFormed_start rfl hp (by decide) (by decide)
  rcases hw.allocLoop (by decide) (pageSize_eq (by decide)) (by exact_mod_cast ha) hs.1 hs.2.1 with
    ⟨a, p', l', hrun, hw', -⟩ | ⟨hnone, -⟩
  · exact ⟨a, p', l', hrun, hw'⟩
  · have hfit := place_eq_none_iff.mp hnone ⟨addr, pageSize, true⟩ (by simp [Page.segs, Page.start,
      Page.set, Mm.seg])
    exact absurd ⟨rfl, hs.2.2⟩ hfit

theorem noRoom_of_searchPages {is : List ℕ} (h : searchPages size is s = .ok none) {i : Fin pageMax}
    (hi : (i : ℕ) ∈ is) : NoRoom size (s.page i) := by
  induction is with
  | nil => simp at hi
  | cons k is ih =>
    obtain ⟨j, hslot, h⟩ := bind_eq_ok.mp h
    obtain ⟨found, hloop, h⟩ := bind_eq_ok.mp h
    have hk : (k : ℤ) = j := slot_eq_ok hslot
    have hhere : (i : ℕ) = k → i = j := fun he => Fin.ext (by omega)
    cases found with
    | found a p => simp at h
    | lastTooSmall =>
      rcases List.mem_cons.mp hi with he | hm
      · rw [hhere he]
        exact Or.inl hloop
      · exact ih h hm
    | ranOff =>
      rcases List.mem_cons.mp hi with he | hm
      · rw [hhere he]
        exact Or.inr hloop
      · exact ih h hm

/-- `alloc` enters the page that it maps and starts again. -/
theorem CallsMmap.alloc_eq {i : Fin pageMax} (hc : CallsMmap size s) (hpn : s.pagenum = i)
    (mmap : ℕ → ℕ) :
    alloc size mmap s = allocRec size pageMax (fun k => mmap (k + 1))
      { s.setPage i ((s.page i).start (mmap 0) pageSize ⟨0, by decide⟩) with
        pagenum := s.pagenum + 1 } := by
  obtain ⟨hguard, hsearch, hne⟩ := hc
  have hslot : slot pageMax s.pagenum = .ok i := by
    rw [hpn]
    exact slot_coe i
  rw [alloc, allocRec, if_neg hguard, hsearch, ok_bind]
  dsimp only
  rw [if_neg hne, hslot, ok_bind]
  rfl

/-- `alloc` maps one page at most, and then takes the block from a page it has. -/
theorem Inv.alloc_grow (hi : Inv bs s) (hs : 0 < size) (hc : CallsMmap size s) {mmap : ℕ → ℕ}
    (ha : mmap 0 + pageSize ≤ 2 ^ 64) :
    ∃ r s', alloc size mmap s = .ok (r, s') ∧ Inv (bs ++ [mmap 0]) s' := by
  have hguard := hc.1
  have hval : ValidSize minAlloc size := by
    push Not at hguard
    exact ⟨hs, Int.dvd_of_tmod_eq_zero hguard.1, hguard.2⟩
  have hle := hi.length_le
  have hlen : bs.length ≠ pageMax := fun he => hc.2.2 (by rw [hi.pagenum, he])
  obtain ⟨i, hpn⟩ : ∃ i : Fin pageMax, bs.length = i := ⟨⟨bs.length, by omega⟩, rfl⟩
  have hg := hi.grow hpn ha
  rw [hc.alloc_eq (hi.pagenum.trans (by exact_mod_cast hpn)), allocRec, if_neg hguard]
  rcases searchPages_inv hg hs hval.2.1 hg.mem_range with ⟨a, s', hrun, hi'⟩ | hrun
  · exact ⟨a, s', by rw [hrun, ok_bind], hi'⟩
  -- The new page is among those searched, and it has room.
  · have hmem : (i : ℕ) ∈ List.range (s.pagenum + 1).toNat := by
      rw [List.mem_range, hi.pagenum]
      omega
    have hno := noRoom_of_searchPages hrun hmem
    obtain ⟨a, p', l, hfound, -⟩ := allocLoop_newPage hval (hi.clear i hpn.le) ha
    dsimp only at hno
    rw [setPage_page, if_pos rfl, NoRoom, hfound] at hno
    simp at hno

theorem alloc_inv (hi : Inv bs s) {mmap : ℕ → ℕ} (ha : Admissible (.alloc size mmap) s) :
    ∃ r s', alloc size mmap s = .ok (r, s') ∧
      Inv (bs ++ (mapped (.alloc size mmap) s).toList) s' := by
  obtain ⟨hs, hmap⟩ := ha
  by_cases hc : CallsMmap size s
  · rw [mapped, if_pos hc]
    exact hi.alloc_grow hs hc (hmap hc)
  · rw [mapped, if_neg hc, Option.toList_none, List.append_nil, alloc, allocRec]
    by_cases hbad : size.tmod minAlloc ≠ 0 ∨ size > pageSize
    · exact ⟨0, s, if_pos hbad, hi⟩
    have hd : (minAlloc : ℤ) ∣ size := Int.dvd_of_tmod_eq_zero (by tauto)
    rw [if_neg hbad]
    rcases searchPages_inv hi hs hd hi.mem_range with ⟨a, s', hrun, hi'⟩ | hrun
    · exact ⟨a, s', by rw [hrun, ok_bind], hi'⟩
    · have hfull : s.pagenum = pageMax := by
        by_contra hne
        exact hc ⟨hbad, hrun, hne⟩
      rw [hrun, ok_bind]
      exact ⟨0, s, if_pos hfull, hi⟩

theorem exec_inv {c : Call} (hi : Inv bs s) (ha : Admissible c s) :
    ∃ r s', exec c s = .ok (r, s') ∧ Inv (bs ++ (mapped c s).toList) s' := by
  cases c with
  | alloc size mmap =>
    obtain ⟨r, s', hr, hi'⟩ := alloc_inv hi ha
    exact ⟨.ptr r, s', by rw [exec, hr]; rfl, hi'⟩
  | dealloc a =>
    obtain ⟨s', hr, hi'⟩ := deallocPages_inv a hi hi.mem_range
    rw [mapped, Option.toList_none, List.append_nil]
    exact ⟨.void, s', by rw [exec, dealloc, hr]; rfl, hi'⟩

theorem heapRun_inv {tr : List (Event State Call Ret)} (hr : HeapRun tr s) :
    Inv (mmapped tr) s := by
  refine hr.invariant_history (fun tr s => Inv (mmapped tr) s) (fun s hi => ?_)
    fun tr s c r s' hs ha he => ?_
  · rw [show s = initAlloc State.zero from hi]
    exact initAlloc_zero_inv
  · obtain ⟨r', s'', he', hi'⟩ := exec_inv hs ha
    rw [he'] at he
    obtain ⟨_, rfl⟩ := ok_pair_inj he
    rw [mmapped_cons]
    exact hi'

end

/-- In every reachable state there is one page for each `mmap`, four at most. The chunks of each
tile the page that `mmap` returned, away from those of the other pages; every chunk that can be
split finds a slot among the sixteen of its page, and no call leaves the tables. -/
theorem pages_wellFormed {tr : List (Event State Call Ret)} {s : State} (hr : HeapRun tr s)
    (hapart : (mmapped tr).Pairwise (Apart pageSize)) :
    s.pagenum = (mmapped tr).length ∧ s.pagenum ≤ pageMax ∧
    (∀ i : Fin pageMax, (i : ℤ) < s.pagenum → ∃ (base : ℕ) (l : List (Fin chunkMax)),
      (mmapped tr)[(i : ℕ)]? = some base ∧ (s.page i).WellFormed minAlloc pageSize base l ∧
      ∀ t ∈ l, ∀ size : ℤ, 0 < size → (minAlloc : ℤ) ∣ size →
        size < ((s.page i).chunks t).chunkSize →
        ∃ x : Fin chunkMax, (s.page i).findNext = x ∧ x ∉ l) ∧
    (∀ i j : Fin pageMax, (i : ℤ) < s.pagenum → (j : ℤ) < s.pagenum → i ≠ j →
      ∀ x ∈ (s.page i).segments, ∀ y ∈ (s.page j).segments,
        x.addr + x.size ≤ y.addr ∨ y.addr + y.size ≤ x.addr) ∧
    ∀ c, Admissible c s → ∃ r s', exec c s = .ok (r, s') := by
  have hi := heapRun_inv hr
  have hlt : ∀ i : Fin pageMax, (i : ℤ) < s.pagenum → (i : ℕ) < (mmapped tr).length := by
    intro i h
    rw [hi.pagenum] at h
    exact_mod_cast h
  refine ⟨hi.pagenum, ?_, fun i h => ?_, fun i j h h' hij x hx y hy => ?_, fun c ha => ?_⟩
  · rw [hi.pagenum]
    exact_mod_cast hi.length_le
  · obtain ⟨_, l, hw⟩ := hi.mapped i (hlt i h)
    exact ⟨_, l, List.getElem?_eq_getElem (hlt i h), hw, fun t ht size hs hd hsz =>
      hw.exists_findNext (by decide) (pageSize_eq (by decide)) ht hs hd hsz⟩
  · have hx' := (hi.mapped i (hlt i h)).bounds_of_mem hx
    have hy' := (hi.mapped j (hlt j h')).bounds_of_mem hy
    have hpages := List.pairwise_iff_getElem.mp hapart
    rcases Nat.lt_or_gt_of_ne fun he : (i : ℕ) = j => hij (Fin.ext he) with hlt' | hlt'
    · have hap := hpages i j (hlt i h) (hlt j h') hlt'
      unfold Apart at hap
      omega
    · have hap := hpages j i (hlt j h') (hlt i h) hlt'
      unfold Apart at hap
      omega
  · obtain ⟨r, s', he, _⟩ := exec_inv hi ha
    exact ⟨r, s', he⟩

/-- Two pages that `mmap` returned one above the other; the lower one has been split twice and
merged again. -/
theorem pages_wellFormed_second : ∃ (tr : List (Event State Call Ret)) (s : State),
    HeapRun tr s ∧ s.pagenum = 2 ∧
    (s.page 1).segments = [⟨4096, 768, true⟩, ⟨4864, 256, false⟩, ⟨5120, 3072, true⟩] ∧
    (∃ l : List (Fin chunkMax), (s.page 1).WellFormed minAlloc pageSize 4096 l) ∧
    ∀ x ∈ (s.page 0).segments, ∀ y ∈ (s.page 1).segments,
      x.addr + x.size ≤ y.addr ∨ y.addr + y.size ≤ x.addr := by
  have h : ∃ tr s, HeapRun tr s ∧ decide (s.pagenum = 2 ∧ mmapped tr = [8192, 4096] ∧
      (s.page 1).segments = [⟨4096, 768, true⟩, ⟨4864, 256, false⟩, ⟨5120, 3072, true⟩]) = true :=
    Run.exists_of_replayCheck [.alloc 3840 fun _ => 8192, .alloc 512 fun _ => 4096,
      .alloc 256 fun _ => 0, .alloc 256 fun _ => 0, .alloc 256 fun _ => 0, .dealloc 4608,
      .dealloc 4096] rfl (by decide +kernel)
  obtain ⟨tr, s, hr, hp⟩ := h
  obtain ⟨hpn, hmap, hseg⟩ := of_decide_eq_true hp
  have hapart : (mmapped tr).Pairwise (Apart pageSize) := by
    rw [hmap]
    decide
  obtain ⟨-, -, hpages, hdisj, -⟩ := pages_wellFormed hr hapart
  obtain ⟨base, l, hbase, hw, -⟩ := hpages 1 (by rw [hpn]; decide)
  rw [hmap] at hbase
  obtain rfl : 4096 = base := Option.some.inj hbase
  exact ⟨tr, s, hr, hpn, hseg, ⟨l, hw⟩,
    hdisj 0 1 (by rw [hpn]; decide) (by rw [hpn]; decide) (by decide)⟩

end SsuOs.Heap.Ealloc
