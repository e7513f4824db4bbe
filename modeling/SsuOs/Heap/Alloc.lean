import SsuOs.Lib.Except
import SsuOs.Lib.Run
import SsuOs.Heap.PageLayout

/-! The single-page heap of `alloc.c`. -/
namespace SsuOs.Heap.Alloc
open SsuOs.Lib

abbrev minAlloc : ℕ := 8

abbrev chunkMax : ℕ := pageSize / minAlloc

/-- The globals `head_idx` and `chunks`. -/
abbrev State := Page chunkMax

/-- `init_alloc`, given what `mmap` returned. The source's error test compares a pointer
with `0`, so it never holds. -/
def initAlloc (addr : ℕ) (h : State) : ℤ × State :=
  if addr < 0 then (1, h) else (0, h.start addr pageSize ⟨0, by decide⟩)

/-- `cleanup`, given the result of `munmap`; the second component is the address it unmaps.
On an empty heap that address is read from before the table and may be anything. -/
def cleanup (res : ℤ) (junk : ℕ) (h : State) : (ℤ × ℕ) × State :=
  let addr := match slot chunkMax h.headIdx with
    | .ok i => (h.chunks i).addr
    | .error _ => junk
  ((if res < 0 then 1 else 0, addr), Page.fresh)

/-- `alloc`. Running off the list returns the uninitialised `new.addr`. -/
def alloc (size : ℤ) (junk : ℕ) (h : State) : Except Fault (ℕ × State) :=
  if size.tmod minAlloc ≠ 0 ∨ size > pageSize then .ok (0, h)
  else do
    match ← Page.allocLoop size (chunkMax + 1) h.headIdx h with
    | .found addr h' => .ok (addr, h')
    | .lastTooSmall => .ok (0, h)
    | .ranOff => .ok (junk, h)

def dealloc (addr : ℕ) (h : State) : Except Fault State := do
  match ← Page.deallocLoop addr (chunkMax + 1) h.headIdx h with
  | some h' => h'.mergeChunk
  | none => h.mergeChunk

inductive Call
  | initAlloc (mmapped : ℕ)
  | cleanup (res : ℤ) (junk : ℕ)
  | alloc (size : ℤ) (junk : ℕ)
  | dealloc (addr : ℕ)

def Call.size : Call → Option ℤ
  | .alloc size _ => some size
  | _ => none

inductive Ret
  | int (r : ℤ)
  | ptr (addr : ℕ)
  | void

def exec : Call → State → Except Fault (Ret × State)
  | .initAlloc a, h => .ok (.int (initAlloc a h).1, (initAlloc a h).2)
  | .cleanup res junk, h => .ok (.int (cleanup res junk h).1.1, (cleanup res junk h).2)
  | .alloc size junk, h => (alloc size junk h).map fun r => (.ptr r.1, r.2)
  | .dealloc a, h => (dealloc a h).map fun h' => (.void, h')

/-- The heap is initialised only while it is empty, `mmap` returns a `page`, and the sizes are
`ok`. -/
def CallOk (ok : ℤ → Prop) (page : ℕ → Prop) : Call → State → Prop
  | .initAlloc a, h => h.headIdx = -1 ∧ page a
  | .alloc size _, _ => ok size
  | _, _ => True

instance (ok : ℤ → Prop) (page : ℕ → Prop) [DecidablePred ok] [DecidablePred page] (c : Call)
    (h : State) : Decidable (CallOk ok page c h) :=
  match c with
  | .initAlloc _ => inferInstanceAs (Decidable (_ ∧ _))
  | .cleanup _ _ => inferInstanceAs (Decidable True)
  | .alloc size _ => inferInstanceAs (Decidable (ok size))
  | .dealloc _ => inferInstanceAs (Decidable True)

/-- `mmap` succeeds with a page inside the address space, and sizes are positive. -/
abbrev Admissible : Call → State → Prop := CallOk (0 < ·) (· + pageSize ≤ 2 ^ 64)

/-- Any sequence of admissible calls from program start. -/
abbrev HeapRun : List (Event State Call Ret) → State → Prop :=
  Run exec Admissible (· = Page.fresh)

/-- What `mmap` returned to the last `init_alloc` of the history. -/
def mmapped (tr : List (Event State Call Ret)) : Option ℕ :=
  tr.findSome? fun e => match e.call with
    | .initAlloc a => some a
    | _ => none

/-- The heap is empty or holds one well-formed page, the one that was mapped last. -/
def Inv (tr : List (Event State Call Ret)) (h : State) : Prop :=
  h = Page.fresh ∨ ∃ (base : ℕ) (l : List (Fin chunkMax)), mmapped tr = some base ∧
    base + pageSize ≤ 2 ^ 64 ∧ h.WellFormed minAlloc pageSize base l

theorem mergeChunk_fresh {n : ℕ} : (Page.fresh : Page n).mergeChunk = .ok Page.fresh := by
  simp [Page.mergeChunk, Page.mergeLoop, Page.fresh]

section

variable {tr : List (Event State Call Ret)} {h : State}

theorem alloc_inv {size : ℤ} (junk : ℕ) (hi : Inv tr h) (hs : 0 < size) :
    ∃ r h', alloc size junk h = .ok (r, h') ∧ Inv tr h' := by
  unfold alloc
  split_ifs with hbad
  · exact ⟨0, h, rfl, hi⟩
  have hd : (minAlloc : ℤ) ∣ size := Int.dvd_of_tmod_eq_zero (by tauto)
  rcases hi with rfl | ⟨base, l, hbase, hb, hw⟩
  · exact ⟨junk, Page.fresh, rfl, Or.inl rfl⟩
  · rcases hw.allocLoop (by decide) (pageSize_eq (by decide)) (by exact_mod_cast hb) hs hd with
      ⟨a, h', l', hrun, hw', -⟩ | ⟨-, hrun | hrun⟩
    · exact ⟨a, h', by rw [hrun]; rfl, Or.inr ⟨base, l', hbase, hb, hw'⟩⟩
    · exact ⟨0, h, by rw [hrun]; rfl, Or.inr ⟨base, l, hbase, hb, hw⟩⟩
    · exact ⟨junk, h, by rw [hrun]; rfl, Or.inr ⟨base, l, hbase, hb, hw⟩⟩

theorem dealloc_inv (addr : ℕ) (hi : Inv tr h) :
    ∃ h', dealloc addr h = .ok h' ∧ Inv tr h' := by
  unfold dealloc
  rcases hi with rfl | ⟨base, l, hbase, hb, hw⟩
  · refine ⟨Page.fresh, ?_, Or.inl rfl⟩
    rw [show Page.deallocLoop addr (chunkMax + 1) Page.fresh.headIdx (Page.fresh : State) =
      .ok none by simp [Page.fresh, Page.deallocLoop]]
    exact mergeChunk_fresh
  · rcases hw.deallocLoop addr with ⟨h', hrun, ht, -, -⟩ | ⟨hrun, -⟩
    · obtain ⟨h'', l'', hm, hw'', -⟩ := ht.mergeChunk (by decide)
      exact ⟨h'', by rw [hrun]; exact hm, Or.inr ⟨base, l'', hbase, hb, hw''⟩⟩
    · obtain ⟨h'', l'', hm, hw'', -⟩ := hw.toTiled.mergeChunk (by decide)
      exact ⟨h'', by rw [hrun]; exact hm, Or.inr ⟨base, l'', hbase, hb, hw''⟩⟩

theorem exec_inv {c : Call} (hi : Inv tr h) (ha : Admissible c h) :
    ∃ r h', exec c h = .ok (r, h') ∧ ∀ r', Inv (⟨h, c, r'⟩ :: tr) h' := by
  cases c with
  | initAlloc a =>
    refine ⟨_, _, rfl, fun _ => Or.inr ⟨a, [⟨0, by decide⟩], rfl, ha.2, ?_⟩⟩
    rcases hi with rfl | ⟨base, l, -, -, hw⟩
    · exact Page.wellFormed_start rfl (fun _ => rfl) (by decide) (by decide)
    · obtain ⟨t, l, rfl⟩ := List.exists_cons_of_ne_nil (hw.ne_nil (by decide))
      have := hw.path.head_eq
      have := ha.1
      omega
  | cleanup res junk => exact ⟨_, _, rfl, fun _ => Or.inl rfl⟩
  | alloc size junk =>
    obtain ⟨r, h', hr, hi'⟩ := alloc_inv junk hi ha
    exact ⟨.ptr r, h', by rw [exec, hr]; rfl, fun _ => hi'⟩
  | dealloc a =>
    obtain ⟨h', hr, hi'⟩ := dealloc_inv a hi
    exact ⟨.void, h', by rw [exec, hr]; rfl, fun _ => hi'⟩

theorem heapRun_inv (hr : HeapRun tr h) : Inv tr h := by
  refine hr.invariant_history Inv (fun _ hi => Or.inl hi) fun tr s c r s' hs ha he => ?_
  obtain ⟨r', s'', he', hi'⟩ := exec_inv hs ha
  rw [he'] at he
  obtain ⟨_, rfl⟩ := ok_pair_inj he
  exact hi' r

end

/-- In every reachable state of an initialised heap the chunk list is acyclic, visits exactly the
slots in use and tiles the page that `mmap` returned in separated multiples of `MINALLOC`; every
chunk that can be split finds a free slot, and no call leaves the table. -/
theorem heap_wellFormed {tr : List (Event State Call Ret)} {h : State} (hr : HeapRun tr h)
    (hinit : h.headIdx ≠ -1) :
    ∃ (base : ℕ) (l : List (Fin chunkMax)), mmapped tr = some base ∧
      h.WellFormed minAlloc pageSize base l ∧
      (∀ t ∈ l, ∀ size : ℤ, 0 < size → (minAlloc : ℤ) ∣ size → size < (h.chunks t).chunkSize →
        ∃ x : Fin chunkMax, h.findNext = x ∧ x ∉ l) ∧
      ∀ c, Admissible c h → ∃ r h', exec c h = .ok (r, h') := by
  have hi := heapRun_inv hr
  rcases heapRun_inv hr with rfl | ⟨base, l, hbase, hb, hw⟩
  · exact absurd rfl hinit
  · refine ⟨base, l, hbase, hw, fun t ht size hs hd hlt => ?_, fun c ha => ?_⟩
    · exact hw.exists_findNext (by decide) (pageSize_eq (by decide)) ht hs hd hlt
    · obtain ⟨r, h', he, _⟩ := exec_inv hi ha
      exact ⟨r, h', he⟩

/-- The second page of a run, behind three splits and a merge. -/
theorem heap_wellFormed_merged : ∃ (tr : List (Event State Call Ret)) (h : State),
    HeapRun tr h ∧
    h.segments = [⟨8192, 24, true⟩, ⟨8216, 8, false⟩, ⟨8224, 4064, true⟩] ∧
    ∃ l : List (Fin chunkMax), h.WellFormed minAlloc pageSize 8192 l := by
  have h₀ : ∃ tr h, HeapRun tr h ∧ decide (h.headIdx ≠ -1 ∧ mmapped tr = some 8192 ∧
      h.segments = [⟨8192, 24, true⟩, ⟨8216, 8, false⟩, ⟨8224, 4064, true⟩]) = true :=
    Run.exists_of_replayCheck [.initAlloc 4096, .alloc 8 0, .cleanup 0 0, .initAlloc 8192,
      .alloc 8 0, .alloc 16 0, .alloc 8 0, .dealloc 8192, .dealloc 8200] rfl (by decide +kernel)
  obtain ⟨tr, h, hr, hp⟩ := h₀
  obtain ⟨hinit, hlast, hseg⟩ := of_decide_eq_true hp
  obtain ⟨base, l, hbase, hw, -⟩ := heap_wellFormed hr hinit
  obtain rfl : 8192 = base := Option.some.inj (hlast.symm.trans hbase)
  exact ⟨tr, h, hr, hseg, l, hw⟩

end SsuOs.Heap.Alloc
