import SsuOs.Heap.Sizes

/-! What a failing `mmap` does to the two allocators. `init_alloc` of `alloc.c` tests for a pointer
below zero, and `alloc` of `ealloc.c` does not test at all, so `MAP_FAILED` becomes a page. -/
namespace SsuOs.Heap
open SsuOs.Lib

/-- `MAP_FAILED`, that is `(void *)-1`. -/
def mapFailed : ℕ := 2 ^ 64 - 1

/-- No page of two bytes or more lies there. -/
theorem ne_mapFailed {a P : ℕ} (hP : 1 < P) (ha : a + P ≤ 2 ^ 64) : a ≠ mapFailed := by
  unfold mapFailed
  omega

namespace Alloc

/-- The heap is initialised only while it is empty, and `mmap` gives a page or fails. -/
abbrev MayFail : Call → State → Prop :=
  CallOk InInt fun a => a + pageSize ≤ 2 ^ 64 ∨ a = mapFailed

abbrev FailRun : List (Event State Call Ret) → State → Prop :=
  Run exec MayFail (· = Page.fresh)

/-- The `mmap` of the call fails. -/
def MmapFails : Call → Prop
  | .initAlloc a => a = mapFailed
  | _ => False

instance (c : Call) : Decidable (MmapFails c) :=
  match c with
  | .initAlloc _ => inferInstanceAs (Decidable (_ = _))
  | .cleanup _ _ => inferInstanceAs (Decidable False)
  | .alloc _ _ => inferInstanceAs (Decidable False)
  | .dealloc _ => inferInstanceAs (Decidable False)

/-- What the event `e` behind `tr` may do when failures are contained: `init_alloc` returns 1 and
leaves the heap alone exactly if its `mmap` failed, and a pointer to a chunk that was found lies
inside a page that was mapped. -/
def Contained (tr : List (Event State Call Ret)) (e : Event State Call Ret) : Prop :=
  match e.call with
  | .initAlloc a => exec e.call e.pre = .ok (.int 1, e.pre) ↔ a = mapFailed
  | .alloc size _ => ∀ p, e.ret = .ptr p → p ≠ 0 →
      (∃ x ∈ e.pre.segments, x.free = true ∧ size ≤ x.size) →
      ∃ e' ∈ tr, ∃ a, e'.call = .initAlloc a ∧ a ≠ mapFailed ∧ a ≤ p ∧ p + size ≤ a + pageSize
  | _ => True

section

variable {tr : List (Event State Call Ret)} {h h' : State} {e : Event State Call Ret}

theorem exec_initAlloc_ne (a : ℕ) (h h' : State) : exec (.initAlloc a) h ≠ .ok (.int 1, h') := by
  intro he
  obtain ⟨hret, -⟩ := ok_pair_inj he
  rw [initAlloc, if_neg (Nat.not_lt_zero a)] at hret
  simp at hret

theorem FailRun.checked (hr : FailRun tr h) (hsize : ∀ e ∈ tr, SizeChecked minAlloc e.call.size)
    (hmap : ∀ e ∈ tr, ¬MmapFails e.call) : Run exec Checked (· = Page.fresh) tr h := by
  apply hr.of_good
  intro e hm
  have ha := hr.admissible_of_mem hm
  have hs := hsize e hm
  have hf := hmap e hm
  obtain ⟨pre, c, r⟩ := e
  cases c with
  | initAlloc a => exact ⟨ha.1, ha.2.resolve_right hf⟩
  | cleanup res junk => trivial
  | alloc size junk => exact hs size rfl
  | dealloc addr => trivial

theorem Placed.contained (hp : Placed tr e.pre) (hc : Checked e.call e.pre)
    (hrun : exec e.call e.pre = .ok (e.ret, h')) : Contained tr e := by
  obtain ⟨h, c, r⟩ := e
  dsimp only at hp hc hrun
  cases c with
  | initAlloc a =>
    constructor
    · intro he
      exact absurd he (exec_initAlloc_ne a h h)
    · intro hf
      exact absurd hf (ne_mapFailed (by decide) hc.2)
  | cleanup res junk => trivial
  | dealloc addr => trivial
  | alloc size junk =>
    rintro p hret hne ⟨x, hx, hfit⟩
    obtain rfl : r = .ptr p := hret
    obtain ⟨⟨a, t⟩, halloc, heq⟩ := map_eq_ok.mp hrun
    obtain rfl : a = p := Ret.ptr.inj (Prod.mk.inj heq).1
    rcases hp with rfl | ⟨b, L, hat, e', hm, hcall⟩
    · have hnil : (Page.fresh : State).segments = [] := rfl
      simp [hnil] at hx
    by_cases hs : ValidSize minAlloc size
    · cases hpl : place size h.segments with
      | none => exact absurd hfit (place_eq_none_iff.mp hpl x hx)
      | some y =>
        obtain ⟨h₁, L₁, halloc₁, -, -⟩ := hat.alloc_of_fit hs hpl
        have haddr := (ok_unique_pair (halloc₁ junk) halloc).1
        obtain ⟨l₁, z, l₂, hseg, -, hle, hz, -⟩ :=
          hat.2.tiles_segments.place_eq_some hs.1 hpl
        have hbounds := hat.2.tiles_segments.bounds_of_mem (s := z) (by simp [hseg])
        exact ⟨e', hm, b, hcall, ne_mapFailed (by decide) hat.1, by omega, by omega⟩
    · rw [alloc_refused (refused_iff.mpr ⟨hs, hc⟩)] at halloc
      exact absurd (ok_pair_inj halloc).1.symm hne

theorem FailRun.contained_iff (hr : FailRun tr h)
    (hsize : ∀ e ∈ tr, SizeChecked minAlloc e.call.size) :
    (∀ tr₂ e tr₁, tr = tr₂ ++ e :: tr₁ → Contained tr₁ e) ↔ ∀ e ∈ tr, ¬MmapFails e.call := by
  constructor
  · intro hall e hm hf
    obtain ⟨tr₂, tr₁, rfl⟩ := List.append_of_mem hm
    have hcont := hall tr₂ e tr₁ rfl
    obtain ⟨pre, c, r⟩ := e
    cases c with
    | initAlloc a => exact exec_initAlloc_ne a pre pre (hcont.mpr hf)
    | cleanup res junk => exact hf
    | alloc size junk => exact hf
    | dealloc addr => exact hf
  · rintro hmap tr₂ e tr₁ rfl
    obtain ⟨s', hr'⟩ := (hr.checked hsize hmap).of_append
    obtain ⟨hr₁, hc, hrun⟩ := hr'.of_cons
    exact (checkedRun_placed hr₁).contained hc hrun

end

end Alloc

namespace Ealloc

/-- A page that is mapped is a new one, or `mmap` fails. -/
abbrev MayFail : Call → State → Prop :=
  CallOk InInt fun a s => NewPage a s ∨ a = mapFailed

abbrev FailRun : List (Event State Call Ret) → State → Prop :=
  Run exec MayFail (· = initAlloc State.zero)

/-- The call gets as far as `mmap`, which fails. -/
def MmapFails (c : Call) (s : State) : Prop := Maps c s mapFailed

instance (c : Call) (s : State) : Decidable (MmapFails c s) :=
  inferInstanceAs (Decidable (Maps c s mapFailed))

/-- What the event `e` behind `tr` may do when failures are contained: `alloc` returns `NULL` and
changes nothing if its `mmap` failed, and any other pointer lies inside a page that was mapped. -/
def Contained (tr : List (Event State Call Ret)) (e : Event State Call Ret) : Prop :=
  (MmapFails e.call e.pre → exec e.call e.pre = .ok (.ptr 0, e.pre)) ∧
  match e.call with
  | .alloc size _ => ∀ p, e.ret = .ptr p → p ≠ 0 →
      ∃ e' ∈ e :: tr, ∃ a, Maps e'.call e'.pre a ∧ a ≠ mapFailed ∧ a ≤ p ∧ p + size ≤ a + pageSize
  | .dealloc _ => True

section

variable {tr : List (Event State Call Ret)} {s s' : State} {e : Event State Call Ret}

theorem FailRun.checked (hr : FailRun tr s) (hsize : ∀ e ∈ tr, SizeChecked minAlloc e.call.size)
    (hmap : ∀ e ∈ tr, ¬MmapFails e.call e.pre) :
    Run exec Checked (· = initAlloc State.zero) tr s := by
  apply hr.of_good
  intro e hm
  have ha := hr.admissible_of_mem hm
  have hs := hsize e hm
  have hf := hmap e hm
  obtain ⟨pre, c, r⟩ := e
  cases c with
  | alloc size mmap =>
    exact ⟨hs size rfl, fun hcall => (ha.2 hcall).resolve_right fun hfail =>
      hf (maps_alloc.mpr ⟨hcall, hfail⟩)⟩
  | dealloc addr => trivial

theorem Placed.contained (hp : Placed tr e.pre) (hc : Checked e.call e.pre)
    (hrun : exec e.call e.pre = .ok (e.ret, s')) (hmap : ¬MmapFails e.call e.pre) :
    Contained tr e := by
  obtain ⟨s, c, r⟩ := e
  refine ⟨fun hf => absurd hf hmap, ?_⟩
  dsimp only at hp hc hrun ⊢
  cases c with
  | dealloc addr => trivial
  | alloc size mmap =>
    rintro p rfl hne
    obtain ⟨⟨a, t⟩, halloc, heq⟩ := map_eq_ok.mp hrun
    obtain rfl : a = p := Ret.ptr.inj (Prod.mk.inj heq).1
    obtain ⟨b, L, h, hmaps⟩ := hp
    obtain ⟨hpos, hnew⟩ := hc
    by_cases hs : ValidSize minAlloc size
    · rcases h.alloc_cases hs hnew with
        ⟨i, o, L', t', hi, -, hpl, hrun', -, -⟩ | ⟨hfull, ⟨i, t', hpn, hrun', -, -⟩ | ⟨-, hrun'⟩⟩
      · have haddr := (ok_unique_pair (hrun' pageMax mmap) halloc).1
        obtain ⟨x, hx, -, hle, hxa, -⟩ := h.exists_lowest hi hs.1 hpl
        have hbounds := (h.laid i hi).tiles_segments.bounds_of_mem hx
        obtain ⟨e', hm, hmap'⟩ := hmaps i hi
        exact ⟨e', List.mem_cons_of_mem _ hm, b i, hmap', ne_mapFailed (by decide) (h.pos i hi).2,
          by omega, by omega⟩
      · have haddr := (ok_unique_pair (hrun' 3) halloc).1
        have hcall := h.callsMmap hs hpn hfull
        have hle := hs.2.2
        have hne' := ne_mapFailed (by decide) (hnew hcall).2.1
        exact ⟨_, List.mem_cons_self, mmap 0, maps_alloc.mpr ⟨hcall, rfl⟩, hne', by omega, by omega⟩
      · have haddr := (ok_unique_pair (hrun' pageMax mmap) halloc).1
        exact absurd haddr.symm hne
    · rw [alloc_refused (refused_iff.mpr ⟨hs, hpos⟩)] at halloc
      exact absurd (ok_pair_inj halloc).1.symm hne

/-- A failed `mmap` always counts as a page. -/
theorem MmapFails.exec_ne {c : Call} {r : Ret} (hf : MmapFails c s) : exec c s ≠ .ok (r, s) := by
  intro he
  cases c with
  | dealloc addr => exact absurd hf.symm (Option.some_ne_none _)
  | alloc size mmap =>
    obtain ⟨⟨a, t⟩, halloc, heq⟩ := map_eq_ok.mp he
    obtain ⟨-, rfl⟩ := Prod.mk.inj heq
    exact absurd ((maps_alloc.mp hf).1.lt_pagenum halloc) (lt_irrefl _)

theorem FailRun.contained_iff (hr : FailRun tr s)
    (hsize : ∀ e ∈ tr, SizeChecked minAlloc e.call.size) :
    (∀ tr₂ e tr₁, tr = tr₂ ++ e :: tr₁ → Contained tr₁ e) ↔
      ∀ e ∈ tr, ¬MmapFails e.call e.pre := by
  constructor
  · intro hall e hm hf
    obtain ⟨tr₂, tr₁, rfl⟩ := List.append_of_mem hm
    exact hf.exec_ne ((hall tr₂ e tr₁ rfl).1 hf)
  · rintro hmap tr₂ e tr₁ rfl
    obtain ⟨s', hr'⟩ := (hr.checked hsize hmap).of_append
    obtain ⟨hr₁, hc, hrun⟩ := hr'.of_cons
    exact (checkedRun_placed hr₁).contained hc hrun (hmap e (by simp))

end

end Ealloc

/-- In a run of either allocator whose sizes are not zero or negative multiples of `MINALLOC`, the
failures of `mmap` are contained in all calls exactly if there are none. -/
theorem failures_contained_iff {tr : List (Event Alloc.State Alloc.Call Alloc.Ret)}
    {h : Alloc.State} {tr' : List (Event Ealloc.State Ealloc.Call Ealloc.Ret)} {s : Ealloc.State}
    (hr : Alloc.FailRun tr h) (hsize : ∀ e ∈ tr, SizeChecked Alloc.minAlloc e.call.size)
    (hr' : Ealloc.FailRun tr' s) (hsize' : ∀ e ∈ tr', SizeChecked Ealloc.minAlloc e.call.size) :
    ((∀ tr₂ e tr₁, tr = tr₂ ++ e :: tr₁ → Alloc.Contained tr₁ e) ↔
      ∀ e ∈ tr, ¬Alloc.MmapFails e.call) ∧
    ((∀ tr₂ e tr₁, tr' = tr₂ ++ e :: tr₁ → Ealloc.Contained tr₁ e) ↔
      ∀ e ∈ tr', ¬Ealloc.MmapFails e.call e.pre) :=
  ⟨hr.contained_iff hsize, hr'.contained_iff hsize'⟩

/-- Every `mmap` succeeds. -/
theorem failures_contained_none :
    (∃ tr h, Alloc.FailRun tr h ∧ tr.length = 2 ∧
      ∀ tr₂ e tr₁, tr = tr₂ ++ e :: tr₁ → Alloc.Contained tr₁ e) ∧
    ∃ tr s, Ealloc.FailRun tr s ∧ s.pagenum = 2 ∧
      ∀ tr₂ e tr₁, tr = tr₂ ++ e :: tr₁ → Ealloc.Contained tr₁ e := by
  have h₁ : ∃ tr h, Alloc.FailRun tr h ∧ decide (tr.length = 2 ∧
      (∀ e ∈ tr, SizeChecked Alloc.minAlloc e.call.size) ∧
      ∀ e ∈ tr, ¬Alloc.MmapFails e.call) = true :=
    Run.exists_of_replayCheck [.initAlloc 4096, .alloc 8 0] rfl (by decide +kernel)
  have h₂ : ∃ tr s, Ealloc.FailRun tr s ∧ decide (s.pagenum = 2 ∧
      (∀ e ∈ tr, SizeChecked Ealloc.minAlloc e.call.size) ∧
      ∀ e ∈ tr, ¬Ealloc.MmapFails e.call e.pre) = true :=
    Run.exists_of_replayCheck [.alloc 4096 fun _ => 4096, .alloc 256 fun _ => 8192] rfl
      (by decide +kernel)
  obtain ⟨tr, h, hr, hp⟩ := h₁
  obtain ⟨hlen, hsize, hmap⟩ := of_decide_eq_true hp
  obtain ⟨tr', s, hr', hp'⟩ := h₂
  obtain ⟨hpn, hsize', hmap'⟩ := of_decide_eq_true hp'
  obtain ⟨hiff, hiff'⟩ := failures_contained_iff hr hsize hr' hsize'
  exact ⟨⟨tr, h, hr, hlen, hiff.mpr hmap⟩, tr', s, hr', hpn, hiff'.mpr hmap'⟩

/-- `mmap` fails in both allocators: `init_alloc` returns 0, the page count goes up, and `alloc`
returns `MAP_FAILED` as the address of a block. -/
theorem map_failed_handed_out :
    (∃ h h', Alloc.exec (.initAlloc mapFailed) Page.fresh = .ok (.int 0, h) ∧
      Alloc.FailRun [⟨Page.fresh, .initAlloc mapFailed, .int 0⟩] h ∧
      ∀ junk, Alloc.alloc 8 junk h = .ok (mapFailed, h')) ∧
    ∃ s, Ealloc.FailRun [⟨Ealloc.initAlloc Ealloc.State.zero,
      .alloc 256 fun _ => mapFailed, .ptr mapFailed⟩] s ∧ s.pagenum = 1 := by
  constructor
  · have h₀ : Alloc.FailRun [] Page.fresh := .start rfl
    have ha : Alloc.MayFail (.initAlloc mapFailed) Page.fresh := ⟨rfl, Or.inr rfl⟩
    have h₁ := h₀.step ha rfl
    have hsplit : (match Page.allocLoop 8 513 0 (Alloc.initAlloc mapFailed Page.fresh).2 with
        | .ok (.found a _) => decide (a = mapFailed)
        | _ => false) = true := by decide +kernel
    split at hsplit
    · rename_i a p hloop
      obtain rfl := of_decide_eq_true hsplit
      exact ⟨_, p, rfl, h₁, Alloc.alloc_of_found (by decide) hloop⟩
    · simp at hsplit
  · have h₀ : Ealloc.FailRun [] (Ealloc.initAlloc Ealloc.State.zero) := .start rfl
    have ha : Ealloc.MayFail (.alloc 256 fun _ => mapFailed)
        (Ealloc.initAlloc Ealloc.State.zero) := ⟨by decide, fun _ => Or.inr rfl⟩
    exact ⟨_, h₀.step ha rfl, rfl⟩

end SsuOs.Heap
