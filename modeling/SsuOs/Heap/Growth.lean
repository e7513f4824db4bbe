import SsuOs.Heap.Reuse

/-! The growing heap maps a page only when no page it has can serve the request. -/
namespace SsuOs.Heap.Ealloc
open SsuOs.Lib Page

def HasRoom (size : ℤ) (p : Page chunkMax) : Prop :=
  ∃ x ∈ p.segments, x.free = true ∧ size ≤ x.size

/-- `alloc` returns `r` without more than `n - 1` recursive calls, hence as many calls of `mmap`. -/
def ReturnsWithin (n : ℕ) (size : ℤ) (mmap : ℕ → ℕ) (s : State) (r : ℕ × State) : Prop :=
  ∀ fuel, n ≤ fuel → allocRec size fuel mmap s = .ok r

/-- The allocated blocks of `s` are still there in `s'`. -/
def KeepsBlocks (s s' : State) : Prop :=
  ∀ i : Fin pageMax, (i : ℤ) < s.pagenum → ∀ x ∈ (s.page i).segments, x.free = false →
    x ∈ (s'.page i).segments

def Maps (c : Call) (s : State) (a : ℕ) : Prop := mapped c s = some a

instance (c : Call) (s : State) (a : ℕ) : Decidable (Maps c s a) :=
  inferInstanceAs (Decidable (_ = _))

theorem maps_alloc {size : ℤ} {mmap : ℕ → ℕ} {s : State} {a : ℕ} :
    Maps (.alloc size mmap) s a ↔ CallsMmap size s ∧ mmap 0 = a := by
  simp [Maps, mapped]

/-- Sizes need not be positive, as long as the check of `alloc` refuses them. -/
abbrev Checked : Call → State → Prop := CallOk (¬Slips minAlloc ·) NewPage

/-- The pages lie where calls of the history have mapped them. -/
def Placed (tr : List (Event State Call Ret)) (s : State) : Prop :=
  ∃ b L, Mapped s b L ∧ ∀ i : Fin pageMax, (i : ℤ) < s.pagenum →
    ∃ e ∈ tr, Maps e.call e.pre (b i)

section

variable {s s' : State} {b : Fin pageMax → ℕ} {L : Fin pageMax → List Seg} {i : Fin pageMax}
  {size : ℤ}

theorem alloc_refused (hbad : size.tmod minAlloc ≠ 0 ∨ size > pageSize) (mmap : ℕ → ℕ)
    (s : State) : alloc size mmap s = .ok (0, s) :=
  if_pos hbad

theorem Mapped.hasRoom_iff (h : Mapped s b L) (hi : (i : ℤ) < s.pagenum) :
    ¬HasRoom size (s.page i) ↔ place size (L i) = none := by
  have hpl : place size (s.page i).segments = _ := (h.laid i hi).place_segments
  rw [← Option.map_eq_none_iff (f := fun x => (x.1 + b i, x.2.map (Seg.up (b i)))), ← hpl,
    place_eq_none_iff, HasRoom]
  push Not
  rfl

theorem Mapped.keepsBlocks (h : Mapped s b L) {b' : Fin pageMax → ℕ} {L' : List Seg}
    (h' : Mapped s' b' (Function.update L i L')) (hpn : s.pagenum ≤ s'.pagenum)
    (hb : ∀ j : Fin pageMax, (j : ℤ) < s.pagenum → b' j = b j)
    (hkeep : (i : ℤ) < s.pagenum → ∀ x ∈ L i, x.free = false → x ∈ L') : KeepsBlocks s s' := by
  intro j hj x hx hf
  rw [(h.laid j hj).segments_eq] at hx
  obtain ⟨y, hy, rfl⟩ := List.mem_map.mp hx
  rw [(h'.laid j (hj.trans_le hpn)).segments_eq, hb j hj, Function.update_apply]
  refine List.mem_map_of_mem ?_
  split_ifs with hji
  · subst hji
    exact hkeep hj y hy hf
  · exact hy

theorem keepsBlocks_refl (s : State) : KeepsBlocks s s := fun _ _ _ hx _ => hx

/-- A page with room serves the request by its lowest fitting chunk. -/
theorem Mapped.exists_lowest (h : Mapped s b L) (hi : (i : ℤ) < s.pagenum) (hs : 0 < size) {o : ℕ}
    {L' : List Seg} (hpl : place size (L i) = some (o, L')) :
    ∃ x ∈ (s.page i).segments, x.free = true ∧ size ≤ x.size ∧ o + b i = x.addr ∧
      ∀ y ∈ (s.page i).segments, y.free = true → size ≤ y.size → x.addr ≤ y.addr := by
  have hl := h.laid i hi
  have hseg : place size (s.page i).segments = some (o + b i, L'.map (Seg.up (b i))) := by
    rw [hl.place_segments, hpl, Option.map_some]
  obtain ⟨l₁, x, l₂, heq, hfree, hle, ha, -, hlow, -⟩ := hl.tiles_segments.place_eq_some hs hseg
  exact ⟨x, by simp [heq], hfree, hle, ha, hlow⟩

end

section History

variable {s s' : State} {tr : List (Event State Call Ret)} {r : Ret}

theorem Placed.alloc (hp : Placed tr s) {size : ℤ} {mmap : ℕ → ℕ}
    (hc : Checked (.alloc size mmap) s) (he : exec (.alloc size mmap) s = .ok (r, s')) :
    Placed (⟨s, .alloc size mmap, r⟩ :: tr) s' := by
  obtain ⟨b, L, h, hmaps⟩ := hp
  obtain ⟨hpos, hnew⟩ := hc
  obtain ⟨⟨a, t⟩, hrun, heq⟩ := map_eq_ok.mp he
  obtain ⟨-, rfl⟩ := Prod.mk.inj heq
  have hold : ∀ i : Fin pageMax, (i : ℤ) < s.pagenum →
      ∃ e ∈ (⟨s, .alloc size mmap, r⟩ :: tr : List (Event State Call Ret)),
        Maps e.call e.pre (b i) := by
    intro i hi
    obtain ⟨e, hm, hmap⟩ := hmaps i hi
    exact ⟨e, List.mem_cons_of_mem _ hm, hmap⟩
  by_cases hs : ValidSize minAlloc size
  · rcases h.alloc_cases hs hnew with
      ⟨i, o, L', s', -, -, -, hrun', hm', hpn⟩ |
        ⟨hfull, ⟨i, s', hpn, hrun', hm', hpn'⟩ | ⟨-, hrun'⟩⟩
    · obtain ⟨-, rfl⟩ := ok_unique_pair (hrun' pageMax mmap) hrun
      exact ⟨b, _, hm', fun j hj => hold j (by dsimp only at hj; omega)⟩
    · obtain ⟨-, rfl⟩ := ok_unique_pair (hrun' 3) hrun
      refine ⟨_, _, hm', fun j hj => ?_⟩
      by_cases hji : j = i
      · rw [hji, Function.update_self]
        exact ⟨_, List.mem_cons_self, maps_alloc.mpr ⟨h.callsMmap hs hpn hfull, rfl⟩⟩
      · have hne : (j : ℕ) ≠ i := fun he => hji (Fin.ext he)
        rw [Function.update_of_ne hji]
        exact hold j (by dsimp only at hj; omega)
    · obtain ⟨-, rfl⟩ := ok_unique_pair (hrun' pageMax mmap) hrun
      exact ⟨b, L, h, hold⟩
  · rw [alloc_refused (refused_iff.mpr ⟨hs, hpos⟩)] at hrun
    obtain ⟨-, rfl⟩ := ok_pair_inj hrun
    exact ⟨b, L, h, hold⟩

theorem Placed.dealloc (hp : Placed tr s) {addr : ℕ}
    (he : exec (.dealloc addr) s = .ok (r, s')) : Placed (⟨s, .dealloc addr, r⟩ :: tr) s' := by
  obtain ⟨b, L, h, hmaps⟩ := hp
  obtain ⟨t, hrun, heq⟩ := map_eq_ok.mp he
  obtain ⟨-, rfl⟩ := Prod.mk.inj heq
  obtain ⟨s', L', hrun', hm', hpn, -⟩ := h.dealloc addr
  obtain rfl := ok_unique hrun' hrun
  refine ⟨b, L', hm', fun i hi => ?_⟩
  obtain ⟨e, hm, hmap⟩ := hmaps i (by omega)
  exact ⟨e, List.mem_cons_of_mem _ hm, hmap⟩

theorem checkedRun_placed (hr : Run exec Checked (· = initAlloc State.zero) tr s) :
    Placed tr s := by
  apply hr.invariant_history Placed
  · rintro _ rfl
    refine ⟨_, _, mapped_init, fun i hi => ?_⟩
    change (i : ℤ) < 0 at hi
    omega
  · intro tr s c r s' hp hc he
    cases c with
    | alloc size mmap => exact hp.alloc hc he
    | dealloc addr => exact hp.dealloc he

end History

/-- In every reachable state a request is served by the first page with room, in its lowest fitting
chunk and without `mmap`; if no page has room, by the front of exactly one new page; and if there
are four pages already, not at all. In every case all allocated blocks stay where they are. -/
theorem grows_only_without_room {tr : List (Event State Call Ret)} {s : State} {size : ℤ}
    {mmap : ℕ → ℕ} (hr : FreshRun tr s) (hs : ValidSize minAlloc size)
    (hm : MapsFresh (.alloc size mmap) s) :
    ∃ a s', alloc size mmap s = .ok (a, s') ∧ KeepsBlocks s s' ∧
      ((∃ i : Fin pageMax, (i : ℤ) < s.pagenum ∧ HasRoom size (s.page i)) →
        ∃ i : Fin pageMax, (i : ℤ) < s.pagenum ∧ (∀ j < i, ¬HasRoom size (s.page j)) ∧
          (∃ x ∈ (s.page i).segments, x.free = true ∧ size ≤ x.size ∧ a = x.addr ∧
            ∀ y ∈ (s.page i).segments, y.free = true → size ≤ y.size → x.addr ≤ y.addr) ∧
          s'.pagenum = s.pagenum ∧ ∀ mmap', ReturnsWithin 1 size mmap' s (a, s')) ∧
      ((∀ i : Fin pageMax, (i : ℤ) < s.pagenum → ¬HasRoom size (s.page i)) →
        (s.pagenum < pageMax → ∃ i : Fin pageMax, s.pagenum = i ∧ a = mmap 0 ∧
          (s'.page i).base = a ∧ s'.pagenum = s.pagenum + 1 ∧
          ReturnsWithin 2 size mmap s (a, s')) ∧
        (¬s.pagenum < pageMax → a = 0 ∧ s' = s)) := by
  obtain ⟨b, L, h⟩ := freshRun_mapped hr
  rcases h.alloc_cases hs hm.2 with
    ⟨i, o, L', s', hi, hfull, hpl, hrun, hm', hpn⟩ |
      ⟨hfull, ⟨i, s', hpn, hrun, hm', hpn'⟩ | ⟨hpn, hrun⟩⟩
  · have hroom : HasRoom size (s.page i) := by
      by_contra hno
      simp [(h.hasRoom_iff hi).mp hno] at hpl
    refine ⟨o + b i, s', hrun pageMax mmap, ?_, fun _ => ?_, fun hno => absurd hroom (hno i hi)⟩
    · exact h.keepsBlocks hm' hpn.ge (fun _ _ => rfl) fun _ x hx hf => mem_of_place hpl hx hf
    · refine ⟨i, hi, fun j hj => ?_, h.exists_lowest hi hs.1 hpl, hpn, fun mmap' fuel hf => ?_⟩
      · have hlt : (j : ℕ) < i := hj
        exact (h.hasRoom_iff (by omega)).mpr (hfull j hj)
      · obtain ⟨k, rfl⟩ : ∃ k, fuel = k + 1 := ⟨fuel - 1, by omega⟩
        exact hrun k mmap'
  · have hno : ∀ j : Fin pageMax, (j : ℤ) < s.pagenum → ¬HasRoom size (s.page j) :=
      fun j hj => (h.hasRoom_iff hj).mpr (hfull j hj)
    have hnew : ∀ j : Fin pageMax, (j : ℤ) < s.pagenum → j ≠ i := by
      rintro j hj rfl
      omega
    refine ⟨mmap 0, s', hrun 3, ?_, fun ⟨j, hj, hroom⟩ => absurd hroom (hno j hj), fun _ =>
      ⟨fun _ => ⟨i, hpn, rfl, ?_, hpn', fun fuel hf => ?_⟩, fun hge => ?_⟩⟩
    · refine h.keepsBlocks hm' (by omega) (fun j hj => ?_) fun hi => absurd rfl (hnew i hi)
      rw [Function.update_of_ne (hnew j hj)]
    · rw [(hm'.laid i (by omega)).base_eq pageSize_pos, Function.update_self]
    · obtain ⟨k, rfl⟩ : ∃ k, fuel = k + 2 := ⟨fuel - 2, by omega⟩
      exact hrun k
    · have := i.isLt
      omega
  · refine ⟨0, s, hrun pageMax mmap, keepsBlocks_refl s, fun ⟨j, hj, hroom⟩ => ?_, fun _ =>
      ⟨fun hlt => ?_, fun _ => ⟨rfl, rfl⟩⟩⟩
    · exact absurd hroom ((h.hasRoom_iff hj).mpr (hfull j hj))
    · omega

/-- The second of two pages has room for the block. -/
theorem grows_only_without_room_second : ∃ s s' : State, s.pagenum = 2 ∧ s'.pagenum = 2 ∧
    ∃ a, alloc 1024 (fun _ => 12288) s = .ok (a, s') := by
  have h : ∃ tr s, FreshRun tr s ∧ decide (s.pagenum = 2 ∧
      MapsFresh (.alloc 1024 fun _ => 12288) s ∧
      ∃ x ∈ (s.page 1).segments, x.free = true ∧ 1024 ≤ x.size) = true :=
    Run.exists_of_replayCheck [.alloc 3584 fun _ => 4096, .alloc 1024 fun _ => 8192] rfl
      (by decide +kernel)
  obtain ⟨tr, s, hr, hp⟩ := h
  obtain ⟨hpn, hm, hroom⟩ := of_decide_eq_true hp
  have hs : ValidSize minAlloc 1024 := by decide
  obtain ⟨a, s', hrun, -, hhit, -⟩ := grows_only_without_room hr hs hm
  obtain ⟨i, -, -, -, hpn', -⟩ := hhit ⟨1, by rw [hpn]; decide, hroom⟩
  exact ⟨s, s', hpn, hpn'.trans hpn, a, hrun⟩

end SsuOs.Heap.Ealloc
