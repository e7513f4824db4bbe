import SsuOs.Xv6.PageTable

/-! What `allocuvm`, `deallocuvm`, `freevm` and `copyuvm` make of an address space, while whoever
else holds pages keeps them. -/
namespace SsuOs.Xv6
open SsuOs.Lib

/-- The directory `d` with all pages under it, beside the holders `E` of other pages. -/
def Owns (L : Layout) (m : Phys) (d : ℕ) (E : ℕ → ℕ) : Prop :=
  Held L m (frames d (m.tree d) + (userPages (m.tree d) + E))

/-- Page `v` as a process sees it: its flags and its content. -/
def Phys.view (m : Phys) (d v : ℕ) : Option (UInt32 × Page) :=
  ((m.tree d).get v).map fun e => (e.flags, m.page e.page)

/-- The pages from `lo` to `hi` have become `c`, and no other page of anybody has changed. -/
structure Becomes (d : ℕ) (E : ℕ → ℕ) (lo hi : ℕ) (c : Option (UInt32 × Page)) (m m' : Phys) :
    Prop where
  kept : Kept E m m'
  entry : ∀ w, w < nPages → kernBase ≤ w ∨ w < lo ∨ hi ≤ w →
    (m'.tree d).get w = (m.tree d).get w
  user : ∀ w, w < kernBase → m'.view d w = if lo ≤ w ∧ w < hi then c else m.view d w
  dir : DirOk (m.tree d) → DirOk (m'.tree d)

section

variable {L : Layout} {m m' : Phys} {d v : ℕ} {E : ℕ → ℕ} {n : RadixNode nPtEntries Pte Pte}

theorem view_eq_none : m.view d v = none ↔ (m.tree d).get v = none := by
  simp [Phys.view]

theorem view_of_kept {w : ℕ} (hk : Kept (userPages (m'.tree d)) m m') (hw : w < kernBase)
    (hget : (m'.tree d).get w = (m.tree d).get w) : m'.view d w = m.view d w := by
  unfold Phys.view
  cases he : (m.tree d).get w with
  | none => rw [hget, he, Option.map_none, Option.map_none]
  | some e =>
    have hpage := hk _ (userPages_entry hw (hget.trans he))
    rw [hget, he, Option.map_some, Option.map_some, hpage]

theorem userPage_some {e : Pte} (hv : v < kernBase) : userPage v (some e) = only e.page := by
  ext x
  simp [userPage, hv]

theorem kernBase_lt : kernBase < nPages := by decide

theorem exists_table {t : PageTable} {e : Pte} (h : t.get v = some e) :
    ∃ n, t (pdx v) = some n := by
  rw [← Option.ne_none_iff_exists']
  intro hnone
  rw [Radix.get_of_none hnone] at h
  cases h

theorem Owns.split (h : Owns L m d E) (hv : v < kernBase) {e : Pte}
    (he : (m.tree d).get v = some e) :
    Held L m (frames d (m.tree d) + (userPages ((m.tree d).put v none) + E) + only e.page) := by
  obtain ⟨n, hn⟩ := exists_table he
  have hput := userPages_put (hv.trans kernBase_lt) hn none
  rw [he, userPage_some hv, userPage_none, add_zero] at hput
  refine Held.congr h fun x => ?_
  rw [← hput]
  simp only [Pi.add_apply]
  omega

theorem Held.ne_only {A : ℕ → ℕ} {x y : ℕ} (h : Held L m (A + only x)) (hy : A y ≠ 0) : y ≠ x := by
  rintro rfl
  have hle := h.le_one y
  rw [Pi.add_apply, only_self] at hle
  omega

theorem Owns.unmap (h : Owns L m d E) (hv : v < kernBase) (hn : m.tree d (pdx v) = some n) {e : Pte}
    (he : (m.tree d).get v = some e) : ∃ m₁, m.kfree L e.page = .ok m₁ ∧
      Owns L (m₁.set n.tag.page (ptx v) 0) d E ∧
      Becomes d E v (v + 1) none m (m₁.set n.tag.page (ptx v) 0) := by
  have hvn := hv.trans kernBase_lt
  have hheld := h.split hv he
  obtain ⟨m₁, hfree, hsame, h₁⟩ := hheld.kfree
  -- nobody else holds the page that is freed
  have hne := fun y => hheld.ne_only (y := y)
  have htree : m₁.tree d = m.tree d := by
    refine tree_of_kept fun x hx => hsame x (hne x ?_)
    rw [Pi.add_apply]
    omega
  rw [← htree] at h₁ hn
  have hset := h₁.tree_set hn 0
  rw [Pte.ofWord_zero, htree] at hset
  have hkept : Kept (userPages ((m.tree d).put v none) + E) m (m₁.set n.tag.page (ptx v) 0) := by
    intro y hy
    have hyn : y ≠ n.tag.page := by
      rintro rfl
      exact frames_table hn (h₁.frame_ne (by rwa [htree]))
    rw [Phys.set_page, if_neg hyn]
    refine hsame y (hne y ?_)
    rw [Pi.add_apply]
    omega
  have hget : ∀ w, w < nPages → ((m₁.set n.tag.page (ptx v) 0).tree d).get w =
      if w = v then none else (m.tree d).get w := by
    intro w hw
    rw [hset]
    rw [htree] at hn
    exact Radix.get_put hvn hw hn none
  refine ⟨m₁, hfree, ?_, hkept.mono fun x => ?_, fun w hwn hw => ?_, fun w hw => ?_, fun hdir => ?_⟩
  · rw [Owns, hset, frames_put]
    rw [htree] at h₁
    refine h₁.set ?_ _ _
    rw [htree] at hn
    have htab := frames_table (d := d) hn
    rw [Pi.add_apply]
    omega
  · rw [Pi.add_apply]
    omega
  · rw [hget w hwn, if_neg]
    omega
  · have hwn := hw.trans kernBase_lt
    by_cases hwv : w = v
    · rw [if_pos (by omega), view_eq_none, hget w hwn, if_pos hwv]
    · rw [if_neg (by omega)]
      refine view_of_kept ?_ hw ?_
      · rw [hset]
        refine hkept.mono fun x => ?_
        rw [Pi.add_apply]
        omega
      · rw [hget w hwn, if_neg hwv]
  · rw [hset]
    exact hdir.put none

theorem Becomes.kernel {lo hi : ℕ} {c : Option (UInt32 × Page)} (h : Becomes d E lo hi c m m')
    (w : ℕ) (hw : kernBase ≤ w) (hwn : w < nPages) : (m'.tree d).get w = (m.tree d).get w :=
  h.entry w hwn (.inl hw)

theorem Becomes.refl {lo hi : ℕ} (hle : hi ≤ lo) (c : Option (UInt32 × Page)) :
    Becomes d E lo hi c m m := by
  refine ⟨Kept.refl E m, fun _ _ _ => rfl, fun w _ => ?_, id⟩
  rw [if_neg (by omega)]

theorem Becomes.trans {a b c : ℕ} {o : Option (UInt32 × Page)} {m'' : Phys}
    (h : Becomes d E a b o m m') (h' : Becomes d E b c o m' m'') (hab : a ≤ b) (hbc : b ≤ c) :
    Becomes d E a c o m m'' := by
  refine ⟨h.kept.trans h'.kept, fun w hwn hw => ?_, fun w hw => ?_, fun hdir => h'.dir (h.dir hdir)⟩
  · rw [h'.entry w hwn (by omega), h.entry w hwn (by omega)]
  · rw [h'.user w hw, h.user w hw]
    split_ifs <;> first | rfl | omega

theorem Becomes.mono {F : ℕ → ℕ} {lo hi : ℕ} {c : Option (UInt32 × Page)}
    (h : Becomes d E lo hi c m m') (hle : ∀ x, F x ≤ E x) : Becomes d F lo hi c m m' :=
  ⟨h.kept.mono hle, h.entry, h.user, h.dir⟩

/-- An address space that is the same for everybody. -/
def Same (d : ℕ) (E : ℕ → ℕ) (m m' : Phys) : Prop := Becomes d E 0 0 none m m'

theorem Same.then {lo hi : ℕ} {c : Option (UInt32 × Page)} {m'' : Phys} (h : Same d E m m')
    (h' : Becomes d E lo hi c m' m'') : Becomes d E lo hi c m m'' := by
  refine ⟨h.kept.trans h'.kept, fun w hwn hw => ?_, fun w hw => ?_, fun hdir => h'.dir (h.dir hdir)⟩
  · rw [h'.entry w hwn hw, h.entry w hwn (by omega)]
  · have hsame := h.user w hw
    rw [if_neg (by omega)] at hsame
    rw [h'.user w hw, hsame]

theorem Becomes.then_same {lo hi : ℕ} {c : Option (UInt32 × Page)} {m'' : Phys}
    (h : Becomes d E lo hi c m m') (h' : Same d E m' m'') : Becomes d E lo hi c m m'' := by
  refine ⟨h.kept.trans h'.kept, fun w hwn hw => ?_, fun w hw => ?_, fun hdir => h'.dir (h.dir hdir)⟩
  · rw [h'.entry w hwn (by omega), h.entry w hwn hw]
  · rw [h'.user w hw, if_neg (by omega), h.user w hw]

theorem same_of_kept (hk : Kept (frames d (m.tree d) + (userPages (m.tree d) + E)) m m') :
    Same d E m m' := by
  have htree : m'.tree d = m.tree d := by
    refine tree_of_kept (hk.mono fun x => ?_)
    rw [Pi.add_apply]
    omega
  refine ⟨hk.mono fun x => ?_, fun w _ _ => by rw [htree], fun w hw => ?_, fun hdir => htree ▸ hdir⟩
  · simp only [Pi.add_apply]
    omega
  · rw [if_neg (by omega)]
    refine view_of_kept (hk.mono fun x => ?_) hw (by rw [htree])
    rw [htree]
    simp only [Pi.add_apply]
    omega

/-- Pages of a directory entry without a page table are not mapped. -/
theorem Becomes.skip {stop : ℕ} (hn : m.tree d (pdx v) = none)
    (h : Becomes d E ((v / nPtEntries + 1) * nPtEntries) stop none m m') :
    Becomes d E v stop none m m' := by
  have hge : v < (v / nPtEntries + 1) * nPtEntries := by
    unfold nPtEntries
    omega
  refine ⟨h.kept, fun w hwn hw => h.entry w hwn (by omega), fun w hw => ?_, h.dir⟩
  rw [h.user w hw]
  by_cases hin : v ≤ w ∧ w < stop
  · rw [if_pos hin]
    split_ifs with hlo
    · rfl
    · rw [view_eq_none]
      refine Radix.get_of_none ?_
      have hdiv : w / nPtEntries = v / nPtEntries := by
        unfold nPtEntries at *
        omega
      rw [Radix.upper, hdiv]
      exact hn
  · rw [if_neg hin, if_neg (by omega)]

theorem Layout.first_pos (L : Layout) : 0 < L.first :=
  L.extmem_pos.trans (L.extmem_lt.trans_le L.data_le)

theorem Owns.deallocLoop (h : Owns L m d E) {stop fuel : ℕ} (hstop : stop ≤ kernBase)
    (hfuel : stop ≤ v + fuel) : ∃ m', Phys.deallocLoop L d stop fuel v m = .ok m' ∧
      Owns L m' d E ∧ Becomes d E v stop none m m' := by
  induction fuel generalizing v m with
  | zero => exact ⟨m, rfl, h, .refl hfuel none⟩
  | succ fuel ih =>
    rw [Phys.deallocLoop]
    by_cases hlt : v < stop
    swap
    · exact ⟨m, if_neg hlt, h, .refl (not_lt.mp hlt) none⟩
    have hv := hlt.trans_le hstop
    rw [if_pos hlt]
    cases hn : m.tree d (pdx v) with
    | none =>
      rw [Phys.walkpgdir_none hn]
      have hge : v + 1 ≤ (v / nPtEntries + 1) * nPtEntries := by
        unfold nPtEntries
        omega
      obtain ⟨m', hloop, ho, hb⟩ := ih h (v := (v / nPtEntries + 1) * nPtEntries) (by omega)
      exact ⟨m', hloop, ho, hb.skip hn⟩
    | some n =>
      rw [Phys.walkpgdir_some hn]
      have hget := m.tree_get hn
      cases he : (m.tree d).get v with
      | none =>
        rw [he] at hget
        have hpres := Pte.ofWord_eq_none.mp hget.symm
        obtain ⟨m', hloop, ho, hb⟩ := ih h (v := v + 1) (by omega)
        refine ⟨m', ?_, ho, ?_⟩
        · dsimp only
          rw [if_neg (not_not.mpr hpres)]
          exact hloop
        · refine .trans (b := v + 1) ⟨.refl E m, fun _ _ _ => rfl, fun w _ => ?_, id⟩ hb (by omega)
            (by omega)
          split_ifs with hw
          · obtain rfl : w = v := by omega
            exact view_eq_none.mpr he
          · rfl
      | some e =>
        rw [he] at hget
        obtain ⟨hpres, haddr, -⟩ := Pte.ofWord_eq_some hget.symm
        obtain ⟨m₁, hfree, ho₁, hb₁⟩ := h.unmap hv hn he
        obtain ⟨m', hloop, ho, hb⟩ := ih ho₁ (v := v + 1) (by omega)
        refine ⟨m', ?_, ho, hb₁.trans hb (by omega) (by omega)⟩
        have hpos : e.page ≠ 0 := by
          have hin := (Held.in_pool h (x := e.page) (by
            have huser := userPages_entry hv he
            simp only [Pi.add_apply]
            omega)).1
          have hfirst := L.first_pos
          omega
        dsimp only
        rw [if_pos hpres, haddr, if_neg hpos, hfree]
        exact hloop

theorem pages_mono {a b : ℕ} (h : a ≤ b) : pages a ≤ pages b :=
  Nat.div_le_div_right (by omega)

theorem pages_le_kernBase {sz : ℕ} (h : sz ≤ kernBase * pgSize) : pages sz ≤ kernBase := by
  unfold pages pgSize kernBase at *
  omega

theorem Owns.deallocuvm (h : Owns L m d E) {oldsz : ℕ} (hsz : oldsz ≤ kernBase * pgSize)
    (newsz : ℕ) :
    ∃ m', m.deallocuvm L d oldsz newsz = .ok (min oldsz newsz, m') ∧ Owns L m' d E ∧
      Becomes d E (pages newsz) (pages oldsz) none m m' := by
  unfold Phys.deallocuvm
  by_cases hle : oldsz ≤ newsz
  · exact ⟨m, by rw [if_pos hle, min_eq_left hle], h, .refl (pages_mono hle) none⟩
  · obtain ⟨m', hloop, ho, hb⟩ := h.deallocLoop (pages_le_kernBase hsz)
      (Nat.le_add_left (pages oldsz) (pages newsz))
    exact ⟨m', by rw [if_neg hle, hloop, min_eq_right (by omega)]; rfl, ho, hb⟩

/-- A page for a new use; all pages that are held stay as they are. -/
theorem Held.alloc {A : ℕ → ℕ} (h : Held L m A) : m.kalloc = (none, m) ∨ ∃ x m₁,
    m.kalloc = (some x, m₁) ∧ m₁.page = m.page ∧
      ∀ c, Held L (m₁.fill x c) (A + only x) ∧ Kept A m (m₁.fill x c) := by
  rcases h.kalloc with hnone | ⟨x, m₁, hsome, hpage, hfresh, h₁⟩
  · exact .inl hnone
  · refine .inr ⟨x, m₁, hsome, hpage, fun c => ⟨h₁.fill ?_ c, fun y hy => ?_⟩⟩
    · rw [Pi.add_apply, only_self]
      omega
    · have hyx : y ≠ x := by
        rintro rfl
        exact hy hfresh
      rw [Phys.fill_page, if_neg hyx, hpage]

theorem Owns.kalloc (h : Owns L m d E) : m.kalloc = (none, m) ∨ ∃ x m₁,
    m.kalloc = (some x, m₁) ∧ m₁.page = m.page ∧ ∀ c, Owns L (m₁.fill x c) d (E + only x) ∧
      Same d E m (m₁.fill x c) ∧ (m₁.fill x c).tree d = m.tree d := by
  rcases Held.alloc h with hnone | ⟨x, m₁, hsome, hpage, halloc⟩
  · exact .inl hnone
  · refine .inr ⟨x, m₁, hsome, hpage, fun c => ?_⟩
    obtain ⟨h₁, hk⟩ := halloc c
    have htree : (m₁.fill x c).tree d = m.tree d := by
      refine tree_of_kept (hk.mono fun y => ?_)
      rw [Pi.add_apply]
      omega
    refine ⟨?_, same_of_kept hk, htree⟩
    rw [Owns, htree]
    refine h₁.congr fun y => ?_
    simp only [Pi.add_apply]
    omega

theorem Owns.kfree {x : ℕ} (h : Owns L m d (E + only x)) : ∃ m', m.kfree L x = .ok m' ∧
    Owns L m' d E ∧ Same d E m m' := by
  have hheld : Held L m (frames d (m.tree d) + (userPages (m.tree d) + E) + only x) := by
    refine Held.congr h fun y => ?_
    simp only [Pi.add_apply]
    omega
  obtain ⟨m', hfree, hsame, h'⟩ := hheld.kfree
  have hk : Kept (frames d (m.tree d) + (userPages (m.tree d) + E)) m m' := by
    intro y hy
    refine hsame y ?_
    rintro rfl
    have hle := hheld.le_one y
    rw [Pi.add_apply, only_self] at hle
    omega
  refine ⟨m', hfree, ?_, same_of_kept hk⟩
  have htree : m'.tree d = m.tree d := by
    refine tree_of_kept (hk.mono fun y => ?_)
    rw [Pi.add_apply]
    omega
  rw [Owns, htree]
  exact h'

theorem Owns.mappages {x : ℕ} {perm : UInt32} (h : Owns L m d (E + only x)) (hv : v < kernBase)
    (hperm : perm.toNat < pgSize) (hnone : (m.tree d).get v = none) :
    m.mappages d v 1 x perm = .ok (false, m) ∨ ∃ m', m.mappages d v 1 x perm = .ok (true, m') ∧
      Owns L m' d E ∧ (m'.tree d).get v = some ⟨x, perm ||| pteP⟩ ∧
      Becomes d E v (v + 1) (some (perm ||| pteP, m.page x)) m m' := by
  have hvn := hv.trans kernBase_lt
  have hx : x < nPages := by
    refine Held.lt_nPages h ?_
    simp only [Pi.add_apply, only_self]
    omega
  rcases Held.mappages h hvn hx hperm hnone with
    hfail | ⟨m', hmap, h', hkept, hget, huser, hdir⟩
  · exact .inl hfail
  right
  rw [userPage_some hv] at huser
  refine ⟨m', hmap, ?_, by rw [hget v hvn, if_pos rfl], hkept.mono fun y => ?_,
    fun w hwn hw => ?_, fun w hw => ?_, hdir⟩
  · rw [Owns, huser]
    refine h'.congr fun y => ?_
    simp only [Pi.add_apply]
    omega
  · simp only [Pi.add_apply]
    omega
  · rw [hget w hwn, if_neg (by omega)]
  · have hwn := hw.trans kernBase_lt
    by_cases hwv : w = v
    · have hpage : m'.page x = m.page x := by
        refine hkept x ?_
        simp only [Pi.add_apply, only_self]
        omega
      rw [if_pos (by omega), Phys.view, hget w hwn, if_pos hwv, Option.map_some, hpage]
    · rw [if_neg (by omega)]
      refine view_of_kept ?_ hw (by rw [hget w hwn, if_neg hwv])
      rw [huser]
      refine hkept.mono fun y => ?_
      simp only [Pi.add_apply]
      omega

def freshPage : Option (UInt32 × Page) := some (pteW ||| pteU ||| pteP, fun _ => 0)

theorem Owns.allocLoop (h : Owns L m d E) {oldsz newsz k : ℕ} (hnew : newsz ≤ kernBase * pgSize)
    (hold : pages oldsz ≤ v) (hk : v + k = pages newsz)
    (hnone : ∀ w, v ≤ w → w < pages newsz → m.view d w = none) :
    ∃ r m', Phys.allocLoop L d oldsz newsz k v m = .ok (r, m') ∧ Owns L m' d E ∧
      (r = newsz ∧ Becomes d E v (pages newsz) freshPage m m' ∨
        r = 0 ∧ Becomes d E (pages oldsz) (pages newsz) none m m') := by
  have hpages := pages_le_kernBase hnew
  induction k generalizing v m with
  | zero => exact ⟨newsz, m, rfl, h, .inl ⟨rfl, .refl (by omega) _⟩⟩
  | succ k ih =>
    have hv : v < kernBase := by omega
    rw [Phys.allocLoop]
    rcases h.kalloc with hfail | ⟨x, m₁, hsome, -, halloc⟩
    · obtain ⟨m', hde, ho, hb⟩ := h.deallocuvm hnew oldsz
      rw [hfail]
      dsimp only
      rw [hde]
      exact ⟨0, m', rfl, ho, .inr ⟨rfl, hb⟩⟩
    obtain ⟨h₂, hsame, htree⟩ := halloc fun _ => 0
    have hget : ((m₁.fill x fun _ => 0).tree d).get v = none := by
      rw [htree]
      exact view_eq_none.mp (hnone v le_rfl (by omega))
    rw [hsome]
    dsimp only
    have hperm : (pteW ||| pteU).toNat < pgSize := by decide
    rcases h₂.mappages hv hperm hget with hmap | ⟨m₃, hmap, h₃, -, hb₃⟩
    · obtain ⟨m₃, hde, ho, hb⟩ := h₂.deallocuvm hnew oldsz
      obtain ⟨m', hfree, h', hs'⟩ := ho.kfree
      rw [hmap, ok_bind]
      dsimp only
      rw [if_neg Bool.false_ne_true, hde, ok_bind]
      dsimp only
      rw [hfree]
      refine ⟨0, m', rfl, h', .inr ⟨rfl, hsame.then ((hb.mono fun y => ?_).then_same hs')⟩⟩
      rw [Pi.add_apply]
      omega
    · rw [hmap, ok_bind]
      dsimp only
      rw [if_pos rfl]
      have hfresh : (m₁.fill x fun _ => 0).page x = fun _ => 0 := by
        rw [Phys.fill_page, if_pos rfl]
      rw [hfresh] at hb₃
      have hb₁ := hsame.then hb₃
      obtain ⟨r, m', hloop, ho, hr⟩ := ih h₃ (v := v + 1) (by omega) (by omega) fun w hw hwn => by
        rw [hb₁.user w (by omega), if_neg (by omega)]
        exact hnone w (by omega) hwn
      refine ⟨r, m', hloop, ho, ?_⟩
      rcases hr with ⟨hr, hb⟩ | ⟨hr, hb⟩
      · exact .inl ⟨hr, hb₁.trans hb (by omega) (by omega)⟩
      · refine .inr ⟨hr, hb₁.kept.trans hb.kept, fun w hwn hw => ?_, fun w hw => ?_,
          fun hdir => hb.dir (hb₁.dir hdir)⟩
        · rw [hb.entry w hwn hw, hb₁.entry w hwn (by omega)]
        · rw [hb.user w hw, hb₁.user w hw]
          split_ifs <;> first | rfl | omega

/-- `allocuvm` either adds zeroed pages up to the new size, or leaves the process as it was. -/
theorem Owns.allocuvm (h : Owns L m d E) {oldsz : ℕ}
    (hnone : ∀ w, pages oldsz ≤ w → w < kernBase → m.view d w = none) (newsz : ℕ) :
    ∃ r m', m.allocuvm L d oldsz newsz = .ok (r, m') ∧ Owns L m' d E ∧
      (r = max oldsz newsz ∧ newsz < kernBase * pgSize ∧
        Becomes d E (pages oldsz) (pages newsz) freshPage m m' ∨ r = 0 ∧ Same d E m m') := by
  unfold Phys.allocuvm
  by_cases hbig : kernBase * pgSize ≤ newsz
  · exact ⟨0, m, if_pos hbig, h, .inr ⟨rfl, .refl le_rfl _⟩⟩
  rw [if_neg hbig]
  have hnew : newsz ≤ kernBase * pgSize := by omega
  have hpages := pages_le_kernBase hnew
  by_cases hlt : newsz < oldsz
  · refine ⟨oldsz, m, if_pos hlt, h, .inl ⟨by omega, by omega, .refl (pages_mono hlt.le) _⟩⟩
  rw [if_neg hlt]
  have hmono := pages_mono (not_lt.mp hlt)
  obtain ⟨r, m', hloop, ho, hr⟩ := h.allocLoop (k := pages newsz - pages oldsz) hnew le_rfl
    (by omega) fun w hw hwn => hnone w hw (by omega)
  refine ⟨r, m', hloop, ho, ?_⟩
  rcases hr with ⟨hr, hb⟩ | ⟨hr, hb⟩
  · exact .inl ⟨by omega, by omega, hb⟩
  · have hview : ∀ w, w < kernBase → m'.view d w = m.view d w := by
      intro w hw
      rw [hb.user w hw]
      split_ifs with hin
      · exact (hnone w hin.1 hw).symm
      · rfl
    refine .inr ⟨hr, hb.kept, fun w hwn _ => ?_, fun w hw => ?_, hb.dir⟩
    · by_cases hin : kernBase ≤ w ∨ w < pages oldsz ∨ pages newsz ≤ w
      · exact hb.entry w hwn hin
      · have hbefore := hnone w (by omega) (by omega)
        have hafter := hview w (by omega)
        rw [hbefore, view_eq_none] at hafter
        rw [hafter, view_eq_none.mp hbefore]
    · rw [hview w hw, if_neg (by omega)]

theorem userPages_eq_zero {t : PageTable} (h : ∀ v, v < kernBase → t.get v = none) :
    userPages t = 0 := by
  ext x
  refine Radix.entrySum_eq_zero fun v e hv he => ?_
  rw [if_neg]
  intro hlt
  rw [h v hlt] at he
  cases he

/-- The page tables that are left, in the order in which `freevm` frees them. -/
def tablesOf (t : PageTable) (l : List (Fin nPtEntries)) : List ℕ :=
  l.filterMap fun i => (t i).map fun n => n.tag.page

theorem count_tablesOf (t : PageTable) (x : ℕ) (l : List (Fin nPtEntries)) :
    (tablesOf t l).count x = (l.map fun i => (t i).elim 0 fun n => only n.tag.page x).sum := by
  induction l with
  | nil => rfl
  | cons i l ih =>
    rw [List.map_cons, List.sum_cons, ← ih, tablesOf, List.filterMap_cons]
    cases t i with
    | none => exact (Nat.zero_add _).symm
    | some n => exact (count_cons_only _ _ _).trans (Nat.add_comm _ _)

theorem frames_eq (d : ℕ) (t : PageTable) (x : ℕ) :
    frames d t x = only d x + (tablesOf t (List.finRange nPtEntries)).count x := by
  rw [count_tablesOf, ← Fin.sum_univ_def]
  rfl

theorem Held.freeTables {A : ℕ → ℕ}
    (h : Held L m (only d + A +
      fun x => (tablesOf (m.tree d) (List.finRange nPtEntries)).count x)) :
    ∃ m', m.freeTables L d = .ok m' ∧ Held L m' (only d + A) ∧ Kept (only d + A) m m' := by
  have hloop := foldlM_ok
    (f := fun (m' : Phys) (i : Fin nPtEntries) =>
      if m'.page d i &&& pteP ≠ 0 then m'.kfree L (pteAddr (m'.page d i)) else .ok m')
    (fun l m' => Kept (only d + A) m m' ∧
      Held L m' (only d + A + fun x => (tablesOf (m.tree d) l).count x))
    ?_ (l := List.finRange nPtEntries) ⟨Kept.refl _ m, h⟩
  · obtain ⟨m', hm', hk, hheld⟩ := hloop
    exact ⟨m', hm', hheld.congr fun x => by simp [tablesOf], hk⟩
  rintro i l m₁ ⟨hk, h₁⟩
  have hdir : m₁.page d = m.page d := hk d (by simp)
  rw [hdir]
  cases he : Pte.ofWord (m.page d i) with
  | none =>
    refine ⟨m₁, if_neg (not_not.mpr (Pte.ofWord_eq_none.mp he)), hk, h₁.congr fun x => ?_⟩
    simp [tablesOf, Phys.tree, he]
  | some e =>
    obtain ⟨hp, ha, -⟩ := Pte.ofWord_eq_some he
    have htables : tablesOf (m.tree d) (i :: l) = e.page :: tablesOf (m.tree d) l := by
      simp [tablesOf, Phys.tree, he]
    have hheld : Held L m₁ ((only d + A + fun x => (tablesOf (m.tree d) l).count x) +
        only e.page) := by
      refine h₁.congr fun x => ?_
      simp only [Pi.add_apply, htables, count_cons_only]
      omega
    obtain ⟨m₂, hfree, hsame, h₂⟩ := hheld.kfree
    refine ⟨m₂, by rw [if_pos hp, ha, hfree], hk.trans fun y hy => hsame y ?_, h₂⟩
    rintro rfl
    have hle := hheld.le_one e.page
    rw [Pi.add_apply, Pi.add_apply, only_self] at hle
    omega

theorem Owns.freevm (h : Owns L m d E) :
    ∃ m', m.freevm L d = .ok m' ∧ Held L m' E ∧ Kept E m m' := by
  obtain ⟨m₁, hde, h₁, hb⟩ := h.deallocuvm le_rfl 0
  have hnone : ∀ v, v < kernBase → (m₁.tree d).get v = none := by
    intro v hv
    rw [← view_eq_none, hb.user v hv, if_pos]
    have hzero : pages 0 = 0 := rfl
    have hall : pages (kernBase * pgSize) = kernBase := by decide
    omega
  have hheld : Held L m₁ (only d + E +
      fun x => (tablesOf (m₁.tree d) (List.finRange nPtEntries)).count x) := by
    refine Held.congr h₁ fun x => ?_
    simp only [Pi.add_apply, userPages_eq_zero hnone, Pi.zero_apply, frames_eq]
    omega
  obtain ⟨m₂, htables, h₂, hk₂⟩ := hheld.freeTables
  have hlast : Held L m₂ (E + only d) := h₂.congr fun x => by
    simp only [Pi.add_apply]
    omega
  obtain ⟨m', hfree, hsame, h'⟩ := hlast.kfree
  refine ⟨m', ?_, h', fun y hy => ?_⟩
  · rw [Phys.freevm, hde, ok_bind]
    dsimp only
    rw [htables, ok_bind, hfree]
  · have hyd : y ≠ d := by
      rintro rfl
      have hle := hlast.le_one y
      rw [Pi.add_apply, only_self] at hle
      omega
    rw [hsame y hyd, hk₂ y, hb.kept y hy]
    rw [Pi.add_apply]
    omega

/-- A process has no access to the pages of the kernel. -/
def KernelOk (t : PageTable) : Prop :=
  ∀ w, kernBase ≤ w → w < nPages → ∀ e, t.get w = some e → e.flags &&& pteU = 0

/-- An address space without pages of a process. -/
structure IsBare (L : Layout) (m : Phys) (d : ℕ) (E : ℕ → ℕ) : Prop where
  owns : Owns L m d E
  bare : ∀ w, w < kernBase → m.view d w = none
  kernel : KernelOk (m.tree d)
  dir : DirOk (m.tree d)

/-- A line of `kmap` that `mappages` can work on. -/
structure Kmap.Ok (k : Kmap) : Prop where
  virt : kernBase ≤ k.virt
  size_pos : 0 < k.size
  virt_le : k.virt + k.size ≤ nPages
  phys_le : k.physStart + k.size ≤ nPages
  perm_lt : k.perm.toNat < pgSize
  user : (k.perm ||| pteP) &&& pteU = 0

theorem IsBare.mapKmap (h : IsBare L m d E) {k : Kmap} (hk : k.Ok)
    (hnone : ∀ w, k.virt ≤ w → w < nPages → (m.tree d).get w = none) : ∃ mapped m',
      m.mappages d k.virt k.size k.physStart k.perm = .ok (mapped, m') ∧ Kept E m m' ∧
      Owns L m' d E ∧ (mapped = true → IsBare L m' d E ∧
        ∀ w, k.virt + k.size ≤ w → w < nPages → (m'.tree d).get w = none) := by
  have hvirt := hk.virt
  have hpos := hk.size_pos
  have hle := hk.virt_le
  have hphys := hk.phys_le
  have hcount : (k.size + nPages - 1) % nPages = k.size - 1 := by
    have hlt : k.size ≤ nPages := by omega
    have hsub : k.size + nPages - 1 = k.size - 1 + nPages := by omega
    rw [hsub, Nat.add_mod_right, Nat.mod_eq_of_lt (by omega)]
  have hphys : k.physStart + (k.size - 1) < nPages := by omega
  obtain ⟨mapped, m', hloop, hr⟩ := Held.mapLoop h.owns hvirt (by omega) hphys hk.perm_lt
    fun w hw hw' => hnone w hw (by omega)
  have howns : Owns L m' d E := by
    rw [Owns, hr.user]
    exact hr.held
  refine ⟨mapped, m', by rw [Phys.mappages, hcount, hloop], hr.kept.mono fun x => ?_, howns,
    fun hm => ⟨⟨howns, fun w hw => ?_, fun w hw hwn e he => ?_, hr.dir h.dir⟩, fun w hw hwn => ?_⟩⟩
  · rw [Pi.add_apply]
    omega
  · rw [view_eq_none, hr.below w (by omega)]
    exact view_eq_none.mp (h.bare w hw)
  · rcases lt_or_ge w k.virt with hlt | hge
    · rw [hr.below w hlt] at he
      exact h.kernel w hw hwn e he
    rcases lt_or_ge (k.virt + (k.size - 1)) w with hlt | hin
    · rw [hr.above w hlt hwn, hnone w hge hwn] at he
      cases he
    · rw [hr.inside hm w hge hin] at he
      obtain rfl := Option.some.inj he
      exact hk.user
  · rw [hr.above w (by omega) hwn]
    exact hnone w (by omega) hwn

theorem IsBare.kmapLoop (h : IsBare L m d E) {ks : List Kmap} (hks : ∀ k ∈ ks, k.Ok)
    (hsorted : ks.Pairwise fun a b => a.virt + a.size ≤ b.virt)
    (hnone : ∀ k ∈ ks, ∀ w, k.virt ≤ w → w < nPages → (m.tree d).get w = none) : ∃ r m',
      Phys.kmapLoop L d ks m = .ok (r, m') ∧ Kept E m m' ∧
      (r = none ∧ Held L m' E ∨ r = some d ∧ IsBare L m' d E) := by
  induction ks generalizing m with
  | nil => exact ⟨some d, m, rfl, .refl E m, .inr ⟨rfl, h⟩⟩
  | cons k ks ih =>
    obtain ⟨hk, hks⟩ := List.forall_mem_cons.mp hks
    obtain ⟨hnone₁, hnone⟩ := List.forall_mem_cons.mp hnone
    obtain ⟨hfirst, hsorted⟩ := List.pairwise_cons.mp hsorted
    obtain ⟨mapped, m₁, hmap, hkept, howns, hbare⟩ := h.mapKmap hk hnone₁
    rw [Phys.kmapLoop, hmap, ok_bind]
    dsimp only
    cases mapped with
    | true =>
      obtain ⟨hb, habove⟩ := hbare rfl
      obtain ⟨r, m', hloop, hkept', hr⟩ := ih hb hks hsorted fun k' hk' w hw hwn =>
        habove w ((hfirst k' hk').trans hw) hwn
      exact ⟨r, m', hloop, hkept.trans hkept', hr⟩
    | false =>
      obtain ⟨m', hfree, hheld, hkept'⟩ := howns.freevm
      rw [if_neg Bool.false_ne_true, hfree]
      exact ⟨none, m', rfl, hkept.trans hkept', .inl ⟨rfl, hheld⟩⟩

theorem Layout.kmap_ok (L : Layout) : ∀ k ∈ L.kmap, k.Ok := by
  obtain ⟨extmem, data, first, early, phystop, devspace, h₁, h₂, h₃, h₄, h₅, h₆, h₇, h₈⟩ := L
  intro k hk
  simp only [Layout.kmap, List.mem_cons, List.not_mem_nil, or_false] at hk
  unfold kernBase nPages nPtEntries at *
  rcases hk with rfl | rfl | rfl | rfl <;>
    constructor <;> simp only [Kmap.size, kernBase, nPages, nPtEntries] <;> first | omega | decide

theorem Layout.kmap_sorted (L : Layout) :
    L.kmap.Pairwise fun a b => a.virt + a.size ≤ b.virt := by
  obtain ⟨extmem, data, first, early, phystop, devspace, h₁, h₂, h₃, h₄, h₅, h₆, h₇, h₈⟩ := L
  unfold kernBase nPages nPtEntries at *
  simp only [Layout.kmap, Kmap.size, kernBase, nPages, nPtEntries, List.pairwise_cons,
    List.mem_cons, List.not_mem_nil, or_false, forall_eq_or_imp, forall_eq, List.Pairwise.nil,
    IsEmpty.forall_iff, implies_true, and_true]
  omega

/-- `setupkvm` makes an address space, or gives back the pages it has taken. -/
theorem Held.setupkvm (h : Held L m E) : ∃ r m', m.setupkvm L = .ok (r, m') ∧ Kept E m m' ∧
    (r = none ∧ Held L m' E ∨ ∃ d, r = some d ∧ IsBare L m' d E) := by
  unfold Phys.setupkvm
  rcases h.alloc with hfail | ⟨d, m₁, hsome, -, halloc⟩
  · rw [hfail]
    exact ⟨none, m, rfl, .refl E m, .inl ⟨rfl, h⟩⟩
  obtain ⟨h₁, hkept⟩ := halloc fun _ => 0
  have htree : (m₁.fill d fun _ => 0).tree d = fun _ => none := by
    funext i
    rw [Phys.tree, Phys.fill_page, if_pos rfl]
    rfl
  have hget : ∀ w, ((m₁.fill d fun _ => 0).tree d).get w = none := by
    intro w
    rw [htree]
    rfl
  have hbare : IsBare L (m₁.fill d fun _ => 0) d E := by
    refine ⟨?_, fun w _ => view_eq_none.mpr (hget w), fun w _ _ e he => ?_, fun i n hn => ?_⟩
    · rw [Owns, userPages_eq_zero fun w _ => hget w, htree]
      refine h₁.congr fun x => ?_
      simp only [Pi.add_apply, Pi.zero_apply, frames, Radix.tagSum, Option.elim_none,
        Finset.sum_const_zero]
      omega
    · rw [hget] at he
      cases he
    · rw [htree] at hn
      cases hn
  obtain ⟨r, m', hloop, hkept', hr⟩ := hbare.kmapLoop L.kmap_ok L.kmap_sorted
    fun _ _ w _ _ => hget w
  rw [hsome]
  refine ⟨r, m', ?_, hkept.trans hkept', ?_⟩
  · dsimp only
    rw [if_neg (not_lt.mpr L.phystop_le), hloop]
  · rcases hr with hr | hr
    · exact .inl hr
    · exact .inr ⟨d, hr⟩

theorem pteFlags_or_pteP {w : UInt32} (h : w &&& pteP ≠ 0) : pteFlags w ||| pteP = pteFlags w := by
  rw [Ne, and_pteP_eq_zero] at h
  rw [← UInt32.toNat_inj, UInt32.toNat_or, pteFlags_toNat]
  change w.toNat % pgSize ||| 1 = w.toNat % pgSize
  have hsplit := Nat.two_pow_add_eq_or_of_lt (i := 1) (b := 1) (by decide) (w.toNat % pgSize / 2)
  have hodd : w.toNat % pgSize = 2 ^ 1 * (w.toNat % pgSize / 2) + 1 := by
    unfold pgSize
    omega
  rw [hodd, hsplit, Nat.or_assoc, Nat.or_self]

theorem Kept.other {d : ℕ} (hk : Kept E m m')
    (hp : ∀ x, (frames d (m.tree d) + userPages (m.tree d)) x ≤ E x) :
    m'.tree d = m.tree d ∧ ∀ w, w < kernBase → m'.view d w = m.view d w := by
  have htree : m'.tree d = m.tree d := by
    refine tree_of_kept (hk.mono fun x => le_trans ?_ (hp x))
    rw [Pi.add_apply]
    omega
  refine ⟨htree, fun w hw => view_of_kept (hk.mono fun x => le_trans ?_ (hp x)) hw (by rw [htree])⟩
  rw [htree, Pi.add_apply]
  omega

/-- The copies of the pages from `v` on, in the directory `c`. -/
structure Copies (L : Layout) (d c : ℕ) (E : ℕ → ℕ) (v k : ℕ) (copied : Bool) (m m' : Phys) :
    Prop where
  owns : Owns L m' c E
  kept : Kept E m m'
  kernel : ∀ w, kernBase ≤ w → w < nPages → (m'.tree c).get w = (m.tree c).get w
  dir : DirOk (m.tree c) → DirOk (m'.tree c)
  user : copied = true → ∀ w, w < kernBase →
    m'.view c w = if v ≤ w ∧ w < v + k then m.view d w else m.view c w

theorem Owns.copyLoop {c k : ℕ} (h : Owns L m c E)
    (hp : ∀ x, (frames d (m.tree d) + userPages (m.tree d)) x ≤ E x) (hk : v + k ≤ kernBase)
    (hmapped : ∀ w, v ≤ w → w < v + k → m.view d w ≠ none)
    (hempty : ∀ w, v ≤ w → w < v + k → m.view c w = none) : ∃ copied m',
      Phys.copyLoop L d c k v m = .ok (copied, m') ∧ Copies L d c E v k copied m m' := by
  induction k generalizing v m with
  | zero =>
    refine ⟨true, m, rfl, h, .refl E m, fun _ _ _ => rfl, id, fun _ w _ => ?_⟩
    rw [if_neg (by omega)]
  | succ k ih =>
    have hv : v < kernBase := by omega
    obtain ⟨e, he⟩ := Option.ne_none_iff_exists'.mp
      (mt view_eq_none.mpr (hmapped v le_rfl (by omega)))
    obtain ⟨n, hn⟩ := exists_table he
    have hget := m.tree_get hn
    rw [he] at hget
    obtain ⟨hpres, haddr, hflags⟩ := Pte.ofWord_eq_some hget.symm
    rw [Phys.copyLoop, Phys.walkpgdir_some hn]
    dsimp only
    rw [if_neg hpres, haddr]
    rcases h.kalloc with hfail | ⟨x, m₁, hsome, hpage, halloc⟩
    · rw [hfail]
      exact ⟨false, m, rfl, h, .refl E m, fun _ _ _ => rfl, id, nofun⟩
    obtain ⟨h₂, hsame, htree⟩ := halloc (m₁.page e.page)
    have hnone : ((m₁.fill x (m₁.page e.page)).tree c).get v = none := by
      rw [htree]
      exact view_eq_none.mp (hempty v le_rfl (by omega))
    have hperm : (pteFlags (m.page n.tag.page (ptx v))).toNat < pgSize := by
      rw [pteFlags_toNat]
      exact Nat.mod_lt _ (by decide)
    rw [hsome]
    dsimp only
    rcases h₂.mappages hv hperm hnone with hmap | ⟨m₃, hmap, h₃, -, hb₃⟩
    · obtain ⟨m', hfree, h', hs'⟩ := h₂.kfree
      have hall := hsame.then hs'
      rw [hmap, ok_bind]
      dsimp only
      rw [if_neg Bool.false_ne_true, hfree]
      exact ⟨false, m', rfl, h', hall.kept, hall.kernel, hall.dir, nofun⟩
    · rw [hmap, ok_bind]
      dsimp only
      rw [if_pos rfl]
      have hb := hsame.then hb₃
      obtain ⟨hd, hview⟩ := hb.kept.other hp
      have hcopy : (some (pteFlags (m.page n.tag.page (ptx v)) ||| pteP,
          (m₁.fill x (m₁.page e.page)).page x) : Option (UInt32 × Page)) = m.view d v := by
        rw [pteFlags_or_pteP hpres, hflags, Phys.fill_page, if_pos rfl, hpage, Phys.view, he,
          Option.map_some]
      rw [hcopy] at hb
      obtain ⟨copied, m', hloop, hr⟩ := ih h₃ (v := v + 1) (by rwa [hd]) (by omega)
        (fun w hw hw' => by rw [hview w (by omega)]; exact hmapped w (by omega) (by omega))
        (fun w hw hw' => by
          rw [hb.user w (by omega), if_neg (by omega)]
          exact hempty w (by omega) (by omega))
      refine ⟨copied, m', hloop, hr.owns, hb.kept.trans hr.kept, fun w hw hwn => ?_,
        fun hdir => hr.dir (hb.dir hdir), fun hc w hw => ?_⟩
      · rw [hr.kernel w hw hwn, hb.kernel w hw hwn]
      · rw [hr.user hc w hw, hview w hw, hb.user w hw]
        by_cases hwv : w = v
        · subst hwv
          rw [if_neg (by omega), if_pos (by omega), if_pos (by omega)]
        · split_ifs <;> first | rfl | omega

/-- `copyuvm` makes an address space with the same pages, or gives back what it has taken. -/
theorem Held.copyuvm (h : Held L m E)
    (hp : ∀ x, (frames d (m.tree d) + userPages (m.tree d)) x ≤ E x) {sz : ℕ}
    (hsz : sz ≤ kernBase * pgSize) (hmapped : ∀ w, w < pages sz → m.view d w ≠ none) : ∃ r m',
      m.copyuvm L d sz = .ok (r, m') ∧ Kept E m m' ∧ (r = none ∧ Held L m' E ∨
        ∃ c, r = some c ∧ Owns L m' c E ∧ KernelOk (m'.tree c) ∧ DirOk (m'.tree c) ∧
          ∀ w, w < kernBase → m'.view c w = if w < pages sz then m.view d w else none) := by
  have hpages := pages_le_kernBase hsz
  obtain ⟨r, m₁, hsetup, hkept, hr⟩ := h.setupkvm
  rw [Phys.copyuvm, hsetup, ok_bind]
  rcases hr with ⟨rfl, h₁⟩ | ⟨c, rfl, hb⟩
  · exact ⟨none, m₁, rfl, hkept, .inl ⟨rfl, h₁⟩⟩
  obtain ⟨hd, hview⟩ := hkept.other hp
  obtain ⟨copied, m₂, hloop, hc⟩ := hb.owns.copyLoop (d := d) (v := 0) (k := pages sz) (by rwa [hd])
    (by omega) (fun w _ hw => by rw [hview w (by omega)]; exact hmapped w (by omega))
    (fun w _ hw => hb.bare w (by omega))
  dsimp only
  rw [hloop, ok_bind]
  dsimp only
  cases copied with
  | true =>
    refine ⟨some c, m₂, rfl, hkept.trans hc.kept, .inr ⟨c, rfl, hc.owns, fun w hw hwn e he => ?_,
      hc.dir hb.dir, fun w hw => ?_⟩⟩
    · rw [hc.kernel w hw hwn] at he
      exact hb.kernel w hw hwn e he
    · rw [hc.user rfl w hw, hview w hw, hb.bare w hw]
      split_ifs <;> first | rfl | omega
  | false =>
    obtain ⟨m', hfree, hheld, hkept'⟩ := hc.owns.freevm
    rw [if_neg Bool.false_ne_true, hfree]
    exact ⟨none, m', rfl, (hkept.trans hc.kept).trans hkept', .inl ⟨rfl, hheld⟩⟩

theorem Owns.fill (h : Owns L m d E) (hv : v < kernBase) {e : Pte}
    (he : (m.tree d).get v = some e) (c : Page) : Owns L (m.fill e.page c) d E ∧
      Becomes d E v (v + 1) (some (e.flags, c)) m (m.fill e.page c) ∧
      (m.fill e.page c).tree d = m.tree d := by
  have hsplit := h.split hv he
  have hother : ∀ y, (frames d (m.tree d) + (userPages ((m.tree d).put v none) + E)) y ≠ 0 →
      (m.fill e.page c).page y = m.page y := by
    intro y hy
    rw [Phys.fill_page, if_neg (hsplit.ne_only hy)]
  have htree : (m.fill e.page c).tree d = m.tree d := by
    refine tree_of_kept fun y hy => hother y ?_
    rw [Pi.add_apply]
    omega
  have hmine : (frames d (m.tree d) + (userPages (m.tree d) + E)) e.page ≠ 0 := by
    have hne := userPages_entry hv he
    simp only [Pi.add_apply]
    omega
  refine ⟨?_, ⟨fun y hy => hother y ?_, fun w _ _ => by rw [htree], fun w hw => ?_,
    fun hdir => htree ▸ hdir⟩, htree⟩
  · rw [Owns, htree]
    exact Held.fill h hmine c
  · simp only [Pi.add_apply]
    omega
  · by_cases hwv : w = v
    · subst hwv
      rw [if_pos (by omega), Phys.view, htree, he, Option.map_some, Phys.fill_page, if_pos rfl]
    · rw [if_neg (by omega), Phys.view, Phys.view, htree]
      cases hew : (m.tree d).get w with
      | none => rfl
      | some e' =>
        have hput : ((m.tree d).put v none).get w = some e' := by
          obtain ⟨n, hn⟩ := exists_table he
          rw [Radix.get_put (hv.trans kernBase_lt) (hw.trans kernBase_lt) hn, if_neg hwv, hew]
        have hne := userPages_entry hw hput
        rw [Option.map_some, Option.map_some, hother e'.page]
        simp only [Pi.add_apply]
        omega

theorem pteFlags_and {w access : UInt32} (ha : access &&& (pteP ||| pteW ||| pteU) = access) :
    pteFlags w &&& access = w &&& access := by
  have hmask : (0xFFF : UInt32) &&& access = access := by
    rw [← ha, UInt32.and_comm access, ← UInt32.and_assoc]
    rfl
  rw [pteFlags, UInt32.and_assoc, hmask]

/-- An entry without a flag `b` that the access asks for. -/
theorem and_access_ne {w access b : UInt32} (hb : b ≠ 0) (hp : access &&& b = b)
    (hw : w &&& b = 0) : w &&& access ≠ access := by
  intro heq
  have hz : w &&& access &&& b = 0 := by
    rw [UInt32.and_assoc, hp, hw]
  rw [heq, hp] at hz
  exact hb hz

/-- What the processor keeps of an entry of a page table. -/
def Pte.cached (e : Pte) : TlbEntry := ⟨e.page, e.flags &&& (pteP ||| pteW ||| pteU)⟩

theorem Pte.grant_cached (e : Pte) {access : UInt32}
    (ha : access &&& (pteP ||| pteW ||| pteU) = access) :
    e.cached.grant access = if e.flags &&& access = access then some e.page else none := by
  rw [TlbEntry.grant, Pte.cached]
  dsimp only
  rw [UInt32.and_assoc, UInt32.and_comm _ access, ha]

/-- The processor's walk, when the directory grants all that the entries may. -/
theorem Phys.walk_eq (hdir : DirOk (m.tree d)) :
    m.walk d v = ((m.tree d).get v).map Pte.cached := by
  unfold Phys.walk
  dsimp only
  cases hn : m.tree d (pdx v) with
  | none =>
    have hw : m.page d (pdx v) &&& pteP = 0 := by
      rw [Phys.tree, Option.map_eq_none_iff] at hn
      exact Pte.ofWord_eq_none.mp hn
    rw [Radix.get_of_none hn, Option.map_none, if_pos (.inl hw)]
  | some n =>
    have hget := m.tree_get hn
    rw [Phys.tree, Option.map_eq_some_iff] at hn
    obtain ⟨e, he, rfl⟩ := hn
    obtain ⟨hpres, haddr, hflags⟩ := Pte.ofWord_eq_some he
    have hpde : m.page d (pdx v) &&& (pteP ||| pteW ||| pteU) = pteP ||| pteW ||| pteU := by
      have hall := hdir (pdx v) ⟨e, fun j => Pte.ofWord (m.page e.page j)⟩ (by
        rw [Phys.tree, he, Option.map_some])
      rw [← pteFlags_and (by decide), hflags, hall]
      decide
    rw [hget, haddr]
    cases hpte : Pte.ofWord (m.page e.page (ptx v)) with
    | none =>
      have hno := Pte.ofWord_eq_none.mp hpte
      rw [Option.map_none, if_pos (.inr hno)]
    | some e' =>
      obtain ⟨hpres', haddr', hflags'⟩ := Pte.ofWord_eq_some hpte
      rw [Option.map_some, if_neg (not_or.mpr ⟨hpres, hpres'⟩), Pte.cached, haddr', ← hflags',
        pteFlags_and (by decide), UInt32.and_assoc, UInt32.and_comm _ (pteP ||| pteW ||| pteU),
        ← UInt32.and_assoc, hpde, UInt32.and_comm]

end

end SsuOs.Xv6
