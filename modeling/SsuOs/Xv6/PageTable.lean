import SsuOs.Xv6.Pages

/-! Page tables as values: what the words of a page directory and of its page tables say, and what
a write to one of them changes about it. -/
namespace SsuOs.Xv6
open SsuOs.Lib

abbrev PageTable : Type := Radix nPtEntries Pte Pte

/-- The page table under the directory `d`. -/
def Phys.tree (m : Phys) (d : ℕ) : PageTable := fun i =>
  (Pte.ofWord (m.page d i)).map fun e => ⟨e, fun j => Pte.ofWord (m.page e.page j)⟩

/-- The pages of the table itself: the directory and the page tables. -/
def frames (d : ℕ) (t : PageTable) : ℕ → ℕ := fun x => only d x + t.tagSum fun e => only e.page x

/-- The pages mapped below `KERNBASE`. -/
def userPages (t : PageTable) : ℕ → ℕ := fun x =>
  t.entrySum fun v e => if v < kernBase then only e.page x else 0

section Table

variable {d v x : ℕ} {t : PageTable} {n : RadixNode nPtEntries Pte Pte} {e : Pte}

theorem frames_dir (d : ℕ) (t : PageTable) : frames d t d ≠ 0 := by
  simp [frames]

theorem le_frames {i : Fin nPtEntries} (h : t i = some n) :
    only d n.tag.page + 1 ≤ frames d t n.tag.page := by
  have hle := Radix.le_tagSum (f := fun e : Pte => only e.page n.tag.page) h
  rw [only_self] at hle
  exact Nat.add_le_add_left hle _

theorem frames_table {i : Fin nPtEntries} (h : t i = some n) : frames d t n.tag.page ≠ 0 := by
  have hle := le_frames (d := d) h
  omega

theorem frames_grow (h : t (pdx v) = none) (e : Pte) :
    frames d (t.grow v e) = frames d t + only e.page := by
  ext x
  rw [frames, Radix.tagSum_grow h, Pi.add_apply, frames, Nat.add_assoc]

theorem frames_put (o : Option Pte) : frames d (t.put v o) = frames d t := by
  ext x
  rw [frames, Radix.tagSum_put, frames]

theorem userPages_grow (h : t (pdx v) = none) (e : Pte) :
    userPages (t.grow v e) = userPages t := by
  ext x
  rw [userPages, Radix.entrySum_grow h, userPages]

/-- The page of an entry, if it is one of the process. -/
def userPage (v : ℕ) (o : Option Pte) : ℕ → ℕ := fun x =>
  o.elim 0 fun e => if v < kernBase then only e.page x else 0

theorem userPage_none (v : ℕ) : userPage v none = 0 := rfl

theorem userPage_kernel (hv : kernBase ≤ v) (e : Pte) : userPage v (some e) = 0 := by
  ext x
  exact if_neg (not_lt.mpr hv)

theorem userPages_put (hv : v < nPages) (h : t (pdx v) = some n) (o : Option Pte) :
    userPages (t.put v o) + userPage v (t.get v) = userPages t + userPage v o := by
  ext x
  exact Radix.entrySum_put hv h o

theorem userPages_entry (hv : v < kernBase) (h : t.get v = some e) : userPages t e.page ≠ 0 := by
  have hle := Radix.le_entrySum (g := fun v f => if v < kernBase then only f.page e.page else 0)
    (hv.trans (by decide)) h
  simp only [hv, ↓reduceIte, only_self] at hle
  exact (Nat.zero_lt_one.trans_le hle).ne'

theorem Phys.tree_get (m : Phys) (h : m.tree d (pdx v) = some n) :
    (m.tree d).get v = Pte.ofWord (m.page n.tag.page (ptx v)) := by
  rw [Radix.get_of_some h]
  unfold Phys.tree at h
  obtain ⟨e, -, rfl⟩ := Option.map_eq_some_iff.mp h
  rfl

/-- A page table is read from its own pages only. -/
theorem tree_congr {m m' : Phys} (hd : m'.page d = m.page d)
    (ht : ∀ i n, m.tree d i = some n → m'.page n.tag.page = m.page n.tag.page) :
    m'.tree d = m.tree d := by
  funext i
  unfold Phys.tree
  rw [hd]
  cases he : Pte.ofWord (m.page d i) with
  | none => rfl
  | some e =>
    have hpage := ht i ⟨e, fun j => Pte.ofWord (m.page e.page j)⟩ (by rw [Phys.tree, he]; rfl)
    simp only [Option.map_some, hpage]

theorem tree_of_kept {m m' : Phys} (h : Kept (frames d (m.tree d)) m m') : m'.tree d = m.tree d :=
  tree_congr (h d (frames_dir d _)) fun _ _ hn => h _ (frames_table hn)

end Table

section Walk

variable {L : Layout} {m : Phys} {d v : ℕ} {F : ℕ → ℕ} {n : RadixNode nPtEntries Pte Pte}

theorem Phys.walkpgdir_some (h : m.tree d (pdx v) = some n) (alloc : Bool) :
    m.walkpgdir d v alloc = (some n.tag.page, m) := by
  obtain ⟨e, he, rfl⟩ := Option.map_eq_some_iff.mp h
  obtain ⟨hp, ha, -⟩ := Pte.ofWord_eq_some he
  rw [Phys.walkpgdir, if_pos hp, ha]

theorem Phys.walkpgdir_none (h : m.tree d (pdx v) = none) : m.walkpgdir d v false = (none, m) := by
  have hp := Pte.ofWord_eq_none.mp (Option.map_eq_none_iff.mp h)
  rw [Phys.walkpgdir, if_neg (not_not.mpr hp)]
  rfl

theorem Held.frame_ne (h : Held L m (frames d (m.tree d) + F)) {x : ℕ} (hF : F x ≠ 0) :
    frames d (m.tree d) x = 0 := by
  have hle := h.le_one x
  rw [Pi.add_apply] at hle
  omega

theorem Held.table_ne (h : Held L m (frames d (m.tree d) + F)) {i : Fin nPtEntries}
    (hn : m.tree d i = some n) : n.tag.page ≠ d := by
  intro heq
  have hle := h.le_one n.tag.page
  have hge := le_frames (d := d) hn
  rw [Pi.add_apply] at hle
  rw [heq, only_self] at hge
  rw [heq] at hle
  omega

theorem Held.tables_ne (h : Held L m (frames d (m.tree d) + F)) {i j : Fin nPtEntries}
    {n' : RadixNode nPtEntries Pte Pte} (hij : i ≠ j) (hn : m.tree d i = some n)
    (hn' : m.tree d j = some n') : n.tag.page ≠ n'.tag.page := by
  intro heq
  have hle := h.le_one n.tag.page
  have hge := Radix.add_le_tagSum (f := fun e : Pte => only e.page n.tag.page) hij hn hn'
  rw [← heq, only_self] at hge
  rw [Pi.add_apply, frames] at hle
  omega

theorem Held.tree_set (h : Held L m (frames d (m.tree d) + F)) (hn : m.tree d (pdx v) = some n)
    (w : UInt32) :
    (m.set n.tag.page (ptx v) w).tree d = (m.tree d).put v (Pte.ofWord w) := by
  have hd : (m.set n.tag.page (ptx v) w).page d = m.page d := by
    rw [Phys.set_page, if_neg (h.table_ne hn).symm]
  funext i
  rw [Radix.put, Function.update_apply]
  split_ifs with hi
  · obtain rfl : i = pdx v := hi
    change _ = (m.tree d (pdx v)).map _
    have hn' := hn
    obtain ⟨e, he, rfl⟩ := Option.map_eq_some_iff.mp hn'
    rw [Phys.tree, hd, he, hn, Option.map_some, Option.map_some]
    congr 2
    funext j
    rw [Phys.set_page, if_pos rfl, Function.update_apply, Function.update_apply]
    change Pte.ofWord (if j = ptx v then _ else _) = if j = ptx v then _ else _
    split_ifs <;> rfl
  · unfold Phys.tree
    rw [hd]
    cases he : Pte.ofWord (m.page d i) with
    | none => rfl
    | some e =>
      have hne := h.tables_ne hi (n := ⟨e, fun j => Pte.ofWord (m.page e.page j)⟩)
        (by rw [Phys.tree, he]; rfl) hn
      simp only [Option.map_some, Phys.set_page, if_neg hne]

theorem toNat_pdeFlags : (pteP ||| pteW ||| pteU).toNat < pgSize := by decide

theorem Held.walkpgdir (h : Held L m (frames d (m.tree d) + F)) (hn : m.tree d (pdx v) = none) :
    m.walkpgdir d v true = (none, m) ∨ ∃ x m', m.walkpgdir d v true = (some x, m') ∧
      m'.tree d = (m.tree d).grow v ⟨x, pteP ||| pteW ||| pteU⟩ ∧
      Held L m' (frames d (m'.tree d) + F) ∧ Kept F m m' := by
  have hp := Pte.ofWord_eq_none.mp (Option.map_eq_none_iff.mp hn)
  rw [Phys.walkpgdir, if_neg (not_not.mpr hp), if_pos rfl]
  rcases h.kalloc with hnone | ⟨x, m₁, hsome, hpage, hfresh, h₁⟩
  · rw [hnone]
    exact .inl rfl
  right
  rw [hsome]
  -- the new page is none of those that are held
  have hne : ∀ y, (frames d (m.tree d) + F) y ≠ 0 → y ≠ x := by
    rintro y hy rfl
    exact hy hfresh
  have hframe : ∀ y, frames d (m.tree d) y ≠ 0 → y ≠ x := by
    intro y hy
    refine hne y ?_
    rw [Pi.add_apply]
    omega
  have hx : (frames d (m.tree d) + F + only x) x ≠ 0 := by
    rw [Pi.add_apply, only_self]
    omega
  have hdx := hframe d (frames_dir d _)
  have hd : (frames d (m.tree d) + F + only x) d ≠ 0 := by
    have hdir := frames_dir d (m.tree d)
    rw [Pi.add_apply, Pi.add_apply]
    omega
  have hw : Pte.ofWord (pageAddr x ||| pteP ||| pteW ||| pteU) =
      some ⟨x, pteP ||| pteW ||| pteU⟩ := by
    rw [UInt32.or_assoc, UInt32.or_assoc, ← UInt32.or_assoc pteP]
    exact Pte.ofWord_or (h₁.lt_nPages hx) toNat_pdeFlags (by decide)
  have htree : ((m₁.fill x fun _ => 0).set d (pdx v)
      (pageAddr x ||| pteP ||| pteW ||| pteU)).tree d =
      (m.tree d).grow v ⟨x, pteP ||| pteW ||| pteU⟩ := by
    funext i
    rw [Phys.tree, Phys.set_page, if_pos rfl, Phys.fill_page, if_neg hdx, hpage, Radix.grow,
      Function.update_apply, Function.update_apply]
    change Option.map _ (Pte.ofWord (if i = pdx v then _ else _)) = if i = pdx v then _ else _
    split_ifs with hi
    · rw [hw, Option.map_some]
      congr 2
      funext j
      rw [Phys.set_page, if_neg (Ne.symm hdx), Phys.fill_page, if_pos rfl]
      rfl
    · unfold Phys.tree
      cases he : Pte.ofWord (m.page d i) with
      | none => rfl
      | some e =>
        have hi' : m.tree d i = some ⟨e, fun j => Pte.ofWord (m.page e.page j)⟩ := by
          rw [Phys.tree, he]
          rfl
        have hed := h.table_ne hi'
        have hex := hframe _ (frames_table hi')
        dsimp only at hed hex
        simp only [Option.map_some, Phys.set_page, if_neg hed, Phys.fill_page, if_neg hex, hpage]
  refine ⟨x, _, rfl, htree, ?_, fun y hy => ?_⟩
  · rw [htree, frames_grow hn]
    refine ((h₁.fill hx fun _ => 0).set hd (pdx v) _).congr fun y => ?_
    simp only [Pi.add_apply]
    omega
  · have hyd : y ≠ d := by
      rintro rfl
      exact frames_dir y _ (h.frame_ne hy)
    have hyx := hne y (by rw [Pi.add_apply]; omega)
    rw [Phys.set_page, if_neg hyd, Phys.fill_page, if_neg hyx, hpage]

/-- All page tables are entered with the same flags. -/
def DirOk (t : PageTable) : Prop := ∀ i n, t i = some n → n.tag.flags = pteP ||| pteW ||| pteU

theorem DirOk.grow {t : PageTable} (h : DirOk t) (x : ℕ) :
    DirOk (t.grow v ⟨x, pteP ||| pteW ||| pteU⟩) := by
  intro i n hn
  rw [Radix.grow, Function.update_apply] at hn
  split_ifs at hn with hi
  · obtain rfl := Option.some.inj hn
    rfl
  · exact h i n hn

theorem DirOk.put {t : PageTable} (h : DirOk t) (o : Option Pte) : DirOk (t.put v o) := by
  intro i n hn
  rw [Radix.put, Function.update_apply] at hn
  split_ifs at hn with hi
  · obtain ⟨n', hn', rfl⟩ := Option.map_eq_some_iff.mp hn
    exact h _ n' hn'
  · exact h i n hn

/-- Page `v`, which was not mapped, has the entry `e`; the holders `F` keep their pages. -/
structure Maps (L : Layout) (d : ℕ) (F : ℕ → ℕ) (v : ℕ) (e : Pte) (m m' : Phys) : Prop where
  held : Held L m' (frames d (m'.tree d) + F)
  kept : Kept F m m'
  get : ∀ w, w < nPages → (m'.tree d).get w = if w = v then some e else (m.tree d).get w
  user : userPages (m'.tree d) = userPages (m.tree d) + userPage v (some e)
  dir : DirOk (m.tree d) → DirOk (m'.tree d)

theorem Pte.ofWord_mapped {x : ℕ} {perm : UInt32} (hx : x < nPages) (hperm : perm.toNat < pgSize) :
    Pte.ofWord (pageAddr x ||| perm ||| pteP) = some ⟨x, perm ||| pteP⟩ := by
  have hflags : (perm ||| pteP).toNat < pgSize := by
    rw [UInt32.toNat_or]
    exact Nat.or_lt_two_pow (n := 12) hperm (by decide)
  have hpres : (perm ||| pteP) &&& pteP ≠ 0 := by
    have hodd : (perm.toNat ||| 1) % 2 = 1 := Nat.or_mod_two_eq_one.mpr (.inr rfl)
    rw [Ne, and_pteP_eq_zero, UInt32.toNat_or]
    change ¬(perm.toNat ||| 1) % 2 = 0
    omega
  rw [UInt32.or_assoc]
  exact Pte.ofWord_or hx hflags hpres

theorem Held.maps (h : Held L m (frames d (m.tree d) + F)) {x : ℕ} {perm : UInt32} (hv : v < nPages)
    (hx : x < nPages) (hperm : perm.toNat < pgSize) (hn : m.tree d (pdx v) = some n)
    (hnone : (m.tree d).get v = none) : Maps L d F v ⟨x, perm ||| pteP⟩ m
      (m.set n.tag.page (ptx v) (pageAddr x ||| perm ||| pteP)) := by
  have htree := h.tree_set hn (pageAddr x ||| perm ||| pteP)
  rw [Pte.ofWord_mapped hx hperm] at htree
  constructor
  · rw [htree, frames_put]
    refine h.set ?_ _ _
    have htab := frames_table (d := d) hn
    rw [Pi.add_apply]
    omega
  · intro y hy
    have hyn : y ≠ n.tag.page := by
      rintro rfl
      exact frames_table hn (h.frame_ne hy)
    rw [Phys.set_page, if_neg hyn]
  · intro w hw
    rw [htree]
    exact Radix.get_put hv hw hn _
  · have hput := userPages_put hv hn (some ⟨x, perm ||| pteP⟩)
    rwa [hnone, userPage_none, add_zero, ← htree] at hput
  · intro hdir
    rw [htree]
    exact hdir.put _

/-- One round of `mappages`: there is no page for the page table, or the entry is free and set. -/
theorem Held.mapStep (h : Held L m (frames d (m.tree d) + F)) {x : ℕ} {perm : UInt32}
    (hv : v < nPages) (hx : x < nPages) (hperm : perm.toNat < pgSize)
    (hnone : (m.tree d).get v = none) : m.walkpgdir d v true = (none, m) ∨
      ∃ y m₁, m.walkpgdir d v true = (some y, m₁) ∧ m₁.page y (ptx v) &&& pteP = 0 ∧
        Maps L d F v ⟨x, perm ||| pteP⟩ m (m₁.set y (ptx v) (pageAddr x ||| perm ||| pteP)) := by
  cases hn : m.tree d (pdx v) with
  | some n =>
    refine .inr ⟨_, m, Phys.walkpgdir_some hn true, ?_, h.maps hv hx hperm hn hnone⟩
    rw [m.tree_get hn] at hnone
    exact Pte.ofWord_eq_none.mp hnone
  | none =>
    rcases h.walkpgdir hn with hfail | ⟨y, m₁, hwalk, htree, h₁, hkept⟩
    · exact .inl hfail
    have hn₁ : m₁.tree d (pdx v) = some ⟨⟨y, pteP ||| pteW ||| pteU⟩, fun _ => none⟩ := by
      rw [htree]
      exact Function.update_self ..
    have hget : ∀ w, (m₁.tree d).get w = (m.tree d).get w := by
      intro w
      rw [htree]
      exact Radix.get_grow hn _
    have hnone₁ := (hget v).trans hnone
    have hmaps := h₁.maps hv hx hperm hn₁ hnone₁
    refine .inr ⟨y, m₁, hwalk, ?_, hmaps.held, hkept.trans hmaps.kept, fun w hw => ?_, ?_, ?_⟩
    · rw [m₁.tree_get hn₁] at hnone₁
      exact Pte.ofWord_eq_none.mp hnone₁
    · rw [hmaps.get w hw, hget]
    · rw [hmaps.user, htree, userPages_grow hn]
    · intro hdir
      refine hmaps.dir ?_
      rw [htree]
      exact hdir.grow y

theorem Held.mappages (h : Held L m (frames d (m.tree d) + F)) {x : ℕ} {perm : UInt32}
    (hv : v < nPages) (hx : x < nPages) (hperm : perm.toNat < pgSize)
    (hnone : (m.tree d).get v = none) : m.mappages d v 1 x perm = .ok (false, m) ∨
      ∃ m', m.mappages d v 1 x perm = .ok (true, m') ∧ Maps L d F v ⟨x, perm ||| pteP⟩ m m' := by
  rw [Phys.mappages, show (1 + nPages - 1) % nPages = 0 from rfl, Phys.mapLoop]
  rcases h.mapStep hv hx hperm hnone with hfail | ⟨y, m₁, hwalk, hfree, hmaps⟩
  · rw [hfail]
    exact .inl rfl
  · refine .inr ⟨_, ?_, hmaps⟩
    rw [hwalk]
    exact if_neg (not_not.mpr hfree)

/-- The pages of the kernel from `v` to `v + k`. -/
structure MapsRange (L : Layout) (d : ℕ) (F : ℕ → ℕ) (v k pa : ℕ) (perm : UInt32) (mapped : Bool)
    (m m' : Phys) : Prop where
  held : Held L m' (frames d (m'.tree d) + F)
  kept : Kept F m m'
  below : ∀ w, w < v → (m'.tree d).get w = (m.tree d).get w
  inside : mapped = true → ∀ w, v ≤ w → w ≤ v + k →
    (m'.tree d).get w = some ⟨pa + (w - v), perm ||| pteP⟩
  above : ∀ w, v + k < w → w < nPages → (m'.tree d).get w = (m.tree d).get w
  user : userPages (m'.tree d) = userPages (m.tree d)
  dir : DirOk (m.tree d) → DirOk (m'.tree d)

theorem Held.mapLoop (h : Held L m (frames d (m.tree d) + F)) {k pa : ℕ} {perm : UInt32}
    (hv : kernBase ≤ v) (hk : v + k < nPages) (hpa : pa + k < nPages) (hperm : perm.toNat < pgSize)
    (hnone : ∀ w, v ≤ w → w ≤ v + k → (m.tree d).get w = none) : ∃ mapped m',
      m.mapLoop d perm k v pa = .ok (mapped, m') ∧ MapsRange L d F v k pa perm mapped m m' := by
  induction k generalizing v pa m with
  | zero =>
    rw [Nat.add_zero] at hk hpa
    rw [Phys.mapLoop]
    rcases h.mapStep (x := pa) hk hpa hperm (hnone v le_rfl le_rfl) with
      hfail | ⟨y, m₁, hwalk, hfree, hmaps⟩
    · rw [hfail]
      exact ⟨false, m, rfl, h, .refl F m, fun _ _ => rfl, nofun, fun _ _ _ => rfl, rfl, id⟩
    · rw [hwalk]
      refine ⟨true, _, if_neg (not_not.mpr hfree), hmaps.held, hmaps.kept, fun w hw => ?_,
        fun _ w hw hw' => ?_, fun w hw hwn => ?_, ?_, hmaps.dir⟩
      · rw [hmaps.get w (by omega), if_neg (by omega)]
      · obtain rfl : w = v := by omega
        rw [hmaps.get w hk, if_pos rfl, Nat.sub_self, Nat.add_zero]
      · rw [hmaps.get w hwn, if_neg (by omega)]
      · rw [hmaps.user, userPage_kernel hv, add_zero]
  | succ k ih =>
    rw [Phys.mapLoop]
    rcases h.mapStep (x := pa) (by omega) (by omega) hperm (hnone v le_rfl (by omega)) with
      hfail | ⟨y, m₁, hwalk, hfree, hmaps⟩
    · rw [hfail]
      exact ⟨false, m, rfl, h, .refl F m, fun _ _ => rfl, nofun, fun _ _ _ => rfl, rfl, id⟩
    · rw [hwalk]
      dsimp only
      rw [if_neg (not_not.mpr hfree)]
      have hget : ∀ w, w < nPages → w ≠ v →
          ((m₁.set y (ptx v) (pageAddr pa ||| perm ||| pteP)).tree d).get w =
            (m.tree d).get w := by
        intro w hw hwv
        rw [hmaps.get w hw, if_neg hwv]
      obtain ⟨mapped, m', hloop, hr⟩ := @ih _ (v + 1) hmaps.held (pa + 1) (by omega)
        (by omega) (by omega) fun w hw hw' => by
          rw [hget w (by omega) (by omega)]
          exact hnone w (by omega) (by omega)
      refine ⟨mapped, m', hloop, hr.held, hmaps.kept.trans hr.kept, fun w hw => ?_,
        fun hm w hw hw' => ?_, fun w hw hwn => ?_, ?_, fun hdir => hr.dir (hmaps.dir hdir)⟩
      · rw [hr.below w (by omega), hget w (by omega) (by omega)]
      · by_cases hwv : w = v
        · subst hwv
          rw [hr.below w (by omega), hmaps.get w (by omega), if_pos rfl, Nat.sub_self, Nat.add_zero]
        · rw [hr.inside hm w (by omega) (by omega)]
          congr 2
          omega
      · rw [hr.above w (by omega) hwn, hget w hwn (by omega)]
      · rw [hr.user, hmaps.user, userPage_kernel hv, add_zero]

end Walk

end SsuOs.Xv6
