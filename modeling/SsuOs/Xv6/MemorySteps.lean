import SsuOs.Xv6.PrivateMemory

/-! The steps of the machine with page tables, each as a step of the machine in which every process
has a memory of its own. -/
namespace SsuOs.Xv6
open SsuOs.Lib

section Access

variable {L : Layout} {s : Vm} {m : Phys} {p : Fin nProc} {sp : Space} {v : ℕ} {e : Pte}
  {access : UInt32}

theorem SpaceOk.flags_eq (h : SpaceOk m sp) (hv : v < kernBase)
    (he : (m.tree sp.pgdir).get v = some e) : e.flags = userFlags := by
  have hview : m.view sp.pgdir v = some (e.flags, m.page e.page) := by
    rw [Phys.view, he, Option.map_some]
  by_cases hsz : v < pages sp.sz
  · obtain ⟨c, hc⟩ := h.mapped v hsz
    rw [hview] at hc
    exact (Prod.ext_iff.mp (Option.some.inj hc)).1
  · rw [h.beyond v (by omega) hv] at hview
    cases hview

theorem SpaceOk.grants (h : SpaceOk m sp) (hv : v < kernBase)
    (he : (m.tree sp.pgdir).get v = some e)
    (ha : access &&& (pteP ||| pteW ||| pteU) = access) : e.flags &&& access = access := by
  have heq : userFlags = pteP ||| pteW ||| pteU := by decide
  rw [h.flags_eq hv he, heq, UInt32.and_comm, ha]

theorem Space.mem_page (hv : v < kernBase) :
    (sp.mem m).page v = ((m.tree sp.pgdir).get v).map fun e => m.page e.page := by
  rw [Space.mem]
  dsimp only
  rw [if_pos hv, Phys.view, Option.map_map]
  rfl

theorem Vm.Inv.alive (h : s.Inv L) (hr : s.running p = some sp) : sp.zombie = false := by
  obtain ⟨hcur, hsp⟩ := Vm.of_running hr
  obtain ⟨sp', hsp', hz⟩ := h.coherent.alive p hcur
  rw [hsp] at hsp'
  exact Option.some.inj hsp' ▸ hz

/-- A translation that was kept is one that the page tables have. -/
theorem Vm.Inv.lookup_eq (h : s.Inv L) (hr : s.running p = some sp) (v : Fin nPages) :
    s.lookup sp.pgdir v = ((s.phys.tree sp.pgdir).get v).map Pte.cached := by
  obtain ⟨hcur, hsp⟩ := Vm.of_running hr
  unfold Vm.lookup
  cases hv : s.tlb v with
  | none => rw [Option.none_or, Phys.walk_eq (h.ok.space p sp hsp).dir]
  | some e =>
    obtain ⟨q, sq, hq, hsq, he⟩ := h.coherent.entry v e hv
    obtain rfl : p = q := Option.some.inj (hcur.symm.trans hq)
    obtain rfl : sp = sq := Option.some.inj (hsp.symm.trans hsq)
    rw [Option.some_or, he]

theorem Vm.Inv.translate (h : s.Inv L) (hr : s.running p = some sp) (v : Fin nPages)
    (ha : access &&& (pteP ||| pteW ||| pteU) = access) : ∃ tlb,
      Vm.Inv L { s with tlb := tlb } ∧ s.translate sp.pgdir v access =
        (((s.phys.tree sp.pgdir).get v).bind fun e =>
          if e.flags &&& access = access then some e.page else none, { s with tlb := tlb }) := by
  obtain ⟨hcur, hsp⟩ := Vm.of_running hr
  refine ⟨Function.update s.tlb v (s.lookup sp.pgdir v),
    ⟨⟨h.ok.held, h.ok.space⟩, h.coherent.alive, fun w e he => ?_⟩, Prod.ext ?_ rfl⟩
  · dsimp only at he
    rw [Function.update_apply] at he
    split_ifs at he with hw
    · rw [h.lookup_eq hr] at he
      exact ⟨p, sp, hcur, hsp, hw ▸ he⟩
    · exact h.coherent.entry w e he
  · unfold Vm.translate
    dsimp only
    rw [h.lookup_eq hr, Option.bind_map]
    exact Option.bind_congr fun e _ => e.grant_cached ha

/-- The process finds what its memory has, and nothing of the kernel. -/
theorem Vm.Inv.user_access (h : s.Inv L) (hr : s.running p = some sp) (v : Fin nPages)
    (ha : access &&& (pteP ||| pteW ||| pteU) = access) (hu : access &&& pteU = pteU) :
    ∃ tlb, Vm.Inv L { s with tlb := tlb } ∧
      ((sp.mem s.phys).page v = none ∧
          s.translate sp.pgdir v access = (none, { s with tlb := tlb }) ∨
        ∃ e, v < kernBase ∧ (s.phys.tree sp.pgdir).get v = some e ∧
          (sp.mem s.phys).page v = some (s.phys.page e.page) ∧
          s.translate sp.pgdir v access = (some e.page, { s with tlb := tlb })) := by
  have hok := h.ok.space p sp (Vm.of_running hr).2
  obtain ⟨tlb, h', htr⟩ := h.translate hr v ha
  refine ⟨tlb, h', ?_⟩
  rw [htr]
  by_cases hk : v < kernBase
  · rw [Space.mem_page hk]
    cases he : (s.phys.tree sp.pgdir).get v with
    | none => exact .inl ⟨rfl, rfl⟩
    | some e =>
      exact .inr ⟨e, hk, rfl, rfl, by rw [Option.bind_some, if_pos (hok.grants hk he ha)]⟩
  · refine .inl ⟨if_neg hk, ?_⟩
    cases he : (s.phys.tree sp.pgdir).get v with
    | none => rfl
    | some e =>
      have hflags := hok.kernel v (by omega) v.isLt e he
      rw [Option.bind_some, if_neg (and_access_ne (by decide) hu hflags)]

/-- Where `argptr` lets the kernel go, it finds a page of the process. -/
theorem Vm.Inv.kernel_access (h : s.Inv L) (hr : s.running p = some sp) {v : Fin nPages}
    (hv : v < pages sp.sz) (ha : access &&& (pteP ||| pteW ||| pteU) = access) :
    ∃ tlb e, Vm.Inv L { s with tlb := tlb } ∧ v < kernBase ∧
      (s.phys.tree sp.pgdir).get v = some e ∧
      (sp.mem s.phys).page v = some (s.phys.page e.page) ∧
      s.translate sp.pgdir v access = (some e.page, { s with tlb := tlb }) := by
  have hok := h.ok.space p sp (Vm.of_running hr).2
  have hk := hv.trans_le (pages_le_kernBase hok.sz_le)
  obtain ⟨c, hc⟩ := hok.mapped v hv
  obtain ⟨e, he, -⟩ := Option.map_eq_some_iff.mp hc
  obtain ⟨tlb, h', htr⟩ := h.translate hr v ha
  refine ⟨tlb, e, h', hk, he, by rw [Space.mem_page hk, he, Option.map_some], ?_⟩
  rw [htr, he, Option.bind_some, if_pos (hok.grants hk he ha)]

end Access

section Steps

variable {L : Layout} {s : Vm} {m' : Phys} {p : Fin nProc} {sp : Space} {v : ℕ} {e : Pte}

theorem KernelOk.of_eq {d : ℕ} {m : Phys} (h : KernelOk (m.tree d))
    (heq : ∀ w, kernBase ≤ w → w < nPages → (m'.tree d).get w = (m.tree d).get w) :
    KernelOk (m'.tree d) := by
  intro w hw hwn e he
  rw [heq w hw hwn] at he
  exact h w hw hwn e he

theorem Vm.Ok.becomes (h : s.Ok L) (hp : s.space p = some sp) {lo hi sz : ℕ}
    {c : Option (UInt32 × Page)} (ho : Owns L m' sp.pgdir (only sp.kstack + s.others p))
    (hb : Becomes sp.pgdir (only sp.kstack + s.others p) lo hi c s.phys m')
    (hpos : 0 < sz) (hsz : sz ≤ kernBase * pgSize)
    (hbeyond : ∀ w, pages sz ≤ w → w < kernBase → m'.view sp.pgdir w = none)
    (hmapped : ∀ w, w < pages sz → ∃ c, m'.view sp.pgdir w = some (userFlags, c)) :
    (Vm.setSpace { s with phys := m' } p (some { sp with sz := sz })).Ok L ∧
      (Vm.setSpace { s with phys := m' } p (some { sp with sz := sz })).mem =
        Function.update s.mem p (some (Space.mem m' { sp with sz := sz })) := by
  have hok := h.space p sp hp
  refine h.replace (hb.kept.mono fun x => ?_) (Owns.held_share _ ho) fun sp' hsp' => ?_
  · rw [Pi.add_apply]
    omega
  · obtain rfl := Option.some.inj hsp'
    exact ⟨hpos, hsz, hok.kernel.of_eq hb.kernel, hb.dir hok.dir, hbeyond, hmapped⟩

theorem Vm.Inv.fill (h : s.Inv L) (hr : s.running p = some sp) (hv : v < kernBase)
    (he : (s.phys.tree sp.pgdir).get v = some e) (c : Page) :
    Vm.Inv L { s with phys := s.phys.fill e.page c } ∧
      Vm.mem { s with phys := s.phys.fill e.page c } =
        Function.update s.mem p (some ((sp.mem s.phys).write v c)) := by
  have hp := (Vm.of_running hr).2
  have hok := h.ok.space p sp hp
  have hpages := pages_le_kernBase hok.sz_le
  obtain ⟨ho, hb, htree⟩ := (h.ok.owns hp).fill hv he c
  rw [hok.flags_eq hv he] at hb
  have hlt : v < pages sp.sz := by
    by_contra hge
    have hnone := view_eq_none.mp (hok.beyond v (by omega) hv)
    rw [he] at hnone
    cases hnone
  have hmem : Space.mem (s.phys.fill e.page c) sp = (sp.mem s.phys).write v c := by
    unfold Space.mem UserMem.write
    congr 1
    funext w
    rw [Function.update_apply]
    dsimp only
    by_cases hw : w < kernBase
    · rw [if_pos hw, hb.user w hw]
      by_cases hwv : w = v
      · rw [if_pos (by omega), if_pos hwv, Option.map_some]
      · rw [if_neg (by omega), if_neg hwv, if_pos hw]
    · rw [if_neg hw, if_neg (by omega), if_neg hw]
  have hall := h.ok.becomes hp ho hb hok.sz_pos hok.sz_le
    (fun w hw hwk => by rw [hb.user w hwk, if_neg (by omega), hok.beyond w hw hwk])
    fun w hw => by
      rw [hb.user w (by omega)]
      split_ifs
      · exact ⟨c, rfl⟩
      · exact hok.mapped w hw
  rw [hmem, Vm.setSpace_self hp] at hall
  refine ⟨⟨hall.1, h.coherent.kept_phys hr fun w _ => ?_⟩, hall.2⟩
  exact congrArg (fun t : PageTable => t.get w) htree

theorem Space.mem_resize (m m' : Phys) {sz : ℕ} (hsz : sz ≤ kernBase * pgSize)
    (hview : ∀ w, w < kernBase → m'.view sp.pgdir w =
      if w < pages sz then (if w < pages sp.sz then m.view sp.pgdir w else freshPage) else none) :
    Space.mem m' { sp with sz := sz } = (sp.mem m).resize sz := by
  have hpages := pages_le_kernBase hsz
  unfold Space.mem UserMem.resize
  congr 1
  funext w
  dsimp only
  by_cases hw : w < kernBase
  · rw [if_pos hw, hview w hw]
    split_ifs <;> rfl
  · rw [if_neg hw, if_neg (by omega)]

theorem SpaceOk.resize_self {m : Phys} (h : SpaceOk m sp) :
    (sp.mem m).resize sp.sz = sp.mem m := by
  refine (Space.mem_resize m m h.sz_le fun w hw => ?_).symm
  split_ifs with hlt
  · rfl
  · exact h.beyond w (by omega) hw

theorem Vm.Ok.resized (h : s.Ok L) (hp : s.space p = some sp)
    {lo hi sz : ℕ} {c : Option (UInt32 × Page)}
    (ho : Owns L m' sp.pgdir (only sp.kstack + s.others p))
    (hb : Becomes sp.pgdir (only sp.kstack + s.others p) lo hi c s.phys m')
    (hpos : 0 < sz) (hsz : sz ≤ kernBase * pgSize)
    (hview : ∀ w, w < kernBase → m'.view sp.pgdir w = if w < pages sz then
      (if w < pages sp.sz then s.phys.view sp.pgdir w else freshPage) else none) :
    (Vm.setSpace { s with phys := m' } p (some { sp with sz := sz })).Ok L ∧
      (Vm.setSpace { s with phys := m' } p (some { sp with sz := sz })).mem =
        Function.update s.mem p (some ((sp.mem s.phys).resize sz)) := by
  have hpages := pages_le_kernBase hsz
  rw [← Space.mem_resize s.phys m' hsz hview]
  refine h.becomes hp ho hb hpos hsz (fun w hw hwk => ?_) fun w hw => ?_
  · rw [hview w hwk, if_neg (by omega)]
  · rw [hview w (by omega), if_pos hw]
    split_ifs with hlt
    · exact (h.space p sp hp).mapped w hlt
    · exact ⟨_, rfl⟩

/-- Nothing about the memory of `p` has changed, though page tables may have been added. -/
theorem Vm.Ok.same (h : s.Ok L) (hp : s.space p = some sp)
    {lo hi : ℕ} {c : Option (UInt32 × Page)} (hle : hi ≤ lo)
    (ho : Owns L m' sp.pgdir (only sp.kstack + s.others p))
    (hb : Becomes sp.pgdir (only sp.kstack + s.others p) lo hi c s.phys m') :
    Vm.Ok L { s with phys := m' } ∧
      Vm.mem { s with phys := m' } = Function.update s.mem p (some (sp.mem s.phys)) := by
  have hok := h.space p sp hp
  rw [← hok.resize_self, ← Vm.setSpace_self hp]
  refine h.resized hp ho hb hok.sz_pos hok.sz_le fun w hw => ?_
  rw [hb.user w hw, if_neg (by omega)]
  split_ifs with hlt
  · rfl
  · exact hok.beyond w (by omega) hw

theorem Vm.Ok.switchuvm (h : s.Ok L) (hp : s.space p = some sp) (hz : sp.zombie = false) :
    (s.switchuvm p).Inv L := by
  refine ⟨⟨h.held, h.space⟩, .lcr3 fun q hq => ?_⟩
  obtain rfl := Option.some.inj hq
  exact ⟨sp, hp, hz⟩

theorem Vm.Ok.switchkvm (h : s.Ok L) : s.switchkvm.Inv L :=
  ⟨⟨h.held, h.space⟩, .lcr3 fun _ hq => by cases hq⟩

theorem Vm.Ok.switch_resized {sz : ℕ} (hz : sp.zombie = false)
    (h : (Vm.setSpace { s with phys := m' } p (some { sp with sz := sz })).Ok L) :
    ((Vm.setSpace { s with phys := m' } p (some { sp with sz := sz })).switchuvm p).Inv L :=
  h.switchuvm (Function.update_self _ _ _) hz

theorem Vm.Inv.shrink (h : s.Inv L) (hr : s.running p = some sp) {n : ℤ} (hneg : n < 0)
    (hlo : -2 ^ 31 ≤ n) (hne : sp.sz + n ≠ 0) : ∃ r s' u, s.growproc L p sp n = .ok (r, s') ∧
      s'.Inv L ∧ Sbrk (sp.mem s.phys) n r u ∧ s'.mem = Function.update s.mem p (some u) := by
  have hp := (Vm.of_running hr).2
  have hok := h.ok.space p sp hp
  have hz := h.alive hr
  have hpos := hok.sz_pos
  have hle := hok.sz_le
  unfold kernBase pgSize at hle
  rw [Vm.growproc, if_neg (by omega), if_pos hneg]
  obtain ⟨newsz, hnewsz⟩ : ∃ k, ((sp.sz + n) % 2 ^ 32).toNat = k := ⟨_, rfl⟩
  obtain ⟨m', hde, ho, hb⟩ := (h.ok.owns hp).deallocuvm hok.sz_le newsz
  rw [hnewsz, hde, ok_bind]
  dsimp only
  rcases lt_or_gt_of_ne hne with hbelow | hsz
  · -- the sum wraps around to more than the old size
    rw [min_eq_left (by omega), if_neg (by omega)]
    obtain ⟨h', hmem⟩ := h.ok.same hp (pages_mono (by omega)) ho hb
    rw [← Vm.setSpace_self hp] at h' hmem
    exact ⟨_, _, _, rfl, h'.switch_resized hz, .ignored hbelow, hmem⟩
  · have hmono : pages newsz ≤ pages sp.sz := pages_mono (by omega)
    have hsz' : newsz ≤ kernBase * pgSize := by
      unfold kernBase pgSize
      omega
    rw [min_eq_right (by omega), if_neg (by omega)]
    obtain ⟨h', hmem⟩ := h.ok.resized hp ho hb (by omega) hsz' fun w hw => by
      rw [hb.user w hw]
      by_cases hlt : w < pages newsz
      · rw [if_neg (by omega), if_pos hlt, if_pos (by omega)]
      · rw [if_neg hlt]
        split_ifs with hr
        · rfl
        · exact hok.beyond w (by omega) hw
    exact ⟨_, _, _, rfl, h'.switch_resized hz,
      .resized (show (newsz : ℤ) = sp.sz + n by omega) (by omega), hmem⟩

theorem Vm.Inv.grow (h : s.Inv L) (hr : s.running p = some sp) {n : ℤ} (hgrow : 0 < n)
    (hhi : n < 2 ^ 31) : ∃ r s' u, s.growproc L p sp n = .ok (r, s') ∧
      s'.Inv L ∧ Sbrk (sp.mem s.phys) n r u ∧ s'.mem = Function.update s.mem p (some u) := by
  have hp := (Vm.of_running hr).2
  have hok := h.ok.space p sp hp
  have hle := hok.sz_le
  unfold kernBase pgSize at hle
  rw [Vm.growproc, if_pos hgrow]
  obtain ⟨newsz, hnewsz⟩ : ∃ k, ((sp.sz + n) % 2 ^ 32).toNat = k := ⟨_, rfl⟩
  have hmono : pages sp.sz ≤ pages newsz := pages_mono (by omega)
  obtain ⟨r, m', halloc, ho, ⟨rfl, hlt, hb⟩ | ⟨rfl, hb⟩⟩ := (h.ok.owns hp).allocuvm hok.beyond newsz
  · rw [hnewsz, halloc, ok_bind]
    dsimp only
    rw [max_eq_right (by omega), if_neg (by omega)]
    obtain ⟨h', hmem⟩ := h.ok.resized hp ho hb (by omega) hlt.le fun w hw => by
      rw [hb.user w hw]
      by_cases hsz : w < pages sp.sz
      · rw [if_neg (by omega), if_pos (by omega), if_pos hsz]
      · rw [if_neg hsz, hok.beyond w (by omega) hw]
        split_ifs <;> first | rfl | omega
    exact ⟨_, _, _, rfl, h'.switch_resized (h.alive hr),
      .resized (show (newsz : ℤ) = sp.sz + n by omega) (by omega), hmem⟩
  · -- `growproc` returns before `switchuvm`, but no entry that was in use has changed
    rw [hnewsz, halloc, ok_bind]
    dsimp only
    rw [if_pos ⟨by omega, rfl⟩]
    obtain ⟨h', hmem⟩ := h.ok.same hp le_rfl ho hb
    refine ⟨_, _, _, rfl, ⟨h', h.coherent.kept_phys hr fun w hw => ?_⟩, .failed hgrow, hmem⟩
    exact hb.entry w hw (by omega)

theorem Vm.Inv.growproc (h : s.Inv L) (hr : s.running p = some sp) {n : ℤ} (hn : InInt n)
    (hne : sp.sz + n ≠ 0) : ∃ r s' u, s.growproc L p sp n = .ok (r, s') ∧ s'.Inv L ∧
      Sbrk (sp.mem s.phys) n r u ∧ s'.mem = Function.update s.mem p (some u) := by
  obtain ⟨hlo, hhi⟩ := hn
  unfold intMin at hlo
  unfold intMax at hhi
  rcases lt_trichotomy n 0 with hneg | rfl | hgrow
  · exact h.shrink hr hneg hlo hne
  · have hp := (Vm.of_running hr).2
    have hok := h.ok.space p sp hp
    rw [Vm.growproc, if_neg (by omega), if_neg (by omega), ok_bind]
    dsimp only
    rw [if_neg (by omega)]
    have hsame : Same sp.pgdir (only sp.kstack + s.others p) s.phys s.phys := .refl le_rfl none
    obtain ⟨h', hmem⟩ := h.ok.same hp le_rfl (h.ok.owns hp) hsame
    rw [← Vm.setSpace_self hp, ← hok.resize_self] at hmem
    rw [← Vm.setSpace_self hp] at h'
    exact ⟨_, _, _, rfl, h'.switch_resized (h.alive hr),
      .resized (by simp [Space.mem]) (by omega), hmem⟩
  · exact h.grow hr hgrow (by omega)

theorem Kept.of_page_eq {E : ℕ → ℕ} {m m' : Phys} (h : m'.page = m.page) : Kept E m m' :=
  fun x _ => congrFun h x

/-- `copyuvm` for a process that has no pages yet, after its kernel stack was taken. -/
theorem Vm.Ok.copyuvm (h : s.Ok L) {np : Fin nProc} (hp : s.space p = some sp) (hne : p ≠ np)
    {kstack : ℕ} (hpage : m'.page = s.phys.page) (hheld : Held L m' (s.others np + only kstack)) :
    ∃ r m₂, m'.copyuvm L sp.pgdir sp.sz = .ok (r, m₂) ∧ Kept (s.others np) s.phys m₂ ∧
      (r = none ∧ Held L m₂ (s.others np + only kstack) ∨
        ∃ c, r = some c ∧ SpaceOk m₂ ⟨c, sp.sz, kstack, false⟩ ∧
          Held L m₂ (share m₂ (some ⟨c, sp.sz, kstack, false⟩) + s.others np) ∧
          Space.mem m₂ ⟨c, sp.sz, kstack, false⟩ = sp.mem s.phys) := by
  have hok := h.space p sp hp
  have hpages := pages_le_kernBase hok.sz_le
  have hle := s.share_le hne
  rw [hp] at hle
  have hk₁ : Kept (s.others np) s.phys m' := .of_page_eq hpage
  obtain ⟨htree, hview⟩ := hk₁.space hle
  obtain ⟨r, m₂, hcopy, hk₂, hr⟩ := hheld.copyuvm (d := sp.pgdir) (fun x => by
      have hx := hle x
      rw [htree]
      simp only [share, Option.elim_some, Pi.add_apply] at hx ⊢
      omega) hok.sz_le fun w hw => by
        obtain ⟨c, hc⟩ := hok.mapped w hw
        rw [hview w (by omega), hc]
        exact Option.some_ne_none _
  refine ⟨r, m₂, hcopy, hk₁.trans (hk₂.mono fun x => Nat.le_add_right _ _), ?_⟩
  rcases hr with ⟨rfl, h₂⟩ | ⟨c, rfl, ho, hkernel, hdir, hcopied⟩
  · exact .inl ⟨rfl, h₂⟩
  · have hchild : ∀ w, w < kernBase → m₂.view c w = s.phys.view sp.pgdir w := by
      intro w hw
      rw [hcopied w hw, hview w hw]
      split_ifs with hlt
      · rfl
      · exact (hok.beyond w (by omega) hw).symm
    refine .inr ⟨c, rfl, hok.copy rfl hkernel hdir hchild, ?_, Space.mem_copy rfl hchild⟩
    refine Owns.held_share ⟨c, sp.sz, kstack, false⟩ (Held.congr ho fun x => ?_)
    simp only [Pi.add_apply]
    omega

theorem Vm.Inv.fork (h : s.Inv L) {np : Fin nProc} (hp : s.space p = some sp)
    (hnp : s.space np = none) :
    ∃ r s', s.fork L sp np = .ok (r, s') ∧ s'.Inv L ∧ (r = .int (-1) ∧ s'.mem = s.mem ∨
      r = .none ∧ s'.mem = Function.update s.mem np (some (sp.mem s.phys))) := by
  have hheld := h.ok.held_others hnp
  have hne : p ≠ np := by
    rintro rfl
    rw [hp] at hnp
    cases hnp
  rw [Vm.fork]
  rcases hheld.kalloc with hfail | ⟨kstack, m₁, hsome, hpage, -, h₁⟩
  · rw [hfail]
    obtain ⟨h', hmem⟩ := h.kept_none hnp (.refl _ _) hheld
    exact ⟨_, _, rfl, h', .inl ⟨rfl, hmem⟩⟩
  obtain ⟨r, m₂, hcopy, hk, hr⟩ := h.ok.copyuvm hp hne hpage h₁
  rw [hsome]
  dsimp only
  rw [hcopy, ok_bind]
  rcases hr with ⟨rfl, h₂⟩ | ⟨c, rfl, hok, h₂, hcopied⟩
  · -- the kernel stack goes back too
    obtain ⟨m₃, hfree, hsame, h₃⟩ := h₂.kfree
    obtain ⟨h', hmem⟩ := h.kept_none hnp (hk.trans fun x hx => hsame x (h₂.ne_only hx)) h₃
    dsimp only
    rw [hfree, ok_bind]
    exact ⟨_, _, rfl, h', .inl ⟨rfl, hmem⟩⟩
  · obtain ⟨h', hmem⟩ := h.ok.replace hk h₂ fun sp' hsp' => by
      obtain rfl := Option.some.inj hsp'
      exact hok
    rw [Option.map_some, hcopied] at hmem
    exact ⟨_, _, rfl, ⟨h', h.coherent.replace hk (h.not_current hnp)⟩, .inr ⟨rfl, hmem⟩⟩

theorem Vm.Inv.reap (h : s.Inv L) (hp : s.space p = some sp) (hz : sp.zombie = true) :
    ∃ s', s.reap L p sp = .ok (.none, s') ∧ s'.Inv L ∧ s'.mem = Function.update s.mem p none := by
  have hidle : s.current ≠ some p := by
    intro hcur
    obtain ⟨sq, hsq, hlive⟩ := h.coherent.alive p hcur
    obtain rfl : sp = sq := Option.some.inj (hp.symm.trans hsq)
    simp [hlive] at hz
  have howns : Owns L s.phys sp.pgdir (s.others p + only sp.kstack) := by
    rw [add_comm]
    exact h.ok.owns hp
  obtain ⟨m₁, hfree, h₁, hs⟩ := howns.kfree
  obtain ⟨m₂, hfreevm, h₂, hk⟩ := h₁.freevm
  have hall := h.ok.replace (p := p) (o := none) (hs.kept.trans hk)
    (h₂.congr fun x => (Nat.zero_add _).symm) fun _ hsp => by cases hsp
  rw [Vm.reap, hfree, ok_bind, hfreevm, ok_bind]
  exact ⟨_, rfl, ⟨hall.1, h.coherent.replace (hs.kept.trans hk) hidle⟩, hall.2⟩

theorem Vm.Inv.pipealloc (h : s.Inv L) : ∃ r s', execVm L .pipealloc s = .ok (r, s') ∧ s'.Inv L ∧
    s'.mem = s.mem := by
  rw [execVm]
  rcases h.ok.held.kalloc with hfail | ⟨x, m', hsome, hpage, -, h'⟩
  · rw [hfail]
    exact ⟨_, _, rfl, h, rfl⟩
  · rw [hsome]
    refine ⟨_, _, rfl, h.repipe (.of_page_eq hpage) (h'.congr fun y => ?_)⟩
    simp only [Vm.holders, Vm.inPipes, Pi.add_apply, count_cons_only]
    omega

theorem Vm.Inv.pipeclose (h : s.Inv L) {x : ℕ} (hx : x ∈ s.pipes) : ∃ s',
    execVm L (.pipeclose x) s = .ok (.none, s') ∧ s'.Inv L ∧ s'.mem = s.mem := by
  have hheld : Held L s.phys ((fun y => (s.pipes.erase x).count y) +
      (s.tables + ∑ p, share s.phys (s.space p)) + only x) := by
    refine h.ok.held.congr fun y => ?_
    have hcount := (List.perm_cons_erase hx).count_eq y
    rw [count_cons_only] at hcount
    simp only [Vm.holders, Vm.inPipes, Pi.add_apply]
    omega
  obtain ⟨m', hfree, hsame, h'⟩ := hheld.kfree
  rw [execVm, if_pos hx, hfree, ok_bind]
  refine ⟨_, rfl, h.repipe (fun y hy => hsame y (hheld.ne_only ?_)) h'⟩
  rw [Pi.add_apply]
  omega

theorem Vm.Inv.set_pipe (h : s.Inv L) {x : ℕ} (hx : x ∈ s.pipes) (i : Fin nPtEntries) (w : UInt32) :
    Vm.Inv L { s with phys := s.phys.set x i w } ∧
      Vm.mem { s with phys := s.phys.set x i w } = s.mem := by
  have hpos : 0 < s.pipes.count x := List.count_pos_iff.mpr hx
  have hle := h.ok.held.le_one x
  simp only [Vm.holders, Vm.inPipes, Pi.add_apply] at hle
  refine h.repipe (fun y hy => ?_) (h.ok.held.set ?_ i w)
  · rw [Phys.set_page, if_neg]
    rintro rfl
    rw [Pi.add_apply] at hy
    omega
  · simp only [Vm.holders, Vm.inPipes, Pi.add_apply]
    omega

theorem Vm.Inv.set_kstack (h : s.Inv L) (hp : s.space p = some sp) (i : Fin nPtEntries)
    (w : UInt32) : Vm.Inv L { s with phys := s.phys.set sp.kstack i w } ∧
      Vm.mem { s with phys := s.phys.set sp.kstack i w } = s.mem := by
  have howns : Owns L s.phys sp.pgdir (s.others p + only sp.kstack) := by
    rw [add_comm]
    exact h.ok.owns hp
  have hheld : Held L s.phys (frames sp.pgdir (s.phys.tree sp.pgdir) +
      userPages (s.phys.tree sp.pgdir) + s.others p + only sp.kstack) := by
    refine Held.congr howns fun x => ?_
    simp only [Pi.add_apply]
    omega
  have hk : Kept (frames sp.pgdir (s.phys.tree sp.pgdir) +
      userPages (s.phys.tree sp.pgdir) + s.others p) s.phys (s.phys.set sp.kstack i w) := by
    intro x hx
    rw [Phys.set_page, if_neg (hheld.ne_only hx)]
  obtain ⟨htree, hview⟩ := hk.other (d := sp.pgdir) fun x => Nat.le_add_right _ _
  have hset : Held L (s.phys.set sp.kstack i w)
      (share (s.phys.set sp.kstack i w) (some sp) + s.others p) := by
    refine (hheld.set (x := sp.kstack) ?_ i w).congr fun x => ?_
    · simp only [Pi.add_apply, only_self]
      omega
    · simp only [share, Option.elim_some, htree, Pi.add_apply]
      omega
  have hkept : Kept (s.others p) s.phys (s.phys.set sp.kstack i w) :=
    hk.mono fun x => Nat.le_add_left _ _
  have hall := h.ok.replace (p := p) hkept hset fun sp' hsp' => by
    obtain rfl := Option.some.inj hsp'
    exact (h.ok.space p sp hp).congr htree hview
  rw [Option.map_some, Space.mem_copy rfl hview, ← Vm.mem_of_space hp, Function.update_eq_self,
    Vm.setSpace_self hp] at hall
  refine ⟨⟨hall.1, h.coherent.kept rfl rfl fun q sq _ hsq => ⟨hsq, fun v _ => ?_⟩⟩, hall.2⟩
  refine congrArg (fun t : PageTable => t.get v) ?_
  by_cases hqp : q = p
  · subst hqp
    obtain rfl : sp = sq := Option.some.inj (hp.symm.trans hsq)
    exact htree
  · exact (hkept.space fun x => hsq ▸ s.share_le hqp x).1

end Steps

end SsuOs.Xv6
