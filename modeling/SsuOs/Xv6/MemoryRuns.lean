import SsuOs.Xv6.MemorySteps

/-! Runs of the machine with page tables from `main` on. -/
namespace SsuOs.Xv6
open SsuOs.Lib

section Step

variable {L : Layout} {s : Vm} {p : Fin nProc}

/-- A step is not possible, or it keeps the invariant and is a step of the machine in which every
process has a memory of its own. -/
def Vm.Simulates (L : Layout) (s : Vm) (a : VmStep) : Prop := execVm L a s = .error .notEnabled ∨
  ∃ r s', execVm L a s = .ok (r, s') ∧ s'.Inv L ∧ MemStep s.mem a r s'.mem

theorem Vm.Inv.load (h : s.Inv L) (v : Fin nPages) (i : Fin nPtEntries) :
    s.Simulates L (.load p v i) := by
  unfold Vm.Simulates
  rw [execVm]
  cases hr : s.running p with
  | none => exact .inl rfl
  | some sp =>
    have hstep := MemStep.load (i := i) (v := v) (Vm.mem_of_space (Vm.of_running hr).2)
    have hmask : (pteP ||| pteU) &&& (pteP ||| pteW ||| pteU) = pteP ||| pteU := by decide
    dsimp only
    obtain ⟨tlb, h', ⟨hpage, htr⟩ | ⟨e, -, -, hpage, htr⟩⟩ := h.user_access hr v hmask (by decide)
    · rw [hpage] at hstep
      rw [htr]
      exact .inr ⟨_, _, rfl, h', hstep⟩
    · rw [hpage] at hstep
      rw [htr]
      exact .inr ⟨_, _, rfl, h', hstep⟩

theorem Vm.Inv.store (h : s.Inv L) (v : Fin nPages) (i : Fin nPtEntries) (w : UInt32) :
    s.Simulates L (.store p v i w) := by
  unfold Vm.Simulates
  rw [execVm]
  cases hr : s.running p with
  | none => exact .inl rfl
  | some sp =>
    have hp := Vm.mem_of_space (Vm.of_running hr).2
    have hmask : (pteP ||| pteW ||| pteU) &&& (pteP ||| pteW ||| pteU) =
        pteP ||| pteW ||| pteU := by decide
    dsimp only
    obtain ⟨tlb, h', ⟨hpage, htr⟩ | ⟨e, hk, he, hpage, htr⟩⟩ :=
      h.user_access hr v hmask (by decide)
    · rw [htr]
      exact .inr ⟨_, _, rfl, h', .storeTrap hp hpage⟩
    · obtain ⟨h'', hmem⟩ := h'.fill (p := p) hr hk he (Function.update (s.phys.page e.page) i w)
      have hstep := MemStep.store (i := i) (w := w) hp hpage
      rw [htr]
      refine .inr ⟨_, _, rfl, h'', ?_⟩
      rw [Phys.set, hmem]
      exact hstep

theorem Vm.Inv.kload (h : s.Inv L) (v : Fin nPages) (i : Fin nPtEntries) :
    s.Simulates L (.kload p v i) := by
  unfold Vm.Simulates
  rw [execVm]
  cases hr : s.running p with
  | none => exact .inl rfl
  | some sp =>
    have hmask : pteP &&& (pteP ||| pteW ||| pteU) = pteP := by decide
    dsimp only
    split_ifs with hv
    · obtain ⟨tlb, e, h', -, -, hpage, htr⟩ := h.kernel_access hr hv hmask
      rw [htr]
      exact .inr ⟨_, _, rfl, h', .kload (Vm.mem_of_space (Vm.of_running hr).2) hpage⟩
    · exact .inl rfl

theorem Vm.Inv.kstore (h : s.Inv L) (v : Fin nPages) (i : Fin nPtEntries) (w : UInt32) :
    s.Simulates L (.kstore p v i w) := by
  unfold Vm.Simulates
  rw [execVm]
  cases hr : s.running p with
  | none => exact .inl rfl
  | some sp =>
    have hmask : (pteP ||| pteW) &&& (pteP ||| pteW ||| pteU) = pteP ||| pteW := by decide
    dsimp only
    split_ifs with hv
    · obtain ⟨tlb, e, h', hk, he, hpage, htr⟩ := h.kernel_access hr hv hmask
      obtain ⟨h'', hmem⟩ := h'.fill (p := p) hr hk he (Function.update (s.phys.page e.page) i w)
      rw [htr]
      refine .inr ⟨_, _, rfl, h'', ?_⟩
      rw [Phys.set, hmem]
      exact .kstore (Vm.mem_of_space (Vm.of_running hr).2) hpage
    · exact .inl rfl

theorem Vm.Inv.sbrk (h : s.Inv L) {n : ℤ} (hn : s.empties (.sbrk p n) = false) :
    s.Simulates L (.sbrk p n) := by
  unfold Vm.Simulates
  rw [execVm]
  cases hr : s.running p with
  | none => exact .inl rfl
  | some sp =>
    have hp := (Vm.of_running hr).2
    have hne : (sp.sz : ℤ) + wrap32 n ≠ 0 := by simpa [Vm.empties, hp] using hn
    obtain ⟨r, s', u, he, h', hsbrk, hmem⟩ := h.growproc hr (inInt_wrap32 n) hne
    refine .inr ⟨r, s', he, h', ?_⟩
    rw [hmem]
    exact .sbrk (Vm.mem_of_space hp) hsbrk

theorem Vm.Inv.sys_fork (h : s.Inv L) (np : Fin nProc) : s.Simulates L (.fork p np) := by
  unfold Vm.Simulates
  rw [execVm]
  cases hr : s.running p with
  | none => exact .inl rfl
  | some sp =>
    cases hnp : s.space np with
    | some _ => exact .inl rfl
    | none =>
      have hp := (Vm.of_running hr).2
      obtain ⟨r, s', he, h', ⟨rfl, hmem⟩ | ⟨rfl, hmem⟩⟩ := h.fork hp hnp
      · refine .inr ⟨_, s', he, h', ?_⟩
        rw [hmem]
        exact .forkFailed
      · refine .inr ⟨_, s', he, h', ?_⟩
        rw [hmem]
        exact .fork (Vm.mem_of_space hp) (by rw [Vm.mem, hnp, Option.map_none])

theorem Vm.Inv.exit (h : s.Inv L) : s.Simulates L (.exit p) := by
  unfold Vm.Simulates
  rw [execVm]
  cases hr : s.running p with
  | none => exact .inl rfl
  | some sp =>
    have hp := (Vm.of_running hr).2
    have hok := h.ok.space p sp hp
    have howns := h.ok.owns hp
    have hall := h.ok.replace (p := p) (o := some { sp with zombie := true }) (.refl _ _)
      (Owns.held_share { sp with zombie := true } howns) fun sp' hsp' => by
        obtain rfl := Option.some.inj hsp'
        exact hok.copy rfl hok.kernel hok.dir fun _ _ => rfl
    have hmem : (some { sp with zombie := true }).map (Space.mem s.phys) = s.mem p :=
      (Vm.mem_of_space hp).symm
    rw [hmem, Function.update_eq_self] at hall
    refine .inr ⟨_, _, rfl, hall.1.switchkvm, ?_⟩
    have hsame : (s.setSpace p (some { sp with zombie := true })).switchkvm.mem = s.mem := hall.2
    rw [hsame]
    exact .exit

theorem Vm.Inv.wait (h : s.Inv L) (np : Fin nProc) : s.Simulates L (.wait np) := by
  unfold Vm.Simulates
  rw [execVm]
  cases hp : s.space np with
  | none => exact .inl rfl
  | some sp =>
    dsimp only
    split_ifs with hz
    · obtain ⟨s', he, h', hmem⟩ := h.reap hp hz
      refine .inr ⟨.none, s', he, h', ?_⟩
      rw [hmem]
      exact .wait
    · exact .inl rfl

theorem Vm.Inv.kernelStore (h : s.Inv L) (x : ℕ) (i : Fin nPtEntries) (w : UInt32) :
    s.Simulates L (.kernelStore x i w) := by
  unfold Vm.Simulates
  rw [execVm]
  split_ifs with hx
  · have hset : Vm.Inv L { s with phys := s.phys.set x i w } ∧
        Vm.mem { s with phys := s.phys.set x i w } = s.mem := by
      rcases hx with hpipe | ⟨p, sp, hp, rfl⟩
      · exact h.set_pipe hpipe i w
      · exact h.set_kstack hp i w
    refine .inr ⟨.none, _, rfl, hset.1, ?_⟩
    rw [hset.2]
    exact .kernelStore
  · exact .inl rfl

theorem Vm.Inv.schedule (h : s.Inv L) : s.Simulates L (.schedule p) := by
  unfold Vm.Simulates
  rw [execVm]
  split
  · rename_i sp hcur hsp
    split_ifs with hz
    · exact .inl rfl
    · exact .inr ⟨_, _, rfl, h.ok.switchuvm hsp (Bool.eq_false_iff.mpr hz), .schedule⟩
  · exact .inl rfl

theorem Vm.Inv.evict (h : s.Inv L) (v : Fin nPages) : s.Simulates L (.evict v) := by
  refine .inr ⟨_, _, rfl, ⟨⟨h.ok.held, h.ok.space⟩, h.coherent.alive, fun w e he => ?_⟩, .evict⟩
  dsimp only at he
  rw [Function.update_apply] at he
  split_ifs at he
  exact h.coherent.entry w e he

theorem Vm.Inv.step (h : s.Inv L) (a : VmStep) (ha : s.empties a = false) :
    s.Simulates L a := by
  cases a with
  | load p v i => exact h.load v i
  | store p v i w => exact h.store v i w
  | kload p v i => exact h.kload v i
  | kstore p v i w => exact h.kstore v i w
  | sbrk p n => exact h.sbrk ha
  | fork p np => exact h.sys_fork np
  | exit p => exact h.exit
  | wait np => exact h.wait np
  | pipealloc =>
    obtain ⟨r, s', he, h', hmem⟩ := h.pipealloc
    exact .inr ⟨r, s', he, h', hmem ▸ .pipealloc⟩
  | pipeclose x =>
    by_cases hx : x ∈ s.pipes
    · obtain ⟨s', he, h', hmem⟩ := h.pipeclose hx
      exact .inr ⟨.none, s', he, h', hmem ▸ .pipeclose⟩
    · exact .inl (if_neg hx)
  | kernelStore x i w => exact h.kernelStore x i w
  | schedule p => exact h.schedule
  | yield p =>
    by_cases hp : s.current = some p
    · exact .inr ⟨_, _, if_pos hp, h.ok.switchkvm, .yield⟩
    · exact .inl (if_neg hp)
  | evict v => exact h.evict v

end Step

section Boot

variable {L : Layout} {m : Phys} {A : ℕ → ℕ}

theorem count_range' (a n x : ℕ) :
    (List.range' a n).count x = if a ≤ x ∧ x < a + n then 1 else 0 := by
  split_ifs with hx
  · exact List.count_eq_one_of_mem List.nodup_range' (List.mem_range'_1.mpr hx)
  · exact List.count_eq_zero.mpr (mt List.mem_range'_1.mp hx)

theorem Held.freerange {a n : ℕ} (h : Held L m (A + fun x => (List.range' a n).count x)) :
    ∃ m', m.freerange L a n = .ok m' ∧ Held L m' A ∧ Kept A m m' := by
  have hloop := foldlM_ok (f := fun (m' : Phys) (x : ℕ) => m'.kfree L x)
    (fun l m' => Kept A m m' ∧ Held L m' (A + fun x => l.count x)) ?_
    (l := List.range' a n) ⟨Kept.refl A m, h⟩
  · obtain ⟨m', hm', hk, hheld⟩ := hloop
    refine ⟨m', hm', hheld.congr fun x => ?_, hk⟩
    rw [Pi.add_apply, List.count_nil, Nat.add_zero]
  · rintro x l m₁ ⟨hk, h₁⟩
    have hcons : Held L m₁ (A + (fun y => l.count y) + only x) := by
      refine h₁.congr fun y => ?_
      simp only [Pi.add_apply, count_cons_only]
      omega
    obtain ⟨m₂, hfree, hsame, h₂⟩ := hcons.kfree
    refine ⟨m₂, hfree, hk.trans fun y hy => hsame y (hcons.ne_only ?_), h₂⟩
    rw [Pi.add_apply]
    omega

theorem held_start (L : Layout) : Held L ⟨fun _ _ => 0, 0⟩
    ((fun x => (List.range' L.early (L.phystop - L.early)).count x) +
      fun x => (List.range' L.first (L.early - L.first)).count x) := by
  refine ⟨[], .nil, fun x => ?_⟩
  have h₁ := L.first_le
  have h₂ := L.early_le
  rw [List.count_nil, Pi.add_apply, count_range', count_range', Layout.pool]
  split_ifs <;> omega

theorem IsBare.inituvm {d : ℕ} {E : ℕ → ℕ} (h : IsBare L m d E) {init : Page} {m' : Phys}
    (hinit : m.inituvm d init = .ok (true, m')) :
    Owns L m' d E ∧ Becomes d E 0 1 (some (userFlags, init)) m m' := by
  rw [Phys.inituvm] at hinit
  rcases h.owns.kalloc with hfail | ⟨x, m₁, hsome, -, halloc⟩
  · rw [hfail] at hinit
    cases hinit
  obtain ⟨h₂, hsame, htree⟩ := halloc fun _ => 0
  have hperm : (pteW ||| pteU).toNat < pgSize := by decide
  have hnone : ((m₁.fill x fun _ => 0).tree d).get 0 = none := by
    rw [htree]
    exact view_eq_none.mp (h.bare 0 (by decide))
  rw [hsome] at hinit
  dsimp only at hinit
  rcases h₂.mappages (by decide) hperm hnone with hmap | ⟨m₃, hmap, h₃, hget, hb₃⟩
  · rw [hmap, ok_bind] at hinit
    cases hinit
  · rw [hmap, ok_bind] at hinit
    obtain ⟨h₄, hb₄, -⟩ := h₃.fill (by decide) hget init
    cases hinit
    refine ⟨h₄, ((hsame.then hb₃).kept).trans hb₄.kept, fun w hw hwn => ?_, fun w hw => ?_,
      fun hdir => hb₄.dir ((hsame.then hb₃).dir hdir)⟩
    · rw [hb₄.entry w hw hwn, (hsame.then hb₃).entry w hw hwn]
    · rw [hb₄.user w hw, (hsame.then hb₃).user w hw]
      split_ifs <;> rfl

def firstMem (init : Page) (p : Fin nProc) : Fin nProc → Option UserMem :=
  Function.update (fun _ => none) p (some ⟨pgSize, Function.update (fun _ => none) 0 (some init)⟩)

section First

variable {d kstack : ℕ} {init : Page} {m' : Phys}
  (hview : ∀ w, w < kernBase → m'.view d w = if w = 0 then some (userFlags, init) else none)
include hview

theorem SpaceOk.first (hkernel : KernelOk (m'.tree d)) (hdir : DirOk (m'.tree d)) :
    SpaceOk m' ⟨d, pgSize, kstack, false⟩ := by
  have hone : pages pgSize = 1 := by decide
  have hpos : 0 < pgSize := by decide
  have hsz : pgSize ≤ kernBase * pgSize := by decide
  refine ⟨hpos, hsz, hkernel, hdir, fun w hw hwk => ?_, fun w hw => ⟨init, ?_⟩⟩
  · rw [hone] at hw
    rw [hview w hwk, if_neg (by omega)]
  · rw [hone] at hw
    obtain rfl : w = 0 := by omega
    rw [hview 0 (by decide), if_pos rfl]

theorem Space.mem_first : Space.mem m' ⟨d, pgSize, kstack, false⟩ =
    ⟨pgSize, Function.update (fun _ => none) 0 (some init)⟩ := by
  unfold Space.mem
  congr 1
  funext w
  rw [Function.update_apply]
  by_cases hw : w < kernBase
  · rw [if_pos hw, hview w hw]
    split_ifs <;> rfl
  · rw [if_neg hw, if_neg]
    rintro rfl
    exact hw (by decide)

end First

theorem Vm.Inv.first {kd d kstack : ℕ} {init : Page} {p : Fin nProc} {m' : Phys} {s : Vm}
    (hb : IsBare L m d (only kstack +
      (frames kd (m.tree kd) + userPages (m.tree kd))))
    (hinit : m.inituvm d init = .ok (true, m'))
    (hs : s = ⟨m', kd, Function.update (fun _ => none) p (some ⟨d, pgSize, kstack, false⟩), [],
      none, fun _ => none⟩) : s.Inv L ∧ s.mem = firstMem init p := by
  obtain ⟨ho, hbe⟩ := hb.inituvm hinit
  obtain ⟨htree, -⟩ := hbe.kept.other (d := kd) fun x => Nat.le_add_left _ _
  have hview : ∀ w, w < kernBase →
      m'.view d w = if w = 0 then some (userFlags, init) else none := by
    intro w hw
    rw [hbe.user w hw, hb.bare w hw]
    split_ifs <;> first | rfl | omega
  have hp : s.space p = some ⟨d, pgSize, kstack, false⟩ := by
    rw [hs]
    dsimp only
    rw [Function.update_self]
  have hq : ∀ q, q ≠ p → s.space q = none := by
    intro q hq
    rw [hs]
    dsimp only
    rw [Function.update_of_ne hq]
  have hphys : s.phys = m' := by rw [hs]
  have hothers : s.others p = frames kd (m.tree kd) + userPages (m.tree kd) := by
    have hsum : ∑ q ∈ Finset.univ.erase p, share s.phys (s.space q) = 0 := by
      refine Finset.sum_eq_zero fun q hq' => ?_
      rw [hq q (Finset.ne_of_mem_erase hq')]
      rfl
    rw [Vm.others, hsum, hs]
    ext x
    simp only [Vm.inPipes, Vm.tables, htree, Pi.add_apply, List.count_nil, Pi.zero_apply]
    omega
  have hcoherent : s.Coherent := by
    rw [hs]
    exact Vm.Coherent.mk (fun _ hq => by cases hq) fun _ _ he => by cases he
  refine ⟨⟨⟨?_, fun q sp hsp => ?_⟩, hcoherent⟩, funext fun q => ?_⟩
  · rw [s.holders_eq p, hp, hothers, hphys]
    exact Owns.held_share ⟨d, pgSize, kstack, false⟩ ho
  · by_cases hqp : q = p
    · subst hqp
      rw [hp] at hsp
      obtain rfl := Option.some.inj hsp
      rw [hphys]
      exact .first hview (hb.kernel.of_eq hbe.kernel) (hbe.dir hb.dir)
    · rw [hq q hqp] at hsp
      cases hsp
  · by_cases hqp : q = p
    · subst hqp
      rw [Vm.mem_of_space hp, hphys, Space.mem_first hview, firstMem, Function.update_self]
    · rw [Vm.mem, hq q hqp, firstMem, Function.update_of_ne hqp, Option.map_none]

theorem boot_ok {init : Page} {p : Fin nProc} {s : Vm} (h : boot L init p = .ok (true, s)) :
    s.Inv L ∧ s.mem = firstMem init p := by
  obtain ⟨m₁, hfree₁, h₁, -⟩ := (held_start L).freerange
  obtain ⟨r, m₂, hsetup, -, hr⟩ := h₁.setupkvm
  rw [boot, hfree₁, ok_bind, hsetup, ok_bind] at h
  dsimp only at h
  rcases hr with ⟨rfl, h₂⟩ | ⟨kd, rfl, hbare⟩
  · have h₂' : Held L m₂ (0 + fun x => (List.range' L.early (L.phystop - L.early)).count x) := by
      rwa [zero_add]
    obtain ⟨m₃, hfree₃, -⟩ := h₂'.freerange
    rw [hfree₃, ok_bind] at h
    cases h
  have h₂ : Held L m₂ (frames kd (m₂.tree kd) + userPages (m₂.tree kd) +
      fun x => (List.range' L.early (L.phystop - L.early)).count x) := by
    rw [add_assoc]
    exact hbare.owns
  obtain ⟨m₃, hfree₃, h₃, hk₃⟩ := h₂.freerange
  have htree₃ := (hk₃.other fun x => le_rfl).1
  rw [hfree₃, ok_bind] at h
  rcases h₃.kalloc with hfail | ⟨kstack, m₄, hsome, hpage, -, h₄⟩
  · rw [hfail] at h
    cases h
  have htree₄ : m₄.tree kd = m₃.tree kd := tree_of_kept (.of_page_eq hpage)
  rw [hsome] at h
  dsimp only at h
  obtain ⟨r, m₅, hsetup₅, hk₅, hr₅⟩ := h₄.setupkvm
  rw [hsetup₅, ok_bind] at h
  rcases hr₅ with ⟨rfl, -⟩ | ⟨d, rfl, hbare₅⟩
  · cases h
  have htree₅ : m₅.tree kd = m₂.tree kd := by
    rw [(hk₅.other (d := kd) fun x => ?_).1, htree₄, htree₃]
    rw [htree₄, htree₃]
    exact Nat.le_add_right _ _
  rw [← htree₅, add_comm] at hbare₅
  dsimp only at h
  cases hinit : m₅.inituvm d init with
  | error f =>
    rw [hinit] at h
    cases h
  | ok res =>
    obtain ⟨mapped, m'⟩ := res
    rw [hinit, ok_bind] at h
    cases h
    exact Vm.Inv.first hbare₅ hinit rfl

end Boot

section Runs

variable {L : Layout} {init : Page} {p : Fin nProc} {tr : List (Event Vm VmStep VmRet)} {s : Vm}

theorem Vm.Inv.of_exec {a : VmStep} {r : VmRet} {s' : Vm} (h : s.Inv L)
    (ha : s.empties a = false) (he : execVm L a s = .ok (r, s')) :
    s'.Inv L ∧ MemStep s.mem a r s'.mem := by
  rcases h.step a ha with hno | ⟨r', s'', he', hinv⟩
  · rw [hno] at he
    cases he
  · rw [he] at he'
    cases he'
    exact hinv

theorem VmRun.inv (h : VmRun L init p tr s) : s.Inv L :=
  h.invariant (fun _ hs => (boot_ok hs).1) fun _ _ _ _ hinv ha he => (hinv.of_exec ha he).1

theorem Vm.Inv.sbrk_all (h : s.Inv L) {q : Fin nProc} {n : ℤ}
    (hn : s.empties (.sbrk q n) = true) : execVm L (.sbrk q n) s ≠ .error .panic := by
  rw [execVm]
  cases hr : s.running q with
  | none => simp
  | some sp =>
    have hp := (Vm.of_running hr).2
    have hok := h.ok.space q sp hp
    have hpos := hok.sz_pos
    have hz : (sp.sz : ℤ) + wrap32 n = 0 := by simpa [Vm.empties, hp] using hn
    obtain ⟨m', hde, -⟩ := (h.ok.owns hp).deallocuvm hok.sz_le 0
    dsimp only
    rw [Vm.growproc, if_neg (by omega), if_pos (by omega), hz]
    have hde' : s.phys.deallocuvm L sp.pgdir sp.sz ((0 : ℤ) % 2 ^ 32).toNat =
        .ok (min sp.sz 0, m') := hde
    rw [hde', ok_bind]
    dsimp only
    split_ifs <;> simp

/-- Test the run that a list of calls makes after `main`. -/
def bootCheck (admissible : VmStep → Vm → Prop) [∀ a s, Decidable (admissible a s)] (L : Layout)
    (init : Page) (p : Fin nProc) (cs : List VmStep)
    (test : List (Event Vm VmStep VmRet) → Vm → Bool) : Bool :=
  match boot L init p with
  | .ok (true, s) => replayCheck (execVm L) admissible cs s test
  | _ => false

theorem exists_of_bootCheck {admissible : VmStep → Vm → Prop}
    [∀ a s, Decidable (admissible a s)] {cs : List VmStep}
    {test : List (Event Vm VmStep VmRet) → Vm → Bool}
    (h : bootCheck admissible L init p cs test = true) : ∃ tr s,
      Run (execVm L) admissible (fun s => boot L init p = .ok (true, s)) tr s ∧
        test tr s = true := by
  unfold bootCheck at h
  split at h
  · next s hboot => exact Run.exists_of_replayCheck cs hboot h
  · cases h

def smallLayout : Layout :=
  ⟨1, 2, 3, 20, 60, 1048575, by decide, by decide, by decide, by decide, by decide, by decide,
    by decide, by decide⟩

/-- Process `q` writes to its copy of a page of `p`. -/
def writeCopy (p q : Fin nProc) (v : Fin nPages) (i : Fin nPtEntries) : List VmStep :=
  [.schedule p, .store p v i 5, .sbrk p 4096, .fork p q, .yield p, .schedule q, .store q v i 9,
    .yield q, .schedule p, .load p v i, .yield p, .schedule q, .load q v i]

def writeCopyRets : List VmRet :=
  [.word 9, .none, .none, .word 5, .none, .none, .none, .none, .none, .none, .int 4096, .none,
    .none]

theorem exists_writeCopy : ∃ init p tr s, VmRun smallLayout init p tr s ∧
    tr.map (fun e => e.ret) = writeCopyRets := by
  have hcheck : ∃ (p q : Fin nProc) (v : Fin nPages) (i : Fin nPtEntries),
      bootCheck (fun a s => s.empties a = false) smallLayout (fun _ => 0) p (writeCopy p q v i)
        (fun tr _ => decide (tr.map (fun e => e.ret) = writeCopyRets)) = true :=
    ⟨⟨0, by decide⟩, ⟨1, by decide⟩, ⟨0, by decide⟩, ⟨0, by decide⟩, by decide +kernel⟩
  obtain ⟨p, q, v, i, h⟩ := hcheck
  obtain ⟨tr, s, hr, hrets⟩ := exists_of_bootCheck h
  exact ⟨_, p, tr, s, hr, of_decide_eq_true hrets⟩

/-- As long as no process has given back all its memory, no call of the kernel reaches a panic of
`kalloc.c` or `vm.c` or a page that is not there. -/
theorem memory_never_panics (h : VmRun L init p tr s) (a : VmStep) :
    execVm L a s ≠ .error .panic := by
  have hinv := VmRun.inv h
  cases ha : s.empties a with
  | false =>
    rcases hinv.step a ha with hno | ⟨r, s', he, -⟩
    · rw [hno]
      simp
    · rw [he]
      simp
  | true =>
    cases a with
    | sbrk q n => exact hinv.sbrk_all ha
    | _ => cases ha

theorem memory_never_panics_writeCopy : ∃ init p tr s, VmRun smallLayout init p tr s ∧
    tr.map (fun e => e.ret) = writeCopyRets ∧ ∀ a, execVm smallLayout a s ≠ .error .panic := by
  obtain ⟨init, p, tr, s, hr, hrets⟩ := exists_writeCopy
  exact ⟨init, p, tr, s, hr, hrets, memory_never_panics hr⟩

/-- A process gives back all its memory and, through the translation that the processor still has,
writes the link of the page that is now first on the free list, so that page 1 of the kernel comes
next. -/
def linkFreeList (p : Fin nProc) (v : Fin nPages) (i : Fin nPtEntries) : List VmStep :=
  [.schedule p, .load p v i, .sbrk p (-4096), .store p v i (p2v 1), .pipealloc, .pipealloc]

/-- After `sbrk` of the whole memory the kernel may panic. -/
theorem memory_panics_after_sbrk_all : ∃ init p tr s,
    Run (execVm smallLayout) (fun _ _ => True) (fun s => boot smallLayout init p = .ok (true, s))
      tr s ∧ execVm smallLayout (.pipeclose 1) s = .error .panic := by
  have hcheck : ∃ (p : Fin nProc) (v : Fin nPages) (i : Fin nPtEntries),
      bootCheck (fun _ _ => True) smallLayout (fun _ => 0) p (linkFreeList p v i)
        (fun _ s => decide (1 ∈ s.pipes)) = true :=
    ⟨⟨0, by decide⟩, ⟨0, by decide⟩, ⟨0, by decide⟩, by decide +kernel⟩
  obtain ⟨p, v, i, h⟩ := hcheck
  obtain ⟨tr, s, hr, hmem⟩ := exists_of_bootCheck h
  refine ⟨_, p, tr, s, hr, ?_⟩
  rw [execVm, if_pos (of_decide_eq_true hmem), Phys.kfree, if_pos (.inl (by decide))]
  rfl

end Runs

end SsuOs.Xv6
