import SsuOs.Xv6.AddressSpace
import SsuOs.Xv6.Memory

/-! Every process has a memory of its own. The machine with page tables does what a machine does in
which no memory is shared, it never panics, and each page is free or has one holder. -/
namespace SsuOs.Xv6
open SsuOs.Lib

/-- The memory of a process as it sees it. -/
structure UserMem where
  sz : ℕ
  page : ℕ → Option Page

def UserMem.write (u : UserMem) (v : ℕ) (c : Page) : UserMem :=
  { u with page := Function.update u.page v (some c) }

/-- The memory with another size; new pages are zeroed. -/
def UserMem.resize (u : UserMem) (sz : ℕ) : UserMem where
  sz := sz
  page v := if v < pages sz then (if v < pages u.sz then u.page v else some fun _ => 0) else none

/-- What `sbrk` returns and makes of the memory. -/
inductive Sbrk (u : UserMem) (n : ℤ) : VmRet → UserMem → Prop
  | resized {sz : ℕ} : (sz : ℤ) = u.sz + n → (n < 0 → 0 < sz) → Sbrk u n (.int u.sz) (u.resize sz)
  | failed : 0 < n → Sbrk u n (.int (-1)) u
  /-- More is given back than there is: nothing happens, and it is not an error. -/
  | ignored : u.sz + n < 0 → Sbrk u n (.int u.sz) u

/-- The steps of a machine in which every process has a memory of its own. -/
inductive MemStep (A : Fin nProc → Option UserMem) :
    VmStep → VmRet → (Fin nProc → Option UserMem) → Prop
  | load {p i u} {v : Fin nPages} : A p = some u →
      MemStep A (.load p v i) ((u.page v).elim .trap fun c => .word (c i)) A
  | store {p i w u c} {v : Fin nPages} : A p = some u → u.page v = some c →
      MemStep A (.store p v i w) .none
        (Function.update A p (some (u.write v (Function.update c i w))))
  | storeTrap {p i w u} {v : Fin nPages} : A p = some u → u.page v = none →
      MemStep A (.store p v i w) .trap A
  | kload {p i u c} {v : Fin nPages} : A p = some u → u.page v = some c →
      MemStep A (.kload p v i) (.word (c i)) A
  | kstore {p i w u c} {v : Fin nPages} : A p = some u → u.page v = some c →
      MemStep A (.kstore p v i w) .none
        (Function.update A p (some (u.write v (Function.update c i w))))
  | sbrk {p n u r u'} : A p = some u → Sbrk u (wrap32 n) r u' →
      MemStep A (.sbrk p n) r (Function.update A p (some u'))
  | fork {p np u} : A p = some u → A np = none →
      MemStep A (.fork p np) .none (Function.update A np (some u))
  | forkFailed {p np} : MemStep A (.fork p np) (.int (-1)) A
  | exit {p} : MemStep A (.exit p) .none A
  | wait {np} : MemStep A (.wait np) .none (Function.update A np none)
  | pipealloc {r} : MemStep A .pipealloc r A
  | pipeclose {x} : MemStep A (.pipeclose x) .none A
  | kernelStore {x i w} : MemStep A (.kernelStore x i w) .none A
  | schedule {p} : MemStep A (.schedule p) .none A
  | yield {p} : MemStep A (.yield p) .none A
  | evict {v} : MemStep A (.evict v) .none A

def Space.mem (m : Phys) (sp : Space) : UserMem :=
  ⟨sp.sz, fun v => if v < kernBase then (m.view sp.pgdir v).map Prod.snd else none⟩

def Vm.mem (s : Vm) (p : Fin nProc) : Option UserMem := (s.space p).map (Space.mem s.phys)

/-- The pages a process holds. -/
def share (m : Phys) (o : Option Space) : ℕ → ℕ :=
  o.elim 0 fun sp =>
    frames sp.pgdir (m.tree sp.pgdir) + userPages (m.tree sp.pgdir) + only sp.kstack

namespace Vm

def tables (s : Vm) : ℕ → ℕ := frames s.kpgdir (s.phys.tree s.kpgdir) +
  userPages (s.phys.tree s.kpgdir)

def inPipes (s : Vm) : ℕ → ℕ := fun x => s.pipes.count x

/-- How often a page is held. -/
def holders (s : Vm) : ℕ → ℕ := s.inPipes + (s.tables + ∑ p, share s.phys (s.space p))

def others (s : Vm) (p : Fin nProc) : ℕ → ℕ :=
  s.inPipes + (s.tables + ∑ q ∈ Finset.univ.erase p, share s.phys (s.space q))

end Vm

abbrev userFlags : UInt32 := pteW ||| pteU ||| pteP

/-- An address space in which the pages below the size, and no others, are mapped. -/
structure SpaceOk (m : Phys) (sp : Space) : Prop where
  sz_pos : 0 < sp.sz
  sz_le : sp.sz ≤ kernBase * pgSize
  kernel : KernelOk (m.tree sp.pgdir)
  dir : DirOk (m.tree sp.pgdir)
  beyond : ∀ w, pages sp.sz ≤ w → w < kernBase → m.view sp.pgdir w = none
  mapped : ∀ w, w < pages sp.sz → ∃ c, m.view sp.pgdir w = some (userFlags, c)

/-- Each page of memory has the holder that it should have, and each process its pages. -/
structure Vm.Ok (L : Layout) (s : Vm) : Prop where
  held : Held L s.phys s.holders
  space : ∀ p sp, s.space p = some sp → SpaceOk s.phys sp

/-- The translations that the processor has kept are those of the page tables of the process that
runs. -/
structure Vm.Coherent (s : Vm) : Prop where
  alive : ∀ p, s.current = some p → ∃ sp, s.space p = some sp ∧ sp.zombie = false
  entry : ∀ v e, s.tlb v = some e → ∃ p sp, s.current = some p ∧ s.space p = some sp ∧
    ((s.phys.tree sp.pgdir).get v).map Pte.cached = some e

structure Vm.Inv (L : Layout) (s : Vm) : Prop where
  ok : s.Ok L
  coherent : s.Coherent

section Frame

variable {L : Layout} {s : Vm} {m m' : Phys} {p q : Fin nProc} {o : Option Space} {sp : Space}
  {E : ℕ → ℕ}

/-- A copy shows the same pages, in whatever memory and under whatever directory. -/
theorem SpaceOk.copy {sp' : Space} (h : SpaceOk m sp) (hsz : sp'.sz = sp.sz)
    (hkernel : KernelOk (m'.tree sp'.pgdir)) (hdir : DirOk (m'.tree sp'.pgdir))
    (hview : ∀ w, w < kernBase → m'.view sp'.pgdir w = m.view sp.pgdir w) : SpaceOk m' sp' := by
  have hpages := pages_le_kernBase h.sz_le
  refine ⟨hsz ▸ h.sz_pos, hsz ▸ h.sz_le, hkernel, hdir, fun w hw hwk => ?_, fun w hw => ?_⟩
  · rw [hsz] at hw
    rw [hview w hwk, h.beyond w hw hwk]
  · rw [hsz] at hw
    rw [hview w (by omega)]
    exact h.mapped w hw

theorem Space.mem_copy {sp' : Space} (hsz : sp'.sz = sp.sz)
    (hview : ∀ w, w < kernBase → m'.view sp'.pgdir w = m.view sp.pgdir w) :
    sp'.mem m' = sp.mem m := by
  unfold Space.mem
  rw [hsz]
  congr 1
  funext w
  split_ifs with hw
  · rw [hview w hw]
  · rfl

theorem SpaceOk.congr (h : SpaceOk m sp) (htree : m'.tree sp.pgdir = m.tree sp.pgdir)
    (hview : ∀ w, w < kernBase → m'.view sp.pgdir w = m.view sp.pgdir w) : SpaceOk m' sp :=
  h.copy rfl (htree ▸ h.kernel) (htree ▸ h.dir) hview

theorem Kept.space (hk : Kept E m m') (hle : ∀ x, share m (some sp) x ≤ E x) :
    m'.tree sp.pgdir = m.tree sp.pgdir ∧
      ∀ w, w < kernBase → m'.view sp.pgdir w = m.view sp.pgdir w := by
  refine hk.other fun x => le_trans ?_ (hle x)
  simp only [share, Option.elim_some, Pi.add_apply]
  omega

theorem Kept.share (hk : Kept E m m') (hle : ∀ x, share m o x ≤ E x) : share m' o = share m o := by
  cases o with
  | none => simp only [SsuOs.Xv6.share, Option.elim_none]
  | some sp =>
    have htree := (hk.space hle).1
    simp only [SsuOs.Xv6.share, Option.elim_some, htree]

theorem Kept.mem (hk : Kept E m m') (hle : ∀ x, SsuOs.Xv6.share m o x ≤ E x) :
    o.map (Space.mem m') = o.map (Space.mem m) := by
  cases o with
  | none => rfl
  | some sp => rw [Option.map_some, Option.map_some, Space.mem_copy rfl (hk.space hle).2]

theorem Kept.tables (hk : Kept E s.phys m') (hle : ∀ x, s.tables x ≤ E x) :
    frames s.kpgdir (m'.tree s.kpgdir) + userPages (m'.tree s.kpgdir) = s.tables := by
  rw [(hk.other hle).1]
  rfl

theorem Vm.holders_eq (s : Vm) (p : Fin nProc) :
    s.holders = share s.phys (s.space p) + s.others p := by
  unfold Vm.holders Vm.others
  rw [← Finset.add_sum_erase _ _ (Finset.mem_univ p)]
  ext x
  simp only [Pi.add_apply]
  omega

theorem Vm.tables_le (s : Vm) (p : Fin nProc) (x : ℕ) : s.tables x ≤ s.others p x := by
  simp only [Vm.others, Pi.add_apply]
  omega

theorem Vm.share_le_sum (s : Vm) {ps : Finset (Fin nProc)} (hq : q ∈ ps) (x : ℕ) :
    share s.phys (s.space q) x ≤ (∑ p ∈ ps, share s.phys (s.space p)) x := by
  rw [Finset.sum_apply]
  exact Finset.single_le_sum (f := fun q => share s.phys (s.space q) x)
    (fun _ _ => Nat.zero_le _) hq

theorem Vm.share_le (s : Vm) (hq : q ≠ p) (x : ℕ) :
    share s.phys (s.space q) x ≤ s.others p x := by
  have hsum := s.share_le_sum (Finset.mem_erase.mpr ⟨hq, Finset.mem_univ q⟩) x
  simp only [Vm.others, Pi.add_apply]
  omega

theorem Vm.mem_of_space (h : s.space p = some sp) : s.mem p = some (sp.mem s.phys) := by
  rw [Vm.mem, h, Option.map_some]

/-- What `p` has becomes `o`, and nobody else's pages are written. -/
theorem Vm.Ok.replace (h : s.Ok L) (hk : Kept (s.others p) s.phys m')
    (hheld : Held L m' (share m' o + s.others p)) (hok : ∀ sp, o = some sp → SpaceOk m' sp) :
    (Vm.setSpace { s with phys := m' } p o).Ok L ∧
      (Vm.setSpace { s with phys := m' } p o).mem =
        Function.update s.mem p (o.map (Space.mem m')) := by
  have hsame : ∀ q, q ≠ p → (Vm.setSpace { s with phys := m' } p o).space q = s.space q :=
    fun q hq => Function.update_of_ne hq _ _
  have hself : (Vm.setSpace { s with phys := m' } p o).space p = o := Function.update_self _ _ _
  have hothers : (Vm.setSpace { s with phys := m' } p o).others p = s.others p := by
    unfold Vm.others
    refine congrArg₂ (· + ·) rfl (congrArg₂ (· + ·) (hk.tables (s.tables_le p)) ?_)
    refine Finset.sum_congr rfl fun q hq => ?_
    rw [hsame q (Finset.ne_of_mem_erase hq)]
    exact hk.share (s.share_le (Finset.ne_of_mem_erase hq))
  refine ⟨⟨?_, fun q sp hsp => ?_⟩, ?_⟩
  · rw [Vm.holders_eq _ p, hothers, hself]
    exact hheld
  · by_cases hq : q = p
    · subst hq
      rw [hself] at hsp
      exact hok sp hsp
    · rw [hsame q hq] at hsp
      obtain ⟨htree, hview⟩ := hk.space fun x => hsp ▸ s.share_le hq x
      exact (h.space q sp hsp).congr htree hview
  · funext q
    by_cases hq : q = p
    · subst hq
      rw [Function.update_self, Vm.mem, hself]
      rfl
    · rw [Function.update_of_ne hq, Vm.mem, hsame q hq]
      exact hk.mem (s.share_le hq)

/-- The process that runs keeps its entries in the page tables. -/
theorem Vm.Coherent.kept {s' : Vm} (hc : s.Coherent) (hcur : s'.current = s.current)
    (htlb : s'.tlb = s.tlb) (h : ∀ q sp, s.current = some q → s.space q = some sp →
      s'.space q = some sp ∧ ∀ w, w < nPages →
        (s'.phys.tree sp.pgdir).get w = (s.phys.tree sp.pgdir).get w) : s'.Coherent := by
  refine ⟨fun q hq => ?_, fun v e he => ?_⟩
  · rw [hcur] at hq
    obtain ⟨sp, hsp, hz⟩ := hc.alive q hq
    exact ⟨sp, (h q sp hq hsp).1, hz⟩
  · rw [htlb] at he
    obtain ⟨q, sp, hq, hsp, hentry⟩ := hc.entry v e he
    obtain ⟨hsp', htree⟩ := h q sp hq hsp
    exact ⟨q, sp, hcur.trans hq, hsp', by rw [htree v v.isLt, hentry]⟩

theorem Vm.of_running (h : s.running p = some sp) :
    s.current = some p ∧ s.space p = some sp := by
  unfold Vm.running at h
  split_ifs at h with hcur
  exact ⟨hcur, h⟩

theorem Vm.Coherent.kept_phys (hc : s.Coherent) (hr : s.running p = some sp)
    (h : ∀ w, w < nPages → (m'.tree sp.pgdir).get w = (s.phys.tree sp.pgdir).get w) :
    Vm.Coherent { s with phys := m' } := by
  obtain ⟨hcur, hp⟩ := Vm.of_running hr
  refine hc.kept rfl rfl fun q sq hq hsq => ⟨hsq, ?_⟩
  obtain rfl : p = q := Option.some.inj (hcur.symm.trans hq)
  obtain rfl : sp = sq := Option.some.inj (hp.symm.trans hsq)
  exact h

theorem Vm.Coherent.replace (hc : s.Coherent) (hk : Kept (s.others p) s.phys m')
    (hp : s.current ≠ some p) : (Vm.setSpace { s with phys := m' } p o).Coherent := by
  refine hc.kept rfl rfl fun q sp hq hsp => ?_
  have hqp : q ≠ p := by
    rintro rfl
    exact hp hq
  refine ⟨(Function.update_of_ne hqp _ _).trans hsp, fun w _ => ?_⟩
  have htree : m'.tree sp.pgdir = s.phys.tree sp.pgdir :=
    (hk.space fun x => hsp ▸ s.share_le hqp x).1
  exact congrArg (fun t : PageTable => t.get w) htree

/-- After `lcr3` there is nothing that could be out of date. -/
theorem Vm.Coherent.lcr3 {c : Option (Fin nProc)}
    (hp : ∀ q, c = some q → ∃ sp, s.space q = some sp ∧ sp.zombie = false) :
    (s.lcr3 c).Coherent :=
  ⟨hp, fun _ _ he => by cases he⟩

theorem Vm.Inv.repipe (h : s.Inv L) {pipes : List ℕ}
    (hk : Kept (s.tables + ∑ p, share s.phys (s.space p)) s.phys m')
    (hheld : Held L m' ((fun x => pipes.count x) +
      (s.tables + ∑ p, share s.phys (s.space p)))) :
    Vm.Inv L { s with phys := m', pipes := pipes } ∧
      Vm.mem { s with phys := m', pipes := pipes } = s.mem := by
  have hle : ∀ q x, share s.phys (s.space q) x ≤
      (s.tables + ∑ p, share s.phys (s.space p)) x := by
    intro q x
    have hsum := s.share_le_sum (Finset.mem_univ q) x
    rw [Pi.add_apply]
    omega
  have hspace : ∀ q sp, s.space q = some sp → m'.tree sp.pgdir = s.phys.tree sp.pgdir ∧
      ∀ w, w < kernBase → m'.view sp.pgdir w = s.phys.view sp.pgdir w :=
    fun q sp hsp => hk.space fun x => hsp ▸ hle q x
  refine ⟨⟨⟨?_, fun q sp hsp => ?_⟩, h.coherent.kept rfl rfl fun q sp _ hsp => ?_⟩,
    funext fun q => hk.mem (hle q)⟩
  · have htables := hk.tables fun x => by
      rw [Pi.add_apply]
      omega
    have hsum : ∑ p, share m' (s.space p) =
        ∑ p, share s.phys (s.space p) :=
      Finset.sum_congr rfl fun q _ => hk.share (hle q)
    rw [← htables, ← hsum] at hheld
    exact hheld
  · obtain ⟨htree, hview⟩ := hspace q sp hsp
    exact (h.ok.space q sp hsp).congr htree hview
  · exact ⟨hsp, fun w _ => congrArg (fun t : PageTable => t.get w) (hspace q sp hsp).1⟩

theorem Owns.held_share (sp : Space) (h : Owns L m sp.pgdir (only sp.kstack + E)) :
    Held L m (share m (some sp) + E) := by
  refine Held.congr h fun x => ?_
  simp only [share, Option.elim_some, Pi.add_apply]
  omega

theorem Vm.Ok.owns (h : s.Ok L) (hp : s.space p = some sp) :
    Owns L s.phys sp.pgdir (only sp.kstack + s.others p) := by
  refine Held.congr h.held fun x => ?_
  rw [s.holders_eq p, hp]
  simp only [share, Option.elim_some, Pi.add_apply]
  omega

theorem Vm.setSpace_self (h : s.space p = o) (m' : Phys) :
    Vm.setSpace { s with phys := m' } p o = { s with phys := m' } := by
  rw [Vm.setSpace]
  dsimp only
  rw [← h, Function.update_eq_self]

theorem Vm.Inv.not_current (h : s.Inv L) (hp : s.space p = none) : s.current ≠ some p := by
  intro hcur
  obtain ⟨sp, hsp, -⟩ := h.coherent.alive p hcur
  rw [hp] at hsp
  cases hsp

theorem Vm.Ok.held_others (h : s.Ok L) (hp : s.space p = none) :
    Held L s.phys (s.others p) := by
  refine h.held.congr fun x => ?_
  rw [s.holders_eq p, hp, Pi.add_apply]
  exact Nat.zero_add _

/-- Pages were taken and given back, and `p` still has none. -/
theorem Vm.Inv.kept_none (h : s.Inv L) (hp : s.space p = none)
    (hk : Kept (s.others p) s.phys m') (hheld : Held L m' (s.others p)) :
    Vm.Inv L { s with phys := m' } ∧ Vm.mem { s with phys := m' } = s.mem := by
  have hall := h.ok.replace (p := p) (o := none) hk (hheld.congr fun x => (Nat.zero_add _).symm)
    fun _ hsp => by cases hsp
  have hcoh : (Vm.setSpace { s with phys := m' } p none).Coherent :=
    h.coherent.replace hk (h.not_current hp)
  have hnone : s.mem p = none := by rw [Vm.mem, hp, Option.map_none]
  rw [Vm.setSpace_self hp] at hcoh
  rw [Vm.setSpace_self hp, Option.map_none, ← hnone, Function.update_eq_self] at hall
  exact ⟨⟨hall.1, hcoh⟩, hall.2⟩

end Frame

end SsuOs.Xv6
