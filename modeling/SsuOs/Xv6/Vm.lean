import SsuOs.Lib.CInt
import SsuOs.Lib.Radix
import SsuOs.Xv6.Proc

/-! Physical memory, with the free list and the page tables kept in its words, as `kalloc.c` and
`vm.c` have them. Pages go by their numbers, addresses divided by `PGSIZE`; a kernel pointer to a
page and the physical address behind it have the same number here. -/
namespace SsuOs.Xv6
open SsuOs.Lib

abbrev pgSize : ℕ := 4096

/-- `NPDENTRIES` and `NPTENTRIES`. -/
abbrev nPtEntries : ℕ := 1024

instance nPtEntries_neZero : NeZero nPtEntries := ⟨by decide⟩

/-- The number of pages an address can name. -/
abbrev nPages : ℕ := nPtEntries * nPtEntries

/-- The page of `KERNBASE`. -/
abbrev kernBase : ℕ := 524288

abbrev Page : Type := Fin nPtEntries → UInt32

/-- The pages in which the parts of `memlayout.h` and of the linked kernel begin: `EXTMEM`, `data`,
the first page behind `end`, the end of what `entrypgdir` maps, `PHYSTOP` and `DEVSPACE`. -/
structure Layout where
  extmem : ℕ
  data : ℕ
  first : ℕ
  early : ℕ
  phystop : ℕ
  devspace : ℕ
  extmem_pos : 0 < extmem
  extmem_lt : extmem < data
  data_le : data ≤ first
  first_le : first ≤ early
  early_le : early ≤ phystop
  data_lt : data < phystop
  phystop_le : kernBase + phystop ≤ devspace
  devspace_lt : devspace < nPages

abbrev pteP : UInt32 := 1

abbrev pteW : UInt32 := 2

abbrev pteU : UInt32 := 4

def pteAddr (w : UInt32) : ℕ := w.toNat / pgSize

def pteFlags (w : UInt32) : UInt32 := w &&& 0xFFF

def pageAddr (x : ℕ) : UInt32 := UInt32.ofNat (x * pgSize)

def p2v (x : ℕ) : UInt32 := UInt32.ofNat ((kernBase + x) * pgSize)

def v2p (a : UInt32) : ℕ := a.toNat / pgSize - kernBase

/-- `PDX` of an address in page `v`. -/
def pdx (v : ℕ) : Fin nPtEntries := Radix.upper nPtEntries v

/-- `PTX` of an address in page `v`. -/
def ptx (v : ℕ) : Fin nPtEntries := Radix.lower nPtEntries v

/-- The pages that begin below the address `sz`: `PGROUNDUP(sz)` is the end of the last one. -/
def pages (sz : ℕ) : ℕ := (sz + pgSize - 1) / pgSize

/-- What the processor keeps of a translation: the page it has found and what both levels of the
page table grant. -/
structure TlbEntry where
  page : ℕ
  flags : UInt32

def TlbEntry.grant (e : TlbEntry) (access : UInt32) : Option ℕ :=
  if e.flags &&& access = access then some e.page else none

/-- The words of memory and `kmem.freelist`. -/
structure Phys where
  page : ℕ → Page
  freelist : UInt32

namespace Phys

/-- `memset` or `memmove` of a whole page. -/
def fill (m : Phys) (x : ℕ) (c : Page) : Phys := { m with page := Function.update m.page x c }

def set (m : Phys) (x : ℕ) (i : Fin nPtEntries) (w : UInt32) : Phys :=
  m.fill x (Function.update (m.page x) i w)

def kalloc (m : Phys) : Option ℕ × Phys :=
  if m.freelist = 0 then (none, m)
  else (some (v2p m.freelist), { m with freelist := m.page (v2p m.freelist) 0 })

def kfree (L : Layout) (x : ℕ) (m : Phys) : Except Fault Phys :=
  if x < L.first ∨ L.phystop ≤ x then .error .panic
  else
    let m := (m.fill x fun _ => 0x01010101).set x 0 m.freelist
    .ok { m with freelist := p2v x }

def freerange (L : Layout) (a n : ℕ) (m : Phys) : Except Fault Phys :=
  (List.range' a n).foldlM (fun m x => m.kfree L x) m

/-- The page table for page `v`, in which `&pgtab[PTX(va)]` is. -/
def walkpgdir (pgdir v : ℕ) (alloc : Bool) (m : Phys) : Option ℕ × Phys :=
  if m.page pgdir (pdx v) &&& pteP ≠ 0 then (some (pteAddr (m.page pgdir (pdx v))), m)
  else if alloc then
    match m.kalloc with
    | (none, m) => (none, m)
    | (some pgtab, m) => (some pgtab, (m.fill pgtab fun _ => 0).set pgdir (pdx v)
        (pageAddr pgtab ||| pteP ||| pteW ||| pteU))
  else (none, m)

/-- The pages from `v` on, `n` of them behind the first. -/
def mapLoop (pgdir : ℕ) (perm : UInt32) (n v pa : ℕ) (m : Phys) : Except Fault (Bool × Phys) :=
  match m.walkpgdir pgdir v true with
  | (none, m) => .ok (false, m)
  | (some pgtab, m) =>
    if m.page pgtab (ptx v) &&& pteP ≠ 0 then .error .panic
    else
      let m := m.set pgtab (ptx v) (pageAddr pa ||| perm ||| pteP)
      match n with
      | 0 => .ok (true, m)
      | n + 1 => mapLoop pgdir perm n (v + 1) (pa + 1) m

/-- `mappages` for `size` pages. The last page is found with unsigned arithmetic. -/
def mappages (pgdir v size pa : ℕ) (perm : UInt32) (m : Phys) : Except Fault (Bool × Phys) :=
  m.mapLoop pgdir perm ((size + nPages - 1) % nPages) v pa

/-- The pages from `v` on that are below `stop`. A step over a missing page table may skip some. -/
def deallocLoop (L : Layout) (pgdir stop : ℕ) : ℕ → ℕ → Phys → Except Fault Phys
  | 0, _, m => .ok m
  | fuel + 1, v, m =>
    if v < stop then
      match (m.walkpgdir pgdir v false).1 with
      | none => deallocLoop L pgdir stop fuel ((v / nPtEntries + 1) * nPtEntries) m
      | some pgtab =>
        if m.page pgtab (ptx v) &&& pteP ≠ 0 then
          if pteAddr (m.page pgtab (ptx v)) = 0 then .error .panic
          else do
            let m' ← m.kfree L (pteAddr (m.page pgtab (ptx v)))
            deallocLoop L pgdir stop fuel (v + 1) (m'.set pgtab (ptx v) 0)
        else deallocLoop L pgdir stop fuel (v + 1) m
    else .ok m

def deallocuvm (L : Layout) (pgdir oldsz newsz : ℕ) (m : Phys) : Except Fault (ℕ × Phys) :=
  if oldsz ≤ newsz then .ok (oldsz, m)
  else do
    let m ← deallocLoop L pgdir (pages oldsz) (pages oldsz) (pages newsz) m
    .ok (newsz, m)

def allocLoop (L : Layout) (pgdir oldsz newsz : ℕ) : ℕ → ℕ → Phys → Except Fault (ℕ × Phys)
  | 0, _, m => .ok (newsz, m)
  | n + 1, v, m =>
    match m.kalloc with
    | (none, m) => do
      let (_, m) ← m.deallocuvm L pgdir newsz oldsz
      .ok (0, m)
    | (some mem, m) => do
      let (mapped, m) ← (m.fill mem fun _ => 0).mappages pgdir v 1 mem (pteW ||| pteU)
      if mapped then allocLoop L pgdir oldsz newsz n (v + 1) m
      else do
        let (_, m) ← m.deallocuvm L pgdir newsz oldsz
        let m ← m.kfree L mem
        .ok (0, m)

def allocuvm (L : Layout) (pgdir oldsz newsz : ℕ) (m : Phys) : Except Fault (ℕ × Phys) :=
  if kernBase * pgSize ≤ newsz then .ok (0, m)
  else if newsz < oldsz then .ok (oldsz, m)
  else allocLoop L pgdir oldsz newsz (pages newsz - pages oldsz) (pages oldsz) m

def freeTables (L : Layout) (pgdir : ℕ) (m : Phys) : Except Fault Phys :=
  (List.finRange nPtEntries).foldlM (fun m i =>
    if m.page pgdir i &&& pteP ≠ 0 then m.kfree L (pteAddr (m.page pgdir i)) else .ok m) m

def freevm (L : Layout) (pgdir : ℕ) (m : Phys) : Except Fault Phys := do
  let (_, m) ← m.deallocuvm L pgdir (kernBase * pgSize) 0
  let m ← m.freeTables L pgdir
  m.kfree L pgdir

end Phys

/-- A `struct kmap`, with its addresses as pages. -/
structure Kmap where
  virt : ℕ
  physStart : ℕ
  physEnd : ℕ
  perm : UInt32

def Kmap.size (k : Kmap) : ℕ := (k.physEnd + nPages - k.physStart) % nPages

def Layout.kmap (L : Layout) : List Kmap :=
  [⟨kernBase, 0, L.extmem, pteW⟩, ⟨kernBase + L.extmem, L.extmem, L.data, 0⟩,
    ⟨kernBase + L.data, L.data, L.phystop, pteW⟩, ⟨L.devspace, L.devspace, 0, pteW⟩]

namespace Phys

def kmapLoop (L : Layout) (pgdir : ℕ) : List Kmap → Phys → Except Fault (Option ℕ × Phys)
  | [], m => .ok (some pgdir, m)
  | k :: ks, m => do
    let (mapped, m) ← m.mappages pgdir k.virt k.size k.physStart k.perm
    if mapped then kmapLoop L pgdir ks m
    else do
      let m ← m.freevm L pgdir
      .ok (none, m)

def setupkvm (L : Layout) (m : Phys) : Except Fault (Option ℕ × Phys) :=
  match m.kalloc with
  | (none, m) => .ok (none, m)
  | (some pgdir, m) =>
    if L.devspace < kernBase + L.phystop then .error .panic
    else kmapLoop L pgdir L.kmap (m.fill pgdir fun _ => 0)

/-- The pages from `v` on, `n` of them, into the directory `d`. -/
def copyLoop (L : Layout) (pgdir d : ℕ) : ℕ → ℕ → Phys → Except Fault (Bool × Phys)
  | 0, _, m => .ok (true, m)
  | n + 1, v, m =>
    match (m.walkpgdir pgdir v false).1 with
    | none => .error .panic
    | some pgtab =>
      let pte := m.page pgtab (ptx v)
      if pte &&& pteP = 0 then .error .panic
      else
        match m.kalloc with
        | (none, m) => .ok (false, m)
        | (some mem, m) => do
          let (mapped, m) ←
            (m.fill mem (m.page (pteAddr pte))).mappages d v 1 mem (pteFlags pte)
          if mapped then copyLoop L pgdir d n (v + 1) m
          else do
            let m ← m.kfree L mem
            .ok (false, m)

def copyuvm (L : Layout) (pgdir sz : ℕ) (m : Phys) : Except Fault (Option ℕ × Phys) := do
  let (d, m) ← m.setupkvm L
  match d with
  | none => .ok (none, m)
  | some d => do
    let (copied, m) ← copyLoop L pgdir d (pages sz) 0 m
    if copied then .ok (some d, m)
    else do
      let m ← m.freevm L d
      .ok (none, m)

/-- `inituvm`, with the result of `mappages`, at which it does not look. Without a page for
`initcode` the `memset` faults. -/
def inituvm (pgdir : ℕ) (init : Page) (m : Phys) : Except Fault (Bool × Phys) :=
  match m.kalloc with
  | (none, _) => .error .panic
  | (some mem, m) => do
    let (mapped, m) ← (m.fill mem fun _ => 0).mappages pgdir 0 1 mem (pteW ||| pteU)
    .ok (mapped, m.fill mem init)

/-- What the processor finds for page `v` in the page tables. -/
def walk (pgdir v : ℕ) (m : Phys) : Option TlbEntry :=
  let pde := m.page pgdir (pdx v)
  let pte := m.page (pteAddr pde) (ptx v)
  if pde &&& pteP = 0 ∨ pte &&& pteP = 0 then none
  else some ⟨pteAddr pte, pde &&& pte &&& (pteP ||| pteW ||| pteU)⟩

end Phys

end SsuOs.Xv6
