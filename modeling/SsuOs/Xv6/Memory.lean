import SsuOs.Xv6.Vm

/-! The processes as users of memory on one CPU: `growproc`, `fork`, `exit`, `wait`, the switches
of the scheduler, and the loads and stores of the processes themselves, through the translations
that the processor keeps. The calls of the kernel are taken one at a time, and a fault while the
kernel runs is a panic, as `trap` has it. -/
namespace SsuOs.Xv6
open SsuOs.Lib

/-- What a process has of memory. -/
structure Space where
  pgdir : ℕ
  sz : ℕ
  kstack : ℕ
  zombie : Bool

/-- Memory and who uses it: the kernel's own page directory, the processes, and the other pages
handed out by `kalloc`, which are for pipes. -/
structure Vm where
  phys : Phys
  kpgdir : ℕ
  space : Fin nProc → Option Space
  pipes : List ℕ
  /-- The process whose page directory is in `cr3`, if it is not `kpgdir`. -/
  current : Option (Fin nProc)
  /-- The translations that the processor has kept. -/
  tlb : Fin nPages → Option TlbEntry

inductive VmStep
  | load (p : Fin nProc) (v : Fin nPages) (i : Fin nPtEntries)
  | store (p : Fin nProc) (v : Fin nPages) (i : Fin nPtEntries) (w : UInt32)
  /-- The kernel reads for a call of the process, where `argptr` has let it. -/
  | kload (p : Fin nProc) (v : Fin nPages) (i : Fin nPtEntries)
  /-- The kernel writes for a call of the process, where `argptr` has let it. -/
  | kstore (p : Fin nProc) (v : Fin nPages) (i : Fin nPtEntries) (w : UInt32)
  | sbrk (p : Fin nProc) (n : ℤ)
  | fork (p np : Fin nProc)
  | exit (p : Fin nProc)
  /-- Some `wait` finds the zombie `np`. -/
  | wait (np : Fin nProc)
  | pipealloc
  | pipeclose (x : ℕ)
  /-- The kernel writes to a stack of its own or to a pipe. -/
  | kernelStore (x : ℕ) (i : Fin nPtEntries) (w : UInt32)
  /-- The scheduler switches to the process. -/
  | schedule (p : Fin nProc)
  /-- The process goes back to the scheduler. -/
  | yield (p : Fin nProc)
  /-- The processor needs the place of a translation. -/
  | evict (v : Fin nPages)

inductive VmRet
  | none
  | word (w : UInt32)
  /-- The processor traps, and the process will be killed. -/
  | trap
  | int (r : ℤ)
  deriving DecidableEq

namespace Vm

def setSpace (s : Vm) (p : Fin nProc) (sp : Option Space) : Vm :=
  { s with space := Function.update s.space p sp }

/-- The processor forgets all translations when `cr3` is loaded. -/
def lcr3 (s : Vm) (p : Option (Fin nProc)) : Vm := { s with current := p, tlb := fun _ => none }

def switchkvm (s : Vm) : Vm := s.lcr3 none

def switchuvm (s : Vm) (p : Fin nProc) : Vm := s.lcr3 (some p)

def running (s : Vm) (p : Fin nProc) : Option Space :=
  if s.current = some p then s.space p else none

/-- The translation that is kept or else the one of the page tables. -/
def lookup (s : Vm) (pgdir : ℕ) (v : Fin nPages) : Option TlbEntry :=
  (s.tlb v).or (s.phys.walk pgdir v)

/-- Where the processor finds page `v`, if the access is granted. -/
def translate (s : Vm) (pgdir : ℕ) (v : Fin nPages) (access : UInt32) : Option ℕ × Vm :=
  ((s.lookup pgdir v).bind fun e => e.grant access,
    { s with tlb := Function.update s.tlb v (s.lookup pgdir v) })

/-- The new size and what `sys_sbrk` returns. -/
def growproc (L : Layout) (s : Vm) (p : Fin nProc) (sp : Space) (n : ℤ) :
    Except Fault (VmRet × Vm) := do
  let newsz := ((sp.sz + n) % 2 ^ 32).toNat
  let (sz, m) ←
    if 0 < n then s.phys.allocuvm L sp.pgdir sp.sz newsz
    else if n < 0 then s.phys.deallocuvm L sp.pgdir sp.sz newsz
    else .ok (sp.sz, s.phys)
  if n ≠ 0 ∧ sz = 0 then .ok (.int (-1), { s with phys := m })
  else .ok (.int sp.sz,
    (Vm.setSpace { s with phys := m } p (some { sp with sz := sz })).switchuvm p)

def fork (L : Layout) (s : Vm) (sp : Space) (np : Fin nProc) : Except Fault (VmRet × Vm) :=
  match s.phys.kalloc with
  | (none, m) => .ok (.int (-1), { s with phys := m })
  | (some kstack, m) => do
    let (d, m) ← m.copyuvm L sp.pgdir sp.sz
    match d with
    | none => do
      let m ← m.kfree L kstack
      .ok (.int (-1), { s with phys := m })
    | some d => .ok (.none, { s with phys := m }.setSpace np (some ⟨d, sp.sz, kstack, false⟩))

/-- The part of `wait` that gives the memory of a child back. -/
def reap (L : Layout) (s : Vm) (np : Fin nProc) (sp : Space) : Except Fault (VmRet × Vm) := do
  let m ← s.phys.kfree L sp.kstack
  let m ← m.freevm L sp.pgdir
  .ok (.none, { s with phys := m }.setSpace np none)

/-- The pages the kernel writes to for itself. -/
def Private (s : Vm) (x : ℕ) : Prop :=
  x ∈ s.pipes ∨ ∃ p, ∃ sp ∈ s.space p, sp.kstack = x

instance (s : Vm) (x : ℕ) : Decidable (s.Private x) := inferInstanceAs (Decidable (_ ∨ _))

end Vm

def execVm (L : Layout) (a : VmStep) (s : Vm) : Except Fault (VmRet × Vm) :=
  match a with
  | .load p v i =>
    match s.running p with
    | some sp =>
      match s.translate sp.pgdir v (pteP ||| pteU) with
      | (some x, s) => .ok (.word (s.phys.page x i), s)
      | (none, s) => .ok (.trap, s)
    | none => .error .notEnabled
  | .store p v i w =>
    match s.running p with
    | some sp =>
      match s.translate sp.pgdir v (pteP ||| pteW ||| pteU) with
      | (some x, s) => .ok (.none, { s with phys := s.phys.set x i w })
      | (none, s) => .ok (.trap, s)
    | none => .error .notEnabled
  | .kload p v i =>
    match s.running p with
    | some sp =>
      if v < pages sp.sz then
        match s.translate sp.pgdir v pteP with
        | (some x, s) => .ok (.word (s.phys.page x i), s)
        | (none, _) => .error .panic
      else .error .notEnabled
    | none => .error .notEnabled
  | .kstore p v i w =>
    match s.running p with
    | some sp =>
      if v < pages sp.sz then
        match s.translate sp.pgdir v (pteP ||| pteW) with
        | (some x, s) => .ok (.none, { s with phys := s.phys.set x i w })
        | (none, _) => .error .panic
      else .error .notEnabled
    | none => .error .notEnabled
  | .sbrk p n =>
    match s.running p with
    | some sp => s.growproc L p sp (wrap32 n)
    | none => .error .notEnabled
  | .fork p np =>
    match s.running p, s.space np with
    | some sp, none => s.fork L sp np
    | _, _ => .error .notEnabled
  | .exit p =>
    match s.running p with
    | some sp => .ok (.none, (s.setSpace p (some { sp with zombie := true })).switchkvm)
    | none => .error .notEnabled
  | .wait np =>
    match s.space np with
    | some sp => if sp.zombie then s.reap L np sp else .error .notEnabled
    | none => .error .notEnabled
  | .pipealloc =>
    match s.phys.kalloc with
    | (none, m) => .ok (.int (-1), { s with phys := m })
    | (some x, m) => .ok (.none, { s with phys := m, pipes := x :: s.pipes })
  | .pipeclose x =>
    if x ∈ s.pipes then do
      let m ← s.phys.kfree L x
      .ok (.none, { s with phys := m, pipes := s.pipes.erase x })
    else .error .notEnabled
  | .kernelStore x i w =>
    if s.Private x then .ok (.none, { s with phys := s.phys.set x i w }) else .error .notEnabled
  | .schedule p =>
    match s.current, s.space p with
    | none, some sp => if sp.zombie then .error .notEnabled else .ok (.none, s.switchuvm p)
    | _, _ => .error .notEnabled
  | .yield p => if s.current = some p then .ok (.none, s.switchkvm) else .error .notEnabled
  | .evict v => .ok (.none, { s with tlb := Function.update s.tlb v none })

/-- `main` up to `userinit`: the state and whether `initcode` is mapped. `kvmalloc` and `userinit`
go on without a check, or panic, when there is no memory. -/
def boot (L : Layout) (init : Page) (p : Fin nProc) : Except Fault (Bool × Vm) := do
  let m ← Phys.freerange L L.first (L.early - L.first) ⟨fun _ _ => 0, 0⟩
  let (kpgdir, m) ← m.setupkvm L
  let m ← m.freerange L L.early (L.phystop - L.early)
  match kpgdir, m.kalloc with
  | some kpgdir, (some kstack, m) => do
    let (d, m) ← m.setupkvm L
    match d with
    | none => .error .panic
    | some d => do
      let (mapped, m) ← m.inituvm d init
      .ok (mapped, ⟨m, kpgdir, Function.update (fun _ => none) p
        (some ⟨d, pgSize, kstack, false⟩), [], none, fun _ => none⟩)
  | _, _ => .error .panic

/-- `sbrk` of the whole memory. `growproc` takes the size 0 for an error and returns with the pages
freed, but before `switchuvm`, so that the processor may still use the old translations. -/
def Vm.empties (s : Vm) : VmStep → Bool
  | .sbrk p n => (s.space p).any fun sp => (sp.sz : ℤ) + wrap32 n = 0
  | _ => false

/-- Runs from a boot that found memory for `initcode`, in which no process gives back all its
memory. -/
abbrev VmRun (L : Layout) (init : Page) (p : Fin nProc) :
    List (Event Vm VmStep VmRet) → Vm → Prop :=
  Run (execVm L) (fun a s => s.empties a = false) fun s => boot L init p = .ok (true, s)

end SsuOs.Xv6
