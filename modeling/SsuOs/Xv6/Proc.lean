import Mathlib.Data.List.FinRange
import SsuOs.Lib.CInt
import SsuOs.Lib.Except
import SsuOs.Lib.Run

/-! The process table of the modified xv6 on one CPU. A step is one section of `proc.c` that runs
with `ptable.lock` held or up to the next point where an interrupt may switch to another process. -/
namespace SsuOs.Xv6
open SsuOs.Lib

abbrev nProc : ℕ := 64

abbrev maxOpBlocks : ℕ := 10

inductive ProcState
  | unused
  | embryo
  | sleeping
  | runnable
  | running
  | zombie
  deriving DecidableEq

/-- A sleep channel: the null pointer, the address of a table entry or any other address. -/
inductive Chan
  | null
  | proc (i : Fin nProc)
  | other (addr : ℕ)
  deriving DecidableEq

/-- The fields of `struct proc` that the process calls and the scheduler work on. -/
structure Proc where
  sz : ℕ
  state : ProcState
  pid : ℤ
  ppid : ℤ
  parent : Option (Fin nProc)
  chan : Chan
  killed : Bool
  nswitch : ℤ
  priority : ℤ

def Proc.zero : Proc := ⟨0, .unused, 0, 0, none, .null, false, 0, 0⟩

/-- Where a process continues when it next runs. -/
inductive Cont
  | user
  /-- Inside `fork`, `allocproc` has released the lock and calls `kalloc`. -/
  | kalloc (np : Fin nProc)
  /-- Inside `fork`, before `copyuvm`. -/
  | copyuvm (np : Fin nProc)
  /-- Inside `fork`, the child is set up and only has to become runnable. -/
  | commit (np : Fin nProc)
  /-- Inside `sleep`, before its chan is cleared. -/
  | sleep
  /-- Inside the `sleep` of `wait`. -/
  | wait
  deriving DecidableEq

def Cont.child : Cont → Option (Fin nProc)
  | .kalloc np => some np
  | .copyuvm np => some np
  | .commit np => some np
  | _ => none

/-- `ptable`, `nextpid`, `initproc`, the process on the CPU and the position of the scheduler's
scan; `nProc` is the end of a pass, where the lock is released. -/
structure Kernel where
  proc : Fin nProc → Proc
  nextpid : ℤ
  initproc : Fin nProc
  cur : Option (Fin nProc)
  cursor : ℕ
  cont : Fin nProc → Cont

inductive Fault
  | panic
  | notEnabled

namespace Kernel

def modify (k : Kernel) (i : Fin nProc) (f : Proc → Proc) : Kernel :=
  { k with proc := Function.update k.proc i (f (k.proc i)) }

def setCont (k : Kernel) (i : Fin nProc) (c : Cont) : Kernel :=
  { k with cont := Function.update k.cont i c }

def chanOf : Option (Fin nProc) → Chan
  | some i => .proc i
  | none => .null

def wakeup1 (c : Chan) (k : Kernel) : Kernel :=
  { k with proc := fun i =>
      if (k.proc i).state = .sleeping ∧ (k.proc i).chan = c then
        { k.proc i with state := .runnable }
      else k.proc i }

/-- The locked section of `allocproc`; `none` when the table is full. -/
def allocproc (k : Kernel) : Option (Fin nProc × Kernel) :=
  match (List.finRange nProc).find? (fun i => (k.proc i).state = .unused) with
  | none => none
  | some i => some (i, { k.modify i (fun p => { p with
      state := .embryo, pid := k.nextpid, ppid := 0, nswitch := 0, priority := 500 }) with
      nextpid := wrap32 (k.nextpid + 1) })

/-- Back from `swtch` in the scheduler, which then looks at the entry behind `i`. -/
def sched (i : Fin nProc) (k : Kernel) : Kernel :=
  { k.modify i (fun p => { p with nswitch := wrap32 (p.nswitch + 1) }) with
    cur := none, cursor := i + 1 }

/-- The inner loop of `scheduler` over the entries `l`: the best process, starting from `p`. -/
def highestOf (k : Kernel) (l : List (Fin nProc)) (p : Fin nProc) : Fin nProc :=
  l.foldl (fun hp np =>
    if (k.proc np).state ≠ .runnable then hp
    else if (k.proc hp).priority < (k.proc np).priority then np else hp) p

def highest (k : Kernel) (p : Fin nProc) : Fin nProc := k.highestOf (List.finRange nProc) p

/-- One round of the scan in `scheduler`, or the start of the next pass. -/
def scheduler (k : Kernel) : Kernel :=
  if h : k.cursor < nProc then
    if (k.proc ⟨k.cursor, h⟩).state ≠ .runnable then { k with cursor := k.cursor + 1 }
    else
      let hp := k.highest ⟨k.cursor, h⟩
      { k.modify hp (fun p => { p with state := .running }) with cur := some hp }
  else { k with cursor := 0 }

/-- `exit` of `i` looks at the entry `j`: an abandoned child is passed on to `init`. -/
def adopt (i : Fin nProc) (k : Kernel) (j : Fin nProc) : Kernel :=
  if (k.proc j).parent = some i then
    let k := k.modify j (fun p => { p with parent := some k.initproc })
    if (k.proc j).state = .zombie then k.wakeup1 (.proc k.initproc) else k
  else k

def abandonChildren (i : Fin nProc) (k : Kernel) : Kernel :=
  (List.finRange nProc).foldl (adopt i) k

def exitProc (i : Fin nProc) (k : Kernel) : Kernel :=
  let k := (k.wakeup1 (chanOf (k.proc i).parent)).abandonChildren i
  (k.modify i (fun p => { p with state := .zombie })).sched i

/-- The part of `sleep` up to the switch. -/
def goToSleep (c : Chan) (how : Cont) (i : Fin nProc) (k : Kernel) : Kernel :=
  ((k.modify i (fun p => { p with chan := c, state := .sleeping })).setCont i how).sched i

/-- One scan of `wait` by the process `i`: a result, or `none` when `i` goes to sleep. -/
def waitScan (i : Fin nProc) (k : Kernel) : Option ℤ × Kernel :=
  match (List.finRange nProc).find?
      (fun j => (k.proc j).parent = some i ∧ (k.proc j).state = .zombie) with
  | some j => (some (k.proc j).pid, k.modify j (fun p => { p with
      pid := 0, parent := none, killed := false, state := .unused }))
  | none =>
    if (∀ j, (k.proc j).parent ≠ some i) ∨ (k.proc i).killed then (some (-1), k)
    else (none, k.goToSleep (.proc i) .wait i)

def kill (pid : ℤ) (k : Kernel) : ℤ × Kernel :=
  match (List.finRange nProc).find? (fun i => (k.proc i).pid = pid) with
  | some i => (0, k.modify i (fun p => { p with
      killed := true, state := if p.state = .sleeping then .runnable else p.state }))
  | none => (-1, k)

/-- Interrupts are on: a process runs outside `sleep`, or the scheduler is between two passes. -/
def Interruptible (k : Kernel) : Prop :=
  match k.cur with
  | some i => k.cont i ≠ .sleep ∧ k.cont i ≠ .wait
  | none => k.cursor = nProc

instance (k : Kernel) : Decidable k.Interruptible := by
  unfold Interruptible
  split <;> infer_instance

end Kernel

/-- What the machine may do next. -/
inductive Step
  | scheduler
  | allocproc
  | kalloc (succeeds : Bool)
  | copyuvm (succeeds : Bool)
  | commit
  | exit
  | wait
  | kill (pid : ℤ)
  | sleep (c : Chan)
  | wake
  | wakeup (c : Chan)
  | yield
  | setPrio (n : ℤ)
  | resize (sz : ℕ)
  deriving DecidableEq

inductive Ret
  | int (r : ℤ)
  | created (np : Fin nProc)
  | none
  deriving DecidableEq

def Ret.ofOption : Option ℤ → Ret
  | some r => .int r
  | .none => .none

open Kernel in
/-- One step of the process on the CPU, of the scheduler or of an interrupt handler. -/
def exec (a : Step) (k : Kernel) : Except Fault (Ret × Kernel) :=
  match a, k.cur with
  | .scheduler, none => .ok (.none, k.scheduler)
  | .wakeup c, _ => if k.Interruptible then .ok (.none, k.wakeup1 c) else .error .notEnabled
  | .allocproc, some i =>
    if k.cont i ≠ .user then .error .notEnabled
    else match k.allocproc with
      | none => .ok (.int (-1), k)
      | some (np, k) => .ok (.created np, k.setCont i (.kalloc np))
  | .kalloc succeeds, some i =>
    match k.cont i with
    | .kalloc np =>
      if succeeds then .ok (.none, k.setCont i (.copyuvm np))
      else .ok (.int (-1), (k.modify np (fun p => { p with state := .unused })).setCont i .user)
    | _ => .error .notEnabled
  | .copyuvm succeeds, some i =>
    match k.cont i with
    | .copyuvm np =>
      if succeeds then
        .ok (.none, (k.modify np (fun p => { p with
          sz := (k.proc i).sz, parent := some i, ppid := (k.proc i).pid })).setCont i (.commit np))
      else .ok (.int (-1), (k.modify np (fun p => { p with state := .unused })).setCont i .user)
    | _ => .error .notEnabled
  | .commit, some i =>
    match k.cont i with
    | .commit np => .ok (.int (k.proc np).pid,
        (k.modify np (fun p => { p with state := .runnable })).setCont i .user)
    | _ => .error .notEnabled
  | .exit, some i =>
    if k.cont i ≠ .user then .error .notEnabled
    else if i = k.initproc then .error .panic
    else .ok (.none, k.exitProc i)
  | .wait, some i =>
    match k.cont i with
    | .user => .ok (.ofOption (k.waitScan i).1, (k.waitScan i).2)
    | .wait =>
      let k := (k.modify i (fun p => { p with chan := .null })).setCont i .user
      .ok (.ofOption (k.waitScan i).1, (k.waitScan i).2)
    | _ => .error .notEnabled
  | .kill pid, some i =>
    if k.cont i ≠ .user then .error .notEnabled else .ok (.int (k.kill pid).1, (k.kill pid).2)
  | .sleep c, some i =>
    if k.cont i ≠ .user then .error .notEnabled else .ok (.none, k.goToSleep c .sleep i)
  | .wake, some i =>
    if k.cont i ≠ .sleep then .error .notEnabled
    else .ok (.none, (k.modify i (fun p => { p with chan := .null })).setCont i .user)
  | .yield, some i =>
    if k.Interruptible then
      .ok (.none, (k.modify i (fun p => { p with state := .runnable })).sched i)
    else .error .notEnabled
  | .setPrio n, some i =>
    if k.cont i ≠ .user then .error .notEnabled
    else if n < 0 then .ok (.int (-1), k)
    else .ok (.int 0, k.modify i (fun p => { p with priority := n }))
  | .resize sz, some i =>
    if k.cont i ≠ .user then .error .notEnabled
    else .ok (.none, k.modify i (fun p => { p with sz := sz }))
  | _, _ => .error .notEnabled

/-- The table after `userinit`, when the scheduler starts its first pass. -/
def userinit : Kernel where
  proc := Function.update (fun _ => Proc.zero) 0
    ⟨4096, .runnable, 1, 0, none, .null, false, 0, 500⟩
  nextpid := 2
  initproc := 0
  cur := none
  cursor := nProc
  cont := fun _ => .user

/-- Every run of the system from `userinit` on. -/
abbrev KernelRun : List (Event Kernel Step Ret) → Kernel → Prop :=
  Run exec (fun _ _ => True) (· = userinit)

end SsuOs.Xv6
