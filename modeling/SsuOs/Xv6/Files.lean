import SsuOs.Lib.Monitor
import SsuOs.Xv6.Pipe

/-! Open files: the table of `file.c`, the descriptors of every process and the pipes, with the
calls of `sysfile.c` and the parts of `fork` and `exit` that work on them. A step is one section
under `ftable.lock` or under the lock of a pipe; what a process does in between to its own
descriptors, which no other process sees, goes with the section next to it. -/
namespace SsuOs.Xv6
open SsuOs.Lib

abbrev nFile : ℕ := 100

abbrev nOFile : ℕ := 16

/-- `type` of a file, with the page of the pipe. -/
inductive FdType
  | none
  | pipe (k : ℕ)
  | inode
  deriving DecidableEq

structure File where
  type : FdType
  ref : ℤ
  readable : Bool
  writable : Bool

/-- What the processes in `pipewrite` and `piperead` sleep on. -/
inductive PipeChan
  | nread
  | nwrite
  deriving DecidableEq

inductive FileCall
  /-- An entry of the process table that is free. -/
  | unused
  /-- A child that `fork` is setting up. -/
  | embryo
  | user
  /-- In `pipealloc`, with the file for the end for reading. -/
  | pipe1 (rf : Fin nFile)
  | pipe2 (rf wf : Fin nFile)
  /-- In `sys_open`, with a descriptor for a file that has no type yet. -/
  | opening (f : Fin nFile) (readable writable : Bool)
  /-- In `fileclose`: the end of a pipe to close next, and the files behind it. -/
  | closing (pend : Option (ℕ × Bool)) (files : List (Fin nFile)) (exit : Bool)
  /-- In `fork`, with the child and the descriptor to copy next. -/
  | forking (c : Fin nProc) (fd : ℕ)
  /-- In `pipewrite` of `n` bytes, with those that are left. -/
  | writing (k n : ℕ) (rest : List UInt8)
  | reading (k n : ℕ)
  deriving DecidableEq

/-- The descriptors of a process and the call it is in. -/
structure FProc where
  ofile : Fin nOFile → Option (Fin nFile)
  call : FileCall

structure Files where
  file : Fin nFile → File
  proc : Fin nProc → FProc
  killed : Fin nProc → Bool
  asleep : Fin nProc → Option (ℕ × PipeChan)
  pipe : ℕ → Option Pipe

inductive FileFault
  | panic
  /-- `panic("short filewrite")`. -/
  | short
  /-- A pipe is used whose page has been freed. -/
  | freed
  | notEnabled
  deriving DecidableEq

/-- What a step reports. -/
inductive FileRet
  | unit
  | value (v : ℤ)
  /-- A pipe was made on page `k`, and descriptors for it unless the process has too many. -/
  | made (k : ℕ) (fds : Option (Fin nOFile × Fin nOFile))
  | closed (k : ℕ) (writable : Bool)
  /-- `pipewrite` has stored bytes; it returns the value or sleeps. -/
  | wrote (k : ℕ) (bs : List UInt8) (v : Option ℤ)
  /-- `piperead` has taken bytes; it returns the value or sleeps. -/
  | got (k : ℕ) (bs : List UInt8) (v : Option ℤ)
  deriving DecidableEq

inductive FileStep
  /-- `sys_pipe` as far as the first `filealloc`. -/
  | pipe (p : Fin nProc)
  /-- The second `filealloc`; then `kalloc`, which finds `page`, and `fdalloc`. -/
  | pipeNext (p : Fin nProc) (page : Option (ℕ × (Fin pipeSize → UInt8)))
  | openFile (p : Fin nProc) (readable writable : Bool)
  | openEnd (p : Fin nProc)
  | dup (p : Fin nProc) (fd : ℤ)
  | close (p : Fin nProc) (fd : ℤ)
  | fork (p c : Fin nProc)
  | forkNext (p : Fin nProc)
  | exit (p : Fin nProc)
  /-- The next section of `fileclose`. -/
  | closeNext (p : Fin nProc)
  /-- With what the calls of `writei` return if `fd` is an inode. -/
  | write (p : Fin nProc) (fd : ℤ) (addr : List UInt8) (writei : List ℤ)
  /-- With what `readi` returns if `fd` is an inode. -/
  | read (p : Fin nProc) (fd : ℤ) (n : ℕ) (readi : ℤ)
  /-- A process that was asleep goes on in its loop. -/
  | resume (p : Fin nProc)
  | kill (p : Fin nProc)

def FProc.argfd (fp : FProc) (fd : ℤ) : Option (Fin nOFile × Fin nFile) :=
  if fd < 0 ∨ (nOFile : ℤ) ≤ fd then none
  else (fp.ofile (Fin.ofNat nOFile fd.toNat)).map fun f => (Fin.ofNat nOFile fd.toNat, f)

def fdalloc (ofile : Fin nOFile → Option (Fin nFile)) : Option (Fin nOFile) :=
  (List.finRange nOFile).find? fun fd => ofile fd = none

/-- The most bytes that one call of `writei` gets, so that they fit a transaction of the log. -/
abbrev writeMax : ℕ := (maxOpBlocks - 1 - 1 - 2) / 2 * 512

/-- The loop of `filewrite` for an inode, when `i` of `n` bytes are written. The inodes are not
modelled: the calls of `writei` return the values given. -/
def writeInode (n : ℕ) : ℕ → List ℤ → Except FileFault ℤ
  | i, [] => if i < n then .error .notEnabled else .ok (if i = n then n else -1)
  | i, r :: writei =>
    if n ≤ i then .ok (if i = n then n else -1)
    else if r < 0 then .ok (-1)
    else if r ≠ min (n - i) writeMax then .error .short
    else writeInode n (i + r.toNat) writei

namespace Files

def setFile (s : Files) (f : Fin nFile) (x : File) : Files :=
  { s with file := Function.update s.file f x }

def setProc (s : Files) (p : Fin nProc) (fp : FProc) : Files :=
  { s with proc := Function.update s.proc p fp }

def setCall (s : Files) (p : Fin nProc) (c : FileCall) : Files :=
  s.setProc p { s.proc p with call := c }

def setPipe (s : Files) (k : ℕ) (P : Option Pipe) : Files :=
  { s with pipe := Function.update s.pipe k P }

def wakeup (s : Files) (k : ℕ) (c : PipeChan) : Files := { s with asleep := wake s.asleep (k, c) }

def sleep (s : Files) (p : Fin nProc) (k : ℕ) (c : PipeChan) : Files :=
  { s with asleep := Function.update s.asleep p (some (k, c)) }

def freeFile (s : Files) : Option (Fin nFile) :=
  (List.finRange nFile).find? fun f => (s.file f).ref = 0

/-- `filealloc` of the file that the loop finds. -/
def allocFile (s : Files) (f : Fin nFile) : Files := s.setFile f { s.file f with ref := 1 }

def filedup (s : Files) (f : Fin nFile) : Except FileFault Files :=
  if (s.file f).ref < 1 then .error .panic
  else .ok (s.setFile f { s.file f with ref := (s.file f).ref + 1 })

/-- The part of `fileclose` under `ftable.lock`, with the end of a pipe that it goes on to
close. -/
def fileclose (s : Files) (f : Fin nFile) : Except FileFault (Option (ℕ × Bool) × Files) :=
  if (s.file f).ref < 1 then .error .panic
  else if 0 < (s.file f).ref - 1 then
    .ok (none, s.setFile f { s.file f with ref := (s.file f).ref - 1 })
  else
    .ok (match (s.file f).type with
      | .pipe k => some (k, (s.file f).writable)
      | _ => none, s.setFile f { s.file f with ref := 0, type := .none })

def pipeclose (s : Files) (k : ℕ) (writable : Bool) : Except FileFault Files :=
  match s.pipe k with
  | none => .error .freed
  | some P =>
    let P := P.close writable
    let s := s.wakeup k (if writable then .nread else .nwrite)
    .ok (s.setPipe k (if P.readopen = false ∧ P.writeopen = false then none else some P))

/-- `pipewrite` of `n` bytes, of which `rest` are left, up to its return or its `sleep`. -/
def pipewrite (s : Files) (p : Fin nProc) (k n : ℕ) (rest : List UInt8) :
    Except FileFault (FileRet × Files) :=
  match s.pipe k with
  | none => .error .freed
  | some P =>
    let m := (P.fill rest).1
    let s := s.setPipe k (some (P.fill rest).2)
    if m = rest.length then
      .ok (.wrote k rest (some n), (s.wakeup k .nread).setCall p .user)
    else if P.readopen = false ∨ s.killed p then
      .ok (.wrote k (rest.take m) (some (-1)), s.setCall p .user)
    else
      .ok (.wrote k (rest.take m) none,
        ((s.wakeup k .nread).sleep p k .nwrite).setCall p (.writing k n (rest.drop m)))

/-- `piperead` up to its return or its `sleep`. -/
def piperead (s : Files) (p : Fin nProc) (k n : ℕ) : Except FileFault (FileRet × Files) :=
  match s.pipe k with
  | none => .error .freed
  | some P =>
    if P.Empty ∧ P.writeopen then
      if s.killed p then .ok (.got k [] (some (-1)), s.setCall p .user)
      else .ok (.got k [] none, (s.sleep p k .nread).setCall p (.reading k n))
    else
      .ok (.got k (P.drain n).1 (some (P.drain n).1.length),
        ((s.setPipe k (some (P.drain n).2)).wakeup k .nwrite).setCall p .user)

def filewrite (s : Files) (p : Fin nProc) (f : Fin nFile) (addr : List UInt8)
    (writei : List ℤ) : Except FileFault (FileRet × Files) :=
  if (s.file f).writable = false then .ok (.value (-1), s)
  else match (s.file f).type with
    | .pipe k => s.pipewrite p k addr.length addr
    | .inode => (writeInode addr.length 0 writei).map fun v => (.value v, s)
    | .none => .error .panic

def fileread (s : Files) (p : Fin nProc) (f : Fin nFile) (n : ℕ) (readi : ℤ) :
    Except FileFault (FileRet × Files) :=
  if (s.file f).readable = false then .ok (.value (-1), s)
  else match (s.file f).type with
    | .pipe k => s.piperead p k n
    | .inode => .ok (.value readi, s)
    | .none => .error .panic

/-- The assignments of `pipealloc`, on a free page. -/
def pipealloc (s : Files) (rf wf : Fin nFile) (k : ℕ) (data : Fin pipeSize → UInt8) : Files :=
  let s := (s.setPipe k (some (.init data))).setFile rf
    { s.file rf with type := .pipe k, readable := true, writable := false }
  s.setFile wf { s.file wf with type := .pipe k, readable := false, writable := true }

/-- `sys_pipe` from the `kalloc` of `pipealloc` on. -/
def makePipe (s : Files) (p : Fin nProc) (rf wf : Fin nFile) (k : ℕ)
    (data : Fin pipeSize → UInt8) : FileRet × Files :=
  let s := s.pipealloc rf wf k data
  let ofile := (s.proc p).ofile
  match fdalloc ofile with
  | none => (.made k none, s.setCall p (.closing none [rf, wf] false))
  | some fd0 =>
    match fdalloc (Function.update ofile fd0 (some rf)) with
    | none => (.made k none, s.setCall p (.closing none [rf, wf] false))
    | some fd1 =>
      (.made k (some (fd0, fd1)), s.setProc p
        ⟨Function.update (Function.update ofile fd0 (some rf)) fd1 (some wf), .user⟩)

/-- The files of all descriptors, in the order in which `exit` closes them. -/
def openFiles (s : Files) (p : Fin nProc) : List (Fin nFile) :=
  (List.finRange nOFile).filterMap (s.proc p).ofile

end Files

open Files in
def execFile (a : FileStep) (s : Files) : Except FileFault (FileRet × Files) :=
  match a with
  | .pipe p =>
    if (s.proc p).call ≠ .user then .error .notEnabled
    else match s.freeFile with
      | none => .ok (.value (-1), s)
      | some rf => .ok (.unit, (s.allocFile rf).setCall p (.pipe1 rf))
  | .pipeNext p page =>
    match (s.proc p).call with
    | .pipe1 rf =>
      match s.freeFile with
      | none => .ok (.unit, s.setCall p (.closing none [rf] false))
      | some wf => .ok (.unit, (s.allocFile wf).setCall p (.pipe2 rf wf))
    | .pipe2 rf wf =>
      match page with
      | none => .ok (.unit, s.setCall p (.closing none [rf, wf] false))
      | some (k, data) =>
        if s.pipe k = none then .ok (s.makePipe p rf wf k data) else .error .notEnabled
    | _ => .error .notEnabled
  | .openFile p readable writable =>
    if (s.proc p).call ≠ .user then .error .notEnabled
    else match s.freeFile with
      | none => .ok (.value (-1), s)
      | some f =>
        match fdalloc (s.proc p).ofile with
        | none => .ok (.unit, (s.allocFile f).setCall p (.closing none [f] false))
        | some fd => .ok (.unit, (s.allocFile f).setProc p
            ⟨Function.update (s.proc p).ofile fd (some f), .opening f readable writable⟩)
  | .openEnd p =>
    match (s.proc p).call with
    | .opening f readable writable => .ok (.unit, (s.setFile f { s.file f with
        type := .inode, readable := readable, writable := writable }).setCall p .user)
    | _ => .error .notEnabled
  | .dup p fd =>
    if (s.proc p).call ≠ .user then .error .notEnabled
    else match (s.proc p).argfd fd with
      | none => .ok (.value (-1), s)
      | some (_, f) =>
        match fdalloc (s.proc p).ofile with
        | none => .ok (.value (-1), s)
        | some fd' => do
          let s ← s.filedup f
          .ok (.value fd', s.setProc p
            ⟨Function.update (s.proc p).ofile fd' (some f), .user⟩)
  | .close p fd =>
    if (s.proc p).call ≠ .user then .error .notEnabled
    else match (s.proc p).argfd fd with
      | none => .ok (.value (-1), s)
      | some (i, f) => .ok (.unit, s.setProc p
          ⟨Function.update (s.proc p).ofile i none, .closing none [f] false⟩)
  | .fork p c =>
    if (s.proc p).call ≠ .user ∨ (s.proc c).call ≠ .unused then .error .notEnabled
    else .ok (.unit, (s.setCall c .embryo).setCall p (.forking c 0))
  | .forkNext p =>
    match (s.proc p).call with
    | .forking c i =>
      if h : i < nOFile then
        match (s.proc p).ofile ⟨i, h⟩ with
        | none => .ok (.unit, s.setCall p (.forking c (i + 1)))
        | some f => do
          let s ← s.filedup f
          .ok (.unit, (s.setProc c { s.proc c with
            ofile := Function.update (s.proc c).ofile ⟨i, h⟩ (some f) }).setCall p
              (.forking c (i + 1)))
      else .ok (.unit, (s.setCall c .user).setCall p .user)
    | _ => .error .notEnabled
  | .exit p =>
    if (s.proc p).call ≠ .user then .error .notEnabled
    else .ok (.unit, s.setProc p ⟨fun _ => none, .closing none (s.openFiles p) true⟩)
  | .closeNext p =>
    match (s.proc p).call with
    | .closing (some (k, writable)) files exit => do
      let s ← s.pipeclose k writable
      .ok (.closed k writable, s.setCall p (.closing none files exit))
    | .closing none (f :: files) exit => do
      let (pend, s) ← s.fileclose f
      .ok (.unit, s.setCall p (.closing pend files exit))
    | .closing none [] true =>
      -- the entry is reaped
      .ok (.unit, { s with killed := Function.update s.killed p false }.setCall p .unused)
    | .closing none [] false => .ok (.unit, s.setCall p .user)
    | _ => .error .notEnabled
  | .write p fd addr writei =>
    if (s.proc p).call ≠ .user then .error .notEnabled
    else match (s.proc p).argfd fd with
      | none => .ok (.value (-1), s)
      | some (_, f) => s.filewrite p f addr writei
  | .read p fd n readi =>
    if (s.proc p).call ≠ .user then .error .notEnabled
    else match (s.proc p).argfd fd with
      | none => .ok (.value (-1), s)
      | some (_, f) => s.fileread p f n readi
  | .resume p =>
    if s.asleep p ≠ none then .error .notEnabled
    else match (s.proc p).call with
      | .writing k n rest => s.pipewrite p k n rest
      | .reading k n => s.piperead p k n
      | _ => .error .notEnabled
  | .kill p => .ok (.unit, { s with
      killed := Function.update s.killed p true
      asleep := Function.update s.asleep p none })

/-- The zeroed table, no pipe, and one process without descriptors. -/
def filesInit : Files :=
  ⟨fun _ => ⟨.none, 0, false, false⟩,
    fun p => ⟨fun _ => none, if p.val = 0 then .user else .unused⟩, fun _ => false, fun _ => none,
    fun _ => none⟩

abbrev FileRun : List (Event Files FileStep FileRet) → Files → Prop :=
  Run execFile (fun _ _ => True) (· = filesInit)

end SsuOs.Xv6
