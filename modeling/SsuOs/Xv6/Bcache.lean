import SsuOs.Xv6.Proc

/-! The buffer cache of `bio.c` over a disk that serves requests at any later time. A step is one
section under `bcache.lock`, one sleep lock taken or given back, one completed disk request, or
one change that a caller makes to a buffer it holds. -/
namespace SsuOs.Xv6
open SsuOs.Lib

abbrev nBuf : ℕ := 30

abbrev fsSize : ℕ := 1000

/-- The ints of a disk block. -/
abbrev Block : Type := Fin 128 → ℤ

/-- `struct buf`; the sleep lock is the process that holds it. -/
structure Buf where
  valid : Bool
  dirty : Bool
  dev : ℕ
  blockno : ℕ
  refcnt : ℕ
  holder : Option (Fin nProc)
  data : Block

def Buf.zero : Buf := ⟨false, false, 0, 0, 0, none, fun _ => 0⟩

/-- The buffer caches the block `blockno` of `dev`. -/
def Buf.Is (b : Buf) (dev blockno : ℕ) : Prop := b.dev = dev ∧ b.blockno = blockno

instance (b : Buf) (dev blockno : ℕ) : Decidable (b.Is dev blockno) :=
  inferInstanceAs (Decidable (_ ∧ _))

/-- Where a process is inside a call of `bio.c`. -/
inductive BufCall
  | idle
  /-- In `acquiresleep` of `bget`. -/
  | acquiring (i : Fin nBuf)
  /-- In `iderw` of `bread`. -/
  | reading (i : Fin nBuf)
  /-- In `iderw` of `bwrite`. -/
  | writing (i : Fin nBuf)
  /-- In `brelse`, the sleep lock is given back. -/
  | releasing (i : Fin nBuf)
  deriving DecidableEq

/-- The call that returns in a step, with the buffer; `bread` shows the data in it. -/
inductive BufRet
  | none
  | bread (i : Fin nBuf) (data : Block)
  | bwrite (i : Fin nBuf)
  deriving DecidableEq

/-- `bcache` with the list from `head.next` on, and the two disks. -/
structure Bcache where
  buf : Fin nBuf → Buf
  lru : List (Fin nBuf)
  disk : ℕ → ℕ → Block
  havedisk1 : Bool
  call : Fin nProc → BufCall

namespace Bcache

def modify (s : Bcache) (i : Fin nBuf) (f : Buf → Buf) : Bcache :=
  { s with buf := Function.update s.buf i (f (s.buf i)) }

def setCall (s : Bcache) (p : Fin nProc) (c : BufCall) : Bcache :=
  { s with call := Function.update s.call p c }

def cached (s : Bcache) (dev blockno : ℕ) : Option (Fin nBuf) :=
  s.lru.find? fun i => (s.buf i).Is dev blockno

def victim (s : Bcache) : Option (Fin nBuf) :=
  s.lru.reverse.find? fun i => (s.buf i).refcnt = 0 ∧ (s.buf i).dirty = false

/-- The part of `bget` under `bcache.lock`. -/
def bget (s : Bcache) (p : Fin nProc) (dev blockno : ℕ) : Except Fault Bcache :=
  match s.cached dev blockno with
  | some i => .ok ((s.modify i fun b => { b with refcnt := b.refcnt + 1 }).setCall p (.acquiring i))
  | none =>
    match s.victim with
    | some i => .ok ((s.modify i fun b => { b with
        dev := dev, blockno := blockno, valid := false, dirty := false, refcnt := 1 }).setCall p
          (.acquiring i))
    | none => .error .panic

/-- The checks of `iderw` and of `idestart`, with which a request is made. -/
def iderw (s : Bcache) (p : Fin nProc) (i : Fin nBuf) (c : BufCall) : Except Fault Bcache :=
  if (s.buf i).holder ≠ some p then .error .panic
  else if (s.buf i).valid ∧ ¬(s.buf i).dirty then .error .panic
  else if (s.buf i).dev ≠ 0 ∧ ¬s.havedisk1 then .error .panic
  else if fsSize ≤ (s.buf i).blockno then .error .panic
  else .ok (s.setCall p c)

/-- `acquiresleep` finds the lock free; `bread` then returns or asks the disk for the block. -/
def acquire (s : Bcache) (p : Fin nProc) (i : Fin nBuf) : Except Fault (BufRet × Bcache) :=
  let s := s.modify i fun b => { b with holder := some p }
  if (s.buf i).valid then .ok (.bread i (s.buf i).data, s.setCall p .idle)
  else (BufRet.none, ·) <$> s.iderw p i (.reading i)

/-- The interrupt for a request of `i`: a dirty buffer has been written, another one is read if
the disk is `ready`, without an error. The drive is the last bit of `dev`. -/
def ideintr (s : Bcache) (i : Fin nBuf) (ready : Bool) : Bcache :=
  if (s.buf i).dirty then
    { s.modify i (fun b => { b with valid := true, dirty := false }) with
      disk := fun drive blockno =>
        if (s.buf i).dev % 2 = drive ∧ (s.buf i).blockno = blockno then (s.buf i).data
        else s.disk drive blockno }
  else if ready then
    s.modify i fun b => { b with valid := true, data := s.disk (b.dev % 2) b.blockno }
  else s.modify i fun b => { b with valid := true }

def bwrite (s : Bcache) (p : Fin nProc) (i : Fin nBuf) : Except Fault Bcache :=
  if (s.buf i).holder ≠ some p then .error .panic
  else (s.modify i fun b => { b with dirty := true }).iderw p i (.writing i)

/-- The part of `brelse` under `bcache.lock`. -/
def unref (s : Bcache) (i : Fin nBuf) : Bcache :=
  let s := s.modify i fun b => { b with refcnt := b.refcnt - 1 }
  if (s.buf i).refcnt = 0 then { s with lru := i :: s.lru.erase i } else s

end Bcache

inductive BufStep
  | bget (p : Fin nProc) (dev blockno : ℕ)
  | acquire (p : Fin nProc)
  | ideintr (p : Fin nProc) (ready : Bool)
  /-- The caller changes the data of a buffer it holds. -/
  | store (p : Fin nProc) (i : Fin nBuf) (data : Block)
  /-- `log_write` pins a buffer. -/
  | pin (p : Fin nProc) (i : Fin nBuf)
  | bwrite (p : Fin nProc) (i : Fin nBuf)
  | brelse (p : Fin nProc) (i : Fin nBuf)
  | unref (p : Fin nProc)

open Bcache in
def execBuf (a : BufStep) (s : Bcache) : Except Fault (BufRet × Bcache) :=
  match a with
  | .bget p dev blockno =>
    if s.call p ≠ .idle then .error .notEnabled
    else (BufRet.none, ·) <$> s.bget p dev blockno
  | .acquire p =>
    match s.call p with
    | .acquiring i => if (s.buf i).holder ≠ none then .error .notEnabled else s.acquire p i
    | _ => .error .notEnabled
  | .ideintr p ready =>
    match s.call p with
    | .reading i => .ok (.bread i ((s.ideintr i ready).buf i).data,
        (s.ideintr i ready).setCall p .idle)
    | .writing i => .ok (.bwrite i, (s.ideintr i ready).setCall p .idle)
    | _ => .error .notEnabled
  | .store p i data =>
    if s.call p ≠ .idle ∨ (s.buf i).holder ≠ some p then .error .notEnabled
    else .ok (.none, s.modify i fun b => { b with data := data })
  | .pin p i =>
    if s.call p ≠ .idle ∨ (s.buf i).holder ≠ some p then .error .notEnabled
    else .ok (.none, s.modify i fun b => { b with dirty := true })
  | .bwrite p i =>
    if s.call p ≠ .idle then .error .notEnabled
    else (BufRet.none, ·) <$> s.bwrite p i
  | .brelse p i =>
    if s.call p ≠ .idle then .error .notEnabled
    else if (s.buf i).holder ≠ some p then .error .panic
    else .ok (.none, (s.modify i fun b => { b with holder := none }).setCall p (.releasing i))
  | .unref p =>
    match s.call p with
    | .releasing i => .ok (.none, (s.unref i).setCall p .idle)
    | _ => .error .notEnabled

/-- The state after `binit`, in front of the disks `disk`. -/
def binit (disk : ℕ → ℕ → Block) (havedisk1 : Bool) : Bcache :=
  ⟨fun _ => Buf.zero, (List.finRange nBuf).reverse, disk, havedisk1, fun _ => .idle⟩

/-- The rules callers keep to: there are the devices 0 and 1 only, the block that the zeroed
buffers name is not asked for, and a buffer that differs from the disk is pinned before it is
given back. The disk is taken to have no errors. -/
def Disciplined (a : BufStep) (s : Bcache) : Prop :=
  match a with
  | .bget _ dev blockno => dev < 2 ∧ ¬(dev = 0 ∧ blockno = 0)
  | .ideintr _ ready => ready = true
  | .brelse _ i => (s.buf i).dirty = true ∨
      (s.buf i).data = s.disk (s.buf i).dev (s.buf i).blockno
  | _ => True

instance (a : BufStep) (s : Bcache) : Decidable (Disciplined a s) := by
  unfold Disciplined
  split <;> infer_instance

/-- Every run of callers that keep to the rules. -/
abbrev BufRun (disk : ℕ → ℕ → Block) : List (Event Bcache BufStep BufRet) → Bcache → Prop :=
  Run execBuf Disciplined (∃ present, · = binit disk present)

end SsuOs.Xv6
