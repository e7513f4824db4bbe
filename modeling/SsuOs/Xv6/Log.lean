import SsuOs.Lib.Writes
import SsuOs.Xv6.Blocks

/-! The log of `log.c`, over the blocks of one device as the buffer cache offers them. A step is a
call of the log by some process, one write of a block by `commit` or by the recovery at boot, or a
crash, which may come between any two of them. -/
namespace SsuOs.Xv6
open SsuOs.Lib

abbrev logSize : ℕ := maxOpBlocks * 3

/-- The block that `initlog` reads at each boot. -/
abbrev superBlock : ℕ := 1

/-- Where the superblock puts the log. -/
structure LogLayout where
  start : ℕ
  size : ℕ
  size_pos : 0 < size
  fits : start + size ≤ fsSize
  behind : superBlock < start

namespace LogLayout

variable (L : LogLayout)

def InLog (b : ℕ) : Prop := L.start ≤ b ∧ b < L.start + L.size

instance (b : ℕ) : Decidable (L.InLog b) := inferInstanceAs (Decidable (_ ∧ _))

/-- The blocks that operations log: neither the log itself nor the superblock, which would put the
log somewhere else at the next boot. -/
def Home (b : ℕ) : Prop := ¬L.InLog b ∧ b < fsSize ∧ b ≠ superBlock

instance (b : ℕ) : Decidable (L.Home b) := inferInstanceAs (Decidable (_ ∧ _))

def slot (i : ℕ) : ℕ := L.start + i + 1

end LogLayout

/-- `write_head`: the count and the block numbers go over what is in the header block. -/
def encodeHead (lh : List ℕ) (v : Block) : Block := fun i =>
  if i = 0 then lh.length
  else match lh[i.val - 1]? with
    | some b => b
    | none => v i

/-- `read_head`. More than `logSize` entries would run over the end of `log.lh.block`. -/
def decodeHead (v : Block) : Except Fault (List ℕ) :=
  if (logSize : ℤ) < v 0 then .error .panic
  else .ok ((List.range (v 0).toNat).map fun i => (v (Fin.ofNat 128 (i + 1)) % 2 ^ 32).toNat)

/-- Where `commit` or `recover_from_log` is. -/
inductive Phase
  | idle
  | writeLog (tail : ℕ)
  | writeHead
  | install (boot : Bool) (tail : ℕ)
  | clearHead (boot : Bool)
  /-- Back from `commit` in `end_op`. -/
  | finish
  | readHead
  deriving DecidableEq

def Phase.booting : Phase → Bool
  | .readHead => true
  | .install boot _ => boot
  | .clearHead boot => boot
  | _ => false

/-- An operation of a process: the blocks it has passed to `log_write`, and the block and its data
when it is past the checks of a call. -/
structure Op where
  logged : List ℕ
  pending : Option (ℕ × Block)

/-- `log` with the entries of `log.lh` in use, the processes asleep in `begin_op` and those between
`begin_op` and `end_op`. -/
structure LogState where
  blocks : Store
  lh : List ℕ
  outstanding : ℤ
  committing : Bool
  phase : Phase
  asleep : Fin nProc → Bool
  op : Fin nProc → Option Op

inductive LogStep
  | beginOp (p : Fin nProc)
  /-- The caller has filled the buffer of block `b` with `v` and passes the checks of
  `log_write`, which come before the lock. -/
  | checkWrite (p : Fin nProc) (b : ℕ) (v : Block)
  /-- The locked section of `log_write`. -/
  | logWrite (p : Fin nProc)
  | endOp (p : Fin nProc)
  /-- `commit` or `recover_from_log` goes on. -/
  | advance
  | crash

namespace LogState

def wakeup (s : LogState) : LogState := { s with asleep := fun _ => false }

def setOp (s : LogState) (p : Fin nProc) (o : Option Op) : LogState :=
  { s with op := Function.update s.op p o }

/-- No room for one more operation. -/
def Full (s : LogState) : Prop :=
  (logSize : ℤ) < s.lh.length + (s.outstanding + 1) * maxOpBlocks

instance (s : LogState) : Decidable s.Full := inferInstanceAs (Decidable (_ < _))

def beginOp (s : LogState) (p : Fin nProc) : LogState :=
  if s.committing ∨ s.Full then { s with asleep := Function.update s.asleep p true }
  else { s with outstanding := s.outstanding + 1 }.setOp p (some ⟨[], none⟩)

def checkWrite (L : LogLayout) (s : LogState) (p : Fin nProc) (o : Op) (b : ℕ) (v : Block) :
    Except Fault LogState :=
  if logSize ≤ s.lh.length ∨ (L.size : ℤ) - 1 ≤ s.lh.length then .error .panic
  else if s.outstanding < 1 then .error .panic
  else .ok (s.setOp p (some { o with pending := some (b, v) }))

def logWrite (s : LogState) (p : Fin nProc) (o : Op) (b : ℕ) (v : Block) : LogState :=
  { s with
    lh := if b ∈ s.lh then s.lh else s.lh ++ [b]
    blocks := s.blocks.store b v }.setOp p (some ⟨o.logged.insert b, none⟩)

def endOp (s : LogState) (p : Fin nProc) : Except Fault LogState :=
  let s := { s with outstanding := s.outstanding - 1 }.setOp p none
  if s.committing then .error .panic
  else if s.outstanding = 0 then
    .ok { s with committing := true, phase := if s.lh = [] then .finish else .writeLog 0 }
  else .ok s.wakeup

def advance (L : LogLayout) (s : LogState) : Except Fault LogState :=
  match s.phase with
  | .idle => .error .notEnabled
  | .writeLog tail =>
    match s.lh[tail]? with
    | some b => do
      let _ ← s.blocks.bread (L.slot tail)
      let v ← s.blocks.bread b
      .ok { s with blocks := s.blocks.bwrite (L.slot tail) v, phase := .writeLog (tail + 1) }
    | none => .ok { s with phase := .writeHead }
  | .writeHead => do
    let v ← s.blocks.bread L.start
    .ok { s with blocks := s.blocks.bwrite L.start (encodeHead s.lh v), phase := .install false 0 }
  | .install boot tail =>
    match s.lh[tail]? with
    | some b => do
      let v ← s.blocks.bread (L.slot tail)
      let _ ← s.blocks.bread b
      .ok { s with blocks := s.blocks.bwrite b v, phase := .install boot (tail + 1) }
    | none => .ok { s with lh := [], phase := .clearHead boot }
  | .clearHead boot => do
    let v ← s.blocks.bread L.start
    .ok { s with
      blocks := s.blocks.bwrite L.start (encodeHead s.lh v)
      phase := if boot then .idle else .finish }
  | .finish => .ok { s with committing := false, phase := .idle }.wakeup
  | .readHead => do
    let v ← s.blocks.bread L.start
    let lh ← decodeHead v
    .ok { s with lh := lh, phase := .install true 0 }

/-- The zeroed log in front of the blocks `blocks`, at the start of `recover_from_log`. -/
def boot (blocks : Store) : LogState :=
  ⟨blocks, [], 0, false, .readHead, fun _ => false, fun _ => none⟩

end LogState

/-- One step; the recovery is over before any process calls the log, and a process does one thing
at a time. -/
def execLog (L : LogLayout) (a : LogStep) (s : LogState) : Except Fault (Unit × LogState) :=
  match a with
  | .beginOp p =>
    if s.phase.booting ∨ s.asleep p then .error .notEnabled
    else match s.op p with
      | none => .ok ((), s.beginOp p)
      | some _ => .error .notEnabled
  | .checkWrite p b v =>
    match s.op p with
    | some ⟨bs, none⟩ => ((), ·) <$> s.checkWrite L p ⟨bs, none⟩ b v
    | _ => .error .notEnabled
  | .logWrite p =>
    match s.op p with
    | some ⟨bs, some (b, v)⟩ => .ok ((), s.logWrite p ⟨bs, some (b, v)⟩ b v)
    | _ => .error .notEnabled
  | .endOp p =>
    match s.op p with
    | some ⟨_, none⟩ => ((), ·) <$> s.endOp p
    | _ => .error .notEnabled
  | .advance => ((), ·) <$> s.advance L
  | .crash => .ok ((), .boot s.blocks.crash)

/-- The rules callers keep to: an operation logs at most `m` blocks, and never a block of the log
itself or the superblock. -/
def WithinBudget (L : LogLayout) (m : ℕ) (a : LogStep) (s : LogState) : Prop :=
  match a with
  | .checkWrite p b _ => (∀ o ∈ s.op p, (o.logged.insert b).length ≤ m) ∧ L.Home b
  | _ => True

instance (L : LogLayout) (m : ℕ) (a : LogStep) (s : LogState) :
    Decidable (WithinBudget L m a s) := by
  unfold WithinBudget
  split <;> infer_instance

/-- Entries of a log header that stay away from the log and from the superblock. -/
structure LogLayout.Fit (L : LogLayout) (es : List ℕ) : Prop where
  length : es.length < L.size
  room : es.length ≤ logSize
  home : ∀ b ∈ es, L.Home b

/-- A disk as `mkfs` makes it or as an earlier run has left it. -/
def LogLayout.WellFormed (L : LogLayout) (disk : ℕ → Block) : Prop :=
  ∃ es, decodeHead (disk L.start) = .ok es ∧ L.Fit es

/-- Every run from a boot on the disk `disk`, crashes included. -/
abbrev LogRun (L : LogLayout) (m : ℕ) (disk : ℕ → Block) :
    List (Event LogState LogStep Unit) → LogState → Prop :=
  Run (execLog L) (WithinBudget L m) (· = LogState.boot ⟨disk, disk⟩)

end SsuOs.Xv6
