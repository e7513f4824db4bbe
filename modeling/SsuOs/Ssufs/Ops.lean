import SsuOs.Lib.Run
import SsuOs.Ssufs.Disk

/-! The calls of `ssufs-ops.c` and the runs of a program that makes them. -/
namespace SsuOs.Ssufs
open Lib

/-- `none` is the return value -1. -/
def ssufsAllocFileHandle (s : State) : Option (Fin maxOpenFiles) :=
  (List.finRange maxOpenFiles).find? fun h => (s.handle h).inodeNumber = -1

def State.setHandle (h : Fin maxOpenFiles) (e : FileHandle) (s : State) : State :=
  { s with handle := Function.update s.handle h e }

def ssufsCreate (filename : CStr) (s : State) : Except Fault (ℤ × State) := do
  let found ← openNamei filename s
  if found ≥ 0 then .ok (-1, s)
  else do
    let (inodeNumber, s) ← ssufsAllocInode s
    if inodeNumber < 0 then .ok (-1, s)
    else do
      let inode : Inode := {
        status := inodeInUse.toNat
        name := fun j => filename.byte j
        fileSize := 0
        directBlocks := fun _ => -1 }
      let s ← ssufsWriteInode inodeNumber inode s
      .ok (inodeNumber, s)

def ssufsClose (fileHandle : Fin maxOpenFiles) (s : State) : State :=
  s.setHandle fileHandle ⟨0, -1⟩

/-- The loop over the open files stops at the first one it closes. -/
def ssufsDelete (filename : CStr) (s : State) : Except Fault State := do
  let inodeNumber ← openNamei filename s
  if inodeNumber < 0 then .ok s
  else
    let opened := (List.finRange maxOpenFiles).find? fun h =>
      (s.handle h).inodeNumber = inodeNumber
    match opened with
    | some h => ssufsFreeInode inodeNumber (ssufsClose h s)
    | none => ssufsFreeInode inodeNumber s

def ssufsOpen (filename : CStr) (s : State) : Except Fault (ℤ × State) := do
  let inodeNumber ← openNamei filename s
  match ssufsAllocFileHandle s with
  | some fileHandle =>
    if inodeNumber < 0 then .ok (-1, s)
    else .ok (fileHandle, s.setHandle fileHandle { s.handle fileHandle with inodeNumber })
  | none => .ok (-1, s)

def ssufsLseek (fileHandle : Fin maxOpenFiles) (nseek : ℤ) (s : State) :
    Except Fault (ℤ × State) := do
  let tmp ← ssufsReadInode (s.handle fileHandle).inodeNumber s
  let offset := wrap32 ((s.handle fileHandle).offset + nseek)
  if tmp.fileSize = -1 ∨ offset < 0 ∨ offset > tmp.fileSize then .ok (-1, s)
  else .ok (0, s.setHandle fileHandle { s.handle fileHandle with offset })

def readBlocks (inode : Inode) (s : State) :
    List (Fin maxFileSize) → List UInt8 → Except Fault (List UInt8)
  | [], tmpBuf => .ok tmpBuf
  | i :: is, tmpBuf =>
    if inode.directBlocks i < 0 then .ok tmpBuf
    else do
      let block ← ssufsReadDataBlock (inode.directBlocks i) s
      let tmpBuf ← store tmpBuf (blockSize * i) block
      readBlocks inode s is tmpBuf

/-- The second component is what was copied to `buf`. -/
def ssufsRead (fileHandle : Fin maxOpenFiles) (nbytes : ℤ) (s : State) :
    Except Fault (ℤ × List UInt8 × State) :=
  let offset := (s.handle fileHandle).offset
  let inodeNumber := (s.handle fileHandle).inodeNumber
  if inodeNumber < 0 then .ok (-1, [], s)
  else do
    let inode ← ssufsReadInode inodeNumber s
    if inode.fileSize < wrap32 (nbytes + offset) then .ok (-1, [], s)
    else do
      let tmpBuf ← readBlocks inode s (List.finRange maxFileSize)
        (List.replicate (blockSize * maxFileSize) 0)
      let buf ← load tmpBuf offset nbytes
      let (_, s) ← ssufsLseek fileHandle nbytes s
      .ok (0, buf, s)

/-- The first loop of `ssufs_write`; `none` when it runs out of blocks. -/
def gatherBlocks (numBlocks : ℤ) : List (Fin maxFileSize) → Inode → List UInt8 → State →
    Except Fault (Option (Inode × List UInt8) × State)
  | [], inode, tmpBuf, s => .ok (some (inode, tmpBuf), s)
  | i :: is, inode, tmpBuf, s =>
    if inode.directBlocks i < 0 then
      if (i : ℤ) < numBlocks then do
        let (idx, s) ← ssufsAllocDataBlock s
        if idx < 0 then .ok (none, s)
        else do
          let inode := inode.setBlock i idx
          let s ← ssufsWriteDataBlock idx (tmpBuf.drop (blockSize * i)) s
          let block ← ssufsReadDataBlock idx s
          let tmpBuf ← store tmpBuf (blockSize * i) block
          gatherBlocks numBlocks is inode tmpBuf s
      else .ok (some (inode, tmpBuf), s)
    else do
      let block ← ssufsReadDataBlock (inode.directBlocks i) s
      let tmpBuf ← store tmpBuf (blockSize * i) block
      gatherBlocks numBlocks is inode tmpBuf s

def writeBlocks (inode : Inode) (tmpBuf : List UInt8) :
    List (Fin maxFileSize) → State → Except Fault State
  | [], s => .ok s
  | i :: is, s =>
    if inode.directBlocks i < 0 then .ok s
    else do
      let s ← ssufsWriteDataBlock (inode.directBlocks i) (tmpBuf.drop (blockSize * i)) s
      writeBlocks inode tmpBuf is s

/-- The number of blocks that a write up to the byte `top` asks for; the division truncates. -/
def blocksUpTo (top : ℤ) : ℤ := (wrap32 (top - 1)).tdiv blockSize + 1

/-- The file reaches to the byte `top` at least. -/
def Inode.growTo (top : ℤ) (inode : Inode) : Inode :=
  if inode.fileSize < top then { inode with fileSize := top } else inode

/-- The part of `ssufs_write` behind the copy into its buffer. -/
def writeBack (fileHandle : Fin maxOpenFiles) (nbytes top inodeNumber : ℤ) (inode : Inode)
    (tmpBuf : List UInt8) (s : State) : Except Fault (ℤ × State) := do
  let s ← writeBlocks inode tmpBuf (List.finRange maxFileSize) s
  let s ← ssufsWriteInode inodeNumber (inode.growTo top) s
  let (_, s) ← ssufsLseek fileHandle nbytes s
  .ok (0, s)

def ssufsWrite (fileHandle : Fin maxOpenFiles) (buf : List UInt8) (nbytes : ℤ) (s : State) :
    Except Fault (ℤ × State) :=
  let offset := (s.handle fileHandle).offset
  let inodeNumber := (s.handle fileHandle).inodeNumber
  let top := wrap32 (offset + nbytes)
  if inodeNumber < 0 ∨ top > (blockSize * maxFileSize : ℕ) then .ok (-1, s)
  else do
    let inode ← ssufsReadInode inodeNumber s
    let gathered ← gatherBlocks (blocksUpTo top) (List.finRange maxFileSize) inode
      (List.replicate (blockSize * maxFileSize) 0) s
    match gathered with
    | (none, s) => .ok (-1, s)
    | (some (inode, tmpBuf), s) =>
      let data ← load buf 0 nbytes
      let tmpBuf ← store tmpBuf offset data
      writeBack fileHandle nbytes top inodeNumber inode tmpBuf s

inductive Call
  | create (filename : CStr)
  | delete (filename : CStr)
  | open (filename : CStr)
  | close (fileHandle : Fin maxOpenFiles)
  | read (fileHandle : Fin maxOpenFiles) (nbytes : ℤ)
  | write (fileHandle : Fin maxOpenFiles) (buf : List UInt8) (nbytes : ℤ)
  | lseek (fileHandle : Fin maxOpenFiles) (nseek : ℤ)
  | dump

inductive Ret
  | none
  | int (r : ℤ)
  | data (r : ℤ) (buf : List UInt8)
  | text (s : String)
  deriving DecidableEq

def exec (c : Call) (s : State) : Except Fault (Ret × State) :=
  match c with
  | .create f => (ssufsCreate f s).map fun p => (.int p.1, p.2)
  | .delete f => (ssufsDelete f s).map fun s => (.none, s)
  | .open f => (ssufsOpen f s).map fun p => (.int p.1, p.2)
  | .close h => .ok (.none, ssufsClose h s)
  | .read h n => (ssufsRead h n s).map fun p => (.data p.1 p.2.1, p.2.2)
  | .write h buf n => (ssufsWrite h buf n s).map fun p => (.int p.1, p.2)
  | .lseek h d => (ssufsLseek h d s).map fun p => (.int p.1, p.2)
  | .dump => (ssufsDump s).map fun t => (.text t, s)

/-- `nbytes` is not negative, the buffer holds that many bytes, and no sum of the call leaves
the range of `int`. -/
def Valid (c : Call) (s : State) : Prop :=
  match c with
  | .read h n => 0 ≤ n ∧ InInt ((s.handle h).offset + n)
  | .write h buf n => 0 ≤ n ∧ n ≤ buf.length ∧ InInt ((s.handle h).offset + n)
  | .lseek h d => InInt ((s.handle h).offset + d)
  | _ => True

instance (c : Call) (s : State) : Decidable (Valid c s) := by
  unfold Valid
  split <;> infer_instance

def Formatted (s : State) : Prop := ∃ junk, ssufsFormatDisk junk = .ok s

/-- Runs of valid calls behind `ssufs_formatDisk`. -/
abbrev FsRun : List (Event State Call Ret) → State → Prop := Run exec Valid Formatted

/-- Runs of any calls, as long as they return. -/
abbrev AnyRun : List (Event State Call Ret) → State → Prop :=
  Run exec (fun _ _ => True) Formatted

end SsuOs.Ssufs
