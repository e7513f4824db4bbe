import SsuOs.Lib.ByteFile
import SsuOs.Lib.Except
import SsuOs.Lib.Layout

/-! The functions of `ssufs-disk.c` on the bytes of the disk image. -/
namespace SsuOs.Ssufs
open Lib

abbrev blockSize : ℕ := 64

abbrev numDataBlocks : ℕ := 30

abbrev numInodes : ℕ := 8

/-- The longest file, in blocks. -/
abbrev maxFileSize : ℕ := 4

abbrev maxOpenFiles : ℕ := 20

abbrev maxNameStrlen : ℕ := 8

def inodeFree : UInt8 := 120

def inodeInUse : UInt8 := 49

def dataBlockFree : UInt8 := 120

def dataBlockUsed : UInt8 := 49

structure SuperBlock where
  name : Fin maxNameStrlen → UInt8
  inodeFreelist : Fin numInodes → UInt8
  datablockFreelist : Fin numDataBlocks → UInt8

def SuperBlock.setInode (i : Fin numInodes) (c : UInt8) (superblock : SuperBlock) : SuperBlock :=
  { superblock with inodeFreelist := Function.update superblock.inodeFreelist i c }

def SuperBlock.setBlock (b : Fin numDataBlocks) (c : UInt8) (superblock : SuperBlock) :
    SuperBlock :=
  { superblock with datablockFreelist := Function.update superblock.datablockFreelist b c }

structure Inode where
  status : ℤ
  name : Fin maxNameStrlen → UInt8
  fileSize : ℤ
  directBlocks : Fin maxFileSize → ℤ

def Inode.setBlock (j : Fin maxFileSize) (b : ℤ) (inode : Inode) : Inode :=
  { inode with directBlocks := Function.update inode.directBlocks j b }

structure FileHandle where
  offset : ℤ
  inodeNumber : ℤ
  deriving DecidableEq

def superblockLayout : Layout SuperBlock :=
  .struct (.pair (.array maxNameStrlen .char)
      (.pair (.array numInodes .char) (.array numDataBlocks .char)))
    (fun b => (b.name, b.inodeFreelist, b.datablockFreelist))
    (fun p => ⟨p.1, p.2.1, p.2.2⟩) (fun _ => rfl)

def inodeLayout : Layout Inode :=
  .struct (.pair .int (.pair (.array maxNameStrlen .char) (.pair .int (.array maxFileSize .int))))
    (fun x => (x.status, x.name, x.fileSize, x.directBlocks))
    (fun p => ⟨p.1, p.2.1, p.2.2.1, p.2.2.2⟩) (fun _ => rfl)

/-- The disk image, the array of open files, and what uninitialised memory will turn out to
hold when it is written out. -/
structure State where
  image : List UInt8
  junk : ℕ → UInt8
  handle : Fin maxOpenFiles → FileHandle

inductive Fault
  | assertion
  | outOfBounds
  | badSeek
  deriving DecidableEq

/-- A string argument: its characters, and the memory behind the terminating zero. -/
structure CStr where
  chars : List UInt8
  noNul : ∀ c ∈ chars, c ≠ 0
  after : ℕ → UInt8

def CStr.byte (f : CStr) (j : ℕ) : UInt8 :=
  if j < f.chars.length then f.chars.getD j 0
  else if j = f.chars.length then 0 else f.after (j - f.chars.length - 1)

def assert (p : Prop) [Decidable p] : Except Fault Unit :=
  if p then .ok () else .error .assertion

theorem toNat_lt_of_bounds {n : ℕ} {x : ℤ} (h : 0 ≤ x ∧ x < n) : x.toNat < n := by
  omega

def index (n : ℕ) (x : ℤ) : Except Fault (Fin n) :=
  if h : 0 ≤ x ∧ x < n then .ok ⟨x.toNat, toNat_lt_of_bounds h⟩ else .error .outOfBounds

/-- `memcpy` of `n` bytes out of the object `mem`. -/
def load (mem : List UInt8) (off n : ℤ) : Except Fault (List UInt8) :=
  if 0 ≤ off ∧ 0 ≤ n ∧ off + n ≤ mem.length then .ok (pread mem off.toNat n.toNat)
  else .error .outOfBounds

/-- `memcpy` into the object `mem`. -/
def store (mem : List UInt8) (off : ℤ) (b : List UInt8) : Except Fault (List UInt8) :=
  if 0 ≤ off ∧ off + b.length ≤ mem.length then .ok (pwrite mem off.toNat b)
  else .error .outOfBounds

def strcmp : List UInt8 → List UInt8 → Except Fault Bool
  | a :: as, b :: bs => if a ≠ b then .ok false else if a = 0 then .ok true else strcmp as bs
  | _, _ => .error .outOfBounds

def State.takeJunk (n : ℕ) (s : State) : List UInt8 := (List.range n).map s.junk

def State.dropJunk (n : ℕ) (s : State) : State := { s with junk := fun k => s.junk (k + n) }

/-- `lseek`, `read` and the assertion that all `n` bytes were read. -/
def diskRead (pos : ℤ) (n : ℕ) (s : State) : Except Fault (List UInt8) :=
  if pos < 0 then .error .badSeek
  else do
    let tempBuf := pread s.image pos.toNat n
    assert (tempBuf.length = n)
    .ok tempBuf

/-- `lseek` and `write`, which writes all the bytes it is given. -/
def diskWrite (pos : ℤ) (tempBuf : List UInt8) (s : State) : Except Fault State :=
  if pos < 0 then .error .badSeek
  else .ok { s with image := pwrite s.image pos.toNat tempBuf }

def ssufsReadSuperBlock (s : State) : Except Fault SuperBlock := do
  let tempBuf ← diskRead 0 blockSize s
  .ok (superblockLayout.decode tempBuf)

/-- The bytes of `tempBuf` behind the structure are never set. -/
def ssufsWriteSuperBlock (superblock : SuperBlock) (s : State) : Except Fault State :=
  let rest := blockSize - superblockLayout.size
  diskWrite 0 (superblockLayout.encode superblock ++ s.takeJunk rest) (s.dropJunk rest)

def ssufsReadInode (inodenum : ℤ) (s : State) : Except Fault Inode := do
  assert (inodenum < numInodes)
  let tempBuf ← diskRead (blockSize + inodenum * inodeLayout.size) inodeLayout.size s
  .ok (inodeLayout.decode tempBuf)

def ssufsWriteInode (inodenum : ℤ) (inode : Inode) (s : State) : Except Fault State := do
  assert (inodenum < numInodes)
  diskWrite (blockSize + inodenum * inodeLayout.size) (inodeLayout.encode inode) s

/-- The loop of `ssufs_formatDisk` that writes `inode` over the inodes still to be done. -/
def formatInodes (inode : Inode) : List (Fin numInodes) → State → Except Fault State
  | [], s => .ok s
  | i :: is, s => do
    let s ← ssufsWriteInode i inode s
    formatInodes inode is s

/-- The two bytes behind the literal `"ssufs"` and the bytes of `inode->name` but the first are
whatever memory holds. -/
def ssufsFormatDisk (junk : ℕ → UInt8) : Except Fault State := do
  let s : State := ⟨[], junk, fun _ => ⟨0, -1⟩⟩
  let superblock : SuperBlock := {
    name := fun j => ([115, 115, 117, 102, 115, 0] ++ s.takeJunk 2).getD j 0
    inodeFreelist := fun _ => inodeFree
    datablockFreelist := fun _ => dataBlockFree }
  let s ← ssufsWriteSuperBlock superblock (s.dropJunk 2)
  let inode : Inode := {
    status := inodeFree.toNat
    name := fun j => (0 :: s.takeJunk 7).getD j 0
    fileSize := 0
    directBlocks := fun _ => -1 }
  formatInodes inode (List.finRange numInodes) (s.dropJunk 7)

/-- The memory of an inode from its name on. -/
def Inode.nameMem (inode : Inode) : List UInt8 := (inodeLayout.encode inode).drop 4

def nameiLoop (superblock : SuperBlock) (filename : CStr) (s : State) :
    List (Fin numInodes) → Except Fault ℤ
  | [] => .ok (-1)
  | i :: is =>
    if superblock.inodeFreelist i = inodeInUse then do
      let tmp ← ssufsReadInode i s
      let same ← strcmp tmp.nameMem (filename.chars ++ [0])
      if same then .ok i else nameiLoop superblock filename s is
    else nameiLoop superblock filename s is

def openNamei (filename : CStr) (s : State) : Except Fault ℤ :=
  if filename.chars.length > maxNameStrlen then .ok (-1)
  else do
    let superblock ← ssufsReadSuperBlock s
    nameiLoop superblock filename s (List.finRange numInodes)

def ssufsAllocInode (s : State) : Except Fault (ℤ × State) := do
  let superblock ← ssufsReadSuperBlock s
  match (List.finRange numInodes).find? (fun i => superblock.inodeFreelist i = inodeFree) with
  | some i =>
    let s ← ssufsWriteSuperBlock (superblock.setInode i inodeInUse) s
    .ok (i, s)
  | none => .ok (-1, s)

def ssufsAllocDataBlock (s : State) : Except Fault (ℤ × State) := do
  let superblock ← ssufsReadSuperBlock s
  match (List.finRange numDataBlocks).find?
      (fun b => superblock.datablockFreelist b = dataBlockFree) with
  | some b =>
    let s ← ssufsWriteSuperBlock (superblock.setBlock b dataBlockUsed) s
    .ok (b, s)
  | none => .ok (-1, s)

def ssufsFreeDataBlock (blocknum : ℤ) (s : State) : Except Fault State := do
  let superblock ← ssufsReadSuperBlock s
  let b ← index numDataBlocks blocknum
  assert (superblock.datablockFreelist b = dataBlockUsed)
  ssufsWriteSuperBlock (superblock.setBlock b dataBlockFree) s

/-- The loop of `ssufs_freeInode`: the copy of the superblock is written before and read again
after each block is freed. -/
def freeBlocks : List (Fin maxFileSize) → SuperBlock → Inode → State →
    Except Fault (SuperBlock × Inode × State)
  | [], superblock, inode, s => .ok (superblock, inode, s)
  | j :: js, superblock, inode, s =>
    if inode.directBlocks j ≠ -1 then do
      let s ← ssufsWriteSuperBlock superblock s
      let s ← ssufsFreeDataBlock (inode.directBlocks j) s
      let superblock ← ssufsReadSuperBlock s
      freeBlocks js superblock (inode.setBlock j (-1)) s
    else freeBlocks js superblock (inode.setBlock j (-1)) s

def ssufsFreeInode (inodenum : ℤ) (s : State) : Except Fault State := do
  assert (inodenum < numInodes)
  let superblock ← ssufsReadSuperBlock s
  let inode ← ssufsReadInode inodenum s
  let i ← index numInodes inodenum
  assert (superblock.inodeFreelist i = inodeInUse)
  let inode := { inode with status := inodeFree.toNat, fileSize := 0 }
  let (superblock, inode, s) ← freeBlocks (List.finRange maxFileSize)
    (superblock.setInode i inodeFree) inode s
  let s ← ssufsWriteSuperBlock superblock s
  ssufsWriteInode inodenum inode s

def ssufsReadDataBlock (blocknum : ℤ) (s : State) : Except Fault (List UInt8) := do
  assert (blocknum < numDataBlocks)
  diskRead (blockSize * (5 + blocknum)) blockSize s

def ssufsWriteDataBlock (blocknum : ℤ) (buf : List UInt8) (s : State) : Except Fault State := do
  assert (blocknum < numDataBlocks)
  let tempBuf ← load buf 0 blockSize
  diskWrite (blockSize * (5 + blocknum)) tempBuf s

def text (l : List UInt8) : String := String.ofList (l.map fun c => Char.ofNat c.toNat)

/-- `printf` of a string in memory runs up to the first zero. -/
def printStr (mem : List UInt8) : Except Fault String :=
  if 0 ∈ mem then .ok (text (mem.takeWhile (· ≠ 0))) else .error .outOfBounds

def dumpBlocks (inode : Inode) (s : State) : List (Fin maxFileSize) → Except Fault String
  | [] => .ok ""
  | j :: js =>
    if inode.directBlocks j ≠ -1 then do
      let tempBuf ← ssufsReadDataBlock (inode.directBlocks j) s
      let line ← printStr (tempBuf ++ [0])
      let rest ← dumpBlocks inode s js
      .ok <| "DATA BLOCK " ++ toString j.val ++ ": " ++ line ++ "\n" ++ rest
    else dumpBlocks inode s js

def dumpInodes (s : State) : List (Fin numInodes) → Except Fault String
  | [] => .ok ""
  | i :: is => do
    let inode ← ssufsReadInode i s
    if inode.status = inodeInUse.toNat then do
      let name ← printStr inode.nameMem
      let blocks ← dumpBlocks inode s (List.finRange maxFileSize)
      let rest ← dumpInodes s is
      .ok <| "INODE " ++ toString i.val ++ "\nSTATUS:\t" ++ text [inodeInUse] ++ "\tNAME\t" ++ name ++
        "\tSIZE\t" ++ toString inode.fileSize ++ "\tDATABLOCK\t" ++
        String.join ((List.ofFn inode.directBlocks).map fun b => toString b ++ " ") ++ "\n" ++
        blocks ++ "\n" ++ rest
    else dumpInodes s is

def ssufsDump (s : State) : Except Fault String := do
  let superblock ← ssufsReadSuperBlock s
  let name ← printStr (List.ofFn superblock.name ++ [0])
  let inodes ← dumpInodes s (List.finRange numInodes)
  .ok <|
    "<<<<<<<<<<<<<<<<<<<<<<<<<<<<<<<<<<<<<<<<<<<<DISK STATE>>>>>>>>>>>>>>>>>>>>>>>>>>>>>>>>>>>>>>>>>>>>>>\n" ++
    "DISK NAME: " ++ name ++ "\nINODE FREELIST:      " ++
    String.join ((List.ofFn superblock.inodeFreelist).map fun c => text [c] ++ " ") ++
    "\nDATA BLOCK FREELIST: " ++
    String.join ((List.ofFn superblock.datablockFreelist).map fun c => text [c] ++ " ") ++
    "\n" ++ inodes ++
    "<<<<<<<<<<<<<<<<<<<<<<<<<<<<<<<<<<<<<<<<<<<<<<<<<<>>>>>>>>>>>>>>>>>>>>>>>>>>>>>>>>>>>>>>>>>>>>>>>>>>\n"

end SsuOs.Ssufs
