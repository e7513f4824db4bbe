import SsuOs.Ssufs.Ops

/-! The volume that a disk image and the array of open files stand for, and the effect of every
call on it. -/
namespace SsuOs.Ssufs
open Lib

/-- An inode: `blocks` are the block numbers in front of the first -1. -/
structure File where
  busy : Bool
  name : Fin maxNameStrlen → UInt8
  size : ℕ
  blocks : List (Fin numDataBlocks)

/-- Entry `j` of `direct_blocks`. -/
def blockSlot (blocks : List (Fin numDataBlocks)) (j : ℕ) : ℤ :=
  match blocks[j]? with
  | some b => (b : ℕ)
  | none => -1

def File.toInode (x : File) : Inode where
  status := if x.busy then inodeInUse.toNat else inodeFree.toNat
  name := x.name
  fileSize := x.size
  directBlocks := fun j => blockSlot x.blocks j

/-- The file with `fresh` blocks added that reaches to the byte `top` at least. -/
def File.grow (x : File) (fresh : List (Fin numDataBlocks)) (top : ℕ) : File :=
  { x with blocks := x.blocks ++ fresh, size := max x.size top }

/-- An entry of the array of open files; `none` when it is not in use. -/
structure Handle where
  file : Option (Fin numInodes)
  offset : ℕ
  deriving DecidableEq

def inodeNumber : Option (Fin numInodes) → ℤ
  | some i => (i : ℕ)
  | none => -1

def Handle.toFileHandle (e : Handle) : FileHandle := ⟨e.offset, inodeNumber e.file⟩

structure Volume where
  label : Fin maxNameStrlen → UInt8
  used : Fin numInodes → Bool
  taken : Fin numDataBlocks → Bool
  file : Fin numInodes → File
  data : Fin numDataBlocks → List UInt8
  extent : ℕ
  handle : Fin maxOpenFiles → Handle

/-- `strcmp` finds the name of the inode equal to `f`. -/
def File.Named (x : File) (f : CStr) : Prop :=
  f.chars.length ≤ maxNameStrlen ∧ f.chars ++ [0] <+: x.toInode.nameMem

instance (x : File) (f : CStr) : Decidable (x.Named f) := inferInstanceAs (Decidable (_ ∧ _))

def zeros (n : ℕ) : List UInt8 := List.replicate n 0

namespace Volume

def superblock (v : Volume) : SuperBlock where
  name := v.label
  inodeFreelist := fun i => if v.used i then inodeInUse else inodeFree
  datablockFreelist := fun b => if v.taken b then dataBlockUsed else dataBlockFree

def namei (f : CStr) (v : Volume) : Option (Fin numInodes) :=
  (List.finRange numInodes).find? fun i => v.used i ∧ (v.file i).Named f

def freeInode (v : Volume) : Option (Fin numInodes) :=
  (List.finRange numInodes).find? fun i => !v.used i

def freeHandle (v : Volume) : Option (Fin maxOpenFiles) :=
  (List.finRange maxOpenFiles).find? fun h => (v.handle h).file = none

def setHandle (h : Fin maxOpenFiles) (e : Handle) (v : Volume) : Volume :=
  { v with handle := Function.update v.handle h e }

def addFile (i : Fin numInodes) (f : CStr) (v : Volume) : Volume :=
  { v with
    used := Function.update v.used i true
    file := Function.update v.file i ⟨true, fun j => f.byte j, 0, []⟩ }

/-- The first open file on the inode `i` is closed. -/
def closeFirst (i : Fin numInodes) (v : Volume) : Volume :=
  match (List.finRange maxOpenFiles).find? (fun h => (v.handle h).file = some i) with
  | some h => v.setHandle h ⟨none, 0⟩
  | none => v

def release (i : Fin numInodes) (v : Volume) : Volume :=
  { v with
    used := Function.update v.used i false
    taken := fun b => v.taken b && decide (b ∉ (v.file i).blocks)
    file := Function.update v.file i { v.file i with busy := false, size := 0, blocks := [] } }

def freeBlocks (v : Volume) : List (Fin numDataBlocks) :=
  (List.finRange numDataBlocks).filter fun b => !v.taken b

/-- The disk image reaches to the end of the block `b` at least. -/
def reach (b : Fin numDataBlocks) (n : ℕ) : ℕ := max n (blockSize * (6 + b))

/-- A free block is taken and zeroed. -/
def take (v : Volume) (b : Fin numDataBlocks) : Volume :=
  { v with
    taken := Function.update v.taken b true
    data := Function.update v.data b (zeros blockSize)
    extent := reach b v.extent }

def claim (l : List (Fin numDataBlocks)) (v : Volume) : Volume := l.foldl take v

/-- The blocks are overwritten one by one from the buffer `l`. -/
def put : List (Fin numDataBlocks) → List UInt8 → Volume → Volume
  | [], _, v => v
  | b :: bs, l, v => put bs (l.drop blockSize)
      { v with
        data := Function.update v.data b (l.take blockSize)
        extent := reach b v.extent }

def bytes (v : Volume) (blocks : List (Fin numDataBlocks)) : List UInt8 := blocks.flatMap v.data

def content (v : Volume) (i : Fin numInodes) : List UInt8 :=
  (v.bytes (v.file i).blocks).take (v.file i).size

/-- A file in the 256-byte buffer of `ssufs_read` and `ssufs_write`. -/
def buffer (v : Volume) (blocks : List (Fin numDataBlocks)) : List UInt8 :=
  region (v.bytes blocks) 0 (blockSize * maxFileSize)

/-- Blocks that a write up to `top` adds to the file `x`. -/
def blocksNeeded (x : File) (top : ℤ) : ℕ :=
  min maxFileSize (blocksUpTo top).toNat - x.blocks.length

/-- `b` is written through the handle `h` on the inode `i`, with `fresh` blocks added to it. -/
def wrote (h : Fin maxOpenFiles) (i : Fin numInodes) (fresh : List (Fin numDataBlocks))
    (b : List UInt8) (v : Volume) : Volume :=
  let o := (v.handle h).offset
  let blocks := (v.file i).blocks ++ fresh
  let v₁ := v.claim fresh
  let v₂ := v₁.put blocks (pwrite (v₁.buffer blocks) o b)
  { v₂ with
    file := Function.update v.file i ((v.file i).grow fresh (o + b.length))
    handle := Function.update v.handle h { v.handle h with offset := o + b.length } }

end Volume

/-- The blocks that stay taken when those of `l` are given back. -/
def keeping (taken : Fin numDataBlocks → Bool) (l : List (Fin numDataBlocks)) :
    Fin numDataBlocks → Bool :=
  fun b => taken b && decide (b ∉ l)

/-- The effect of a call that returns. -/
inductive Effect (v : Volume) : Call → Ret → Volume → Prop
  | createExists {f : CStr} {i : Fin numInodes} (hf : v.namei f = some i) :
      Effect v (.create f) (.int (-1)) v
  | createFull {f : CStr} (hf : v.namei f = none) (hu : v.freeInode = none) :
      Effect v (.create f) (.int (-1)) v
  | created {f : CStr} {i : Fin numInodes} (hf : v.namei f = none) (hu : v.freeInode = some i) :
      Effect v (.create f) (.int (i : ℕ)) (v.addFile i f)
  | deleteMiss {f : CStr} (hf : v.namei f = none) : Effect v (.delete f) .none v
  | deleted {f : CStr} {i : Fin numInodes} (hf : v.namei f = some i) :
      Effect v (.delete f) .none ((v.closeFirst i).release i)
  | openFail {f : CStr} (hf : v.namei f = none ∨ v.freeHandle = none) :
      Effect v (.open f) (.int (-1)) v
  | opened {f : CStr} {i : Fin numInodes} {h : Fin maxOpenFiles} (hf : v.namei f = some i)
      (hh : v.freeHandle = some h) :
      Effect v (.open f) (.int (h : ℕ)) (v.setHandle h { v.handle h with file := some i })
  | closed (h : Fin maxOpenFiles) : Effect v (.close h) .none (v.setHandle h ⟨none, 0⟩)
  | readClosed {h : Fin maxOpenFiles} {n : ℤ} (hh : (v.handle h).file = none) :
      Effect v (.read h n) (.data (-1) []) v
  | readShort {h : Fin maxOpenFiles} {n : ℤ} {i : Fin numInodes} (hh : (v.handle h).file = some i)
      (hs : (v.file i).size < wrap32 (n + (v.handle h).offset)) :
      Effect v (.read h n) (.data (-1) []) v
  | read {h : Fin maxOpenFiles} {n : ℤ} {i : Fin numInodes} (hh : (v.handle h).file = some i)
      (hn : 0 ≤ n) (hs : (v.handle h).offset + n ≤ (v.file i).size) :
      Effect v (.read h n)
        (.data 0 (pread (v.buffer (v.file i).blocks) (v.handle h).offset n.toNat))
        (v.setHandle h { v.handle h with offset := (v.handle h).offset + n.toNat })
  | writeClosed {h : Fin maxOpenFiles} {buf : List UInt8} {n : ℤ} (hh : (v.handle h).file = none) :
      Effect v (.write h buf n) (.int (-1)) v
  | writeTooLong {h : Fin maxOpenFiles} {buf : List UInt8} {n : ℤ} {i : Fin numInodes}
      (hh : (v.handle h).file = some i)
      (ht : wrap32 ((v.handle h).offset + n) > (blockSize * maxFileSize : ℕ)) :
      Effect v (.write h buf n) (.int (-1)) v
  | writeFull {h : Fin maxOpenFiles} {buf : List UInt8} {n : ℤ} {i : Fin numInodes}
      (hh : (v.handle h).file = some i)
      (ht : wrap32 ((v.handle h).offset + n) ≤ (blockSize * maxFileSize : ℕ))
      (hk : v.freeBlocks.length <
        Volume.blocksNeeded (v.file i) (wrap32 ((v.handle h).offset + n))) :
      Effect v (.write h buf n) (.int (-1)) (v.claim v.freeBlocks)
  | wrote {h : Fin maxOpenFiles} {buf : List UInt8} {n : ℤ} {i : Fin numInodes}
      (hh : (v.handle h).file = some i) (hn : 0 ≤ n) (hb : n ≤ buf.length)
      (ht : (v.handle h).offset + n ≤ (blockSize * maxFileSize : ℕ))
      (hk : Volume.blocksNeeded (v.file i) ((v.handle h).offset + n) ≤ v.freeBlocks.length) :
      Effect v (.write h buf n) (.int 0) (v.wrote h i
        (v.freeBlocks.take (Volume.blocksNeeded (v.file i) ((v.handle h).offset + n)))
        (buf.take n.toNat))
  | seekFail {h : Fin maxOpenFiles} {d : ℤ} {i : Fin numInodes} (hh : (v.handle h).file = some i)
      (hs : wrap32 ((v.handle h).offset + d) < 0 ∨
        wrap32 ((v.handle h).offset + d) > (v.file i).size) :
      Effect v (.lseek h d) (.int (-1)) v
  | seek {h : Fin maxOpenFiles} {d : ℤ} {i : Fin numInodes} (hh : (v.handle h).file = some i)
      (h₀ : 0 ≤ wrap32 ((v.handle h).offset + d))
      (hs : wrap32 ((v.handle h).offset + d) ≤ (v.file i).size) :
      Effect v (.lseek h d) (.int 0)
        (v.setHandle h { v.handle h with offset := (wrap32 ((v.handle h).offset + d)).toNat })
  | seekClosedFail {h : Fin maxOpenFiles} {d : ℤ} (hh : (v.handle h).file = none) :
      Effect v (.lseek h d) (.int (-1)) v
  | seekClosed {h : Fin maxOpenFiles} {d : ℤ} (hh : (v.handle h).file = none)
      (h₀ : 0 ≤ wrap32 ((v.handle h).offset + d)) :
      Effect v (.lseek h d) (.int 0)
        (v.setHandle h { v.handle h with offset := (wrap32 ((v.handle h).offset + d)).toNat })
  | dump {t : String} : Effect v .dump (.text t) v

end SsuOs.Ssufs
