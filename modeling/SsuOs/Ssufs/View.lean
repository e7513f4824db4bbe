import SsuOs.Ssufs.Invariant

/-! How a volume lies on the disk image, and what the functions of `ssufs-disk.c` do to it. -/
namespace SsuOs.Ssufs
open Lib

def State.superblock (s : State) : SuperBlock :=
  superblockLayout.decode (region s.image 0 blockSize)

def State.inode (s : State) (i : Fin numInodes) : Inode :=
  inodeLayout.decode (region s.image (blockSize + inodeLayout.size * i) inodeLayout.size)

def State.block (s : State) (b : Fin numDataBlocks) : List UInt8 :=
  region s.image (blockSize * (5 + b)) blockSize

/-- The disk image and the array of open files hold the volume. -/
structure Represents (s : State) (v : Volume) : Prop where
  superblock : s.superblock = v.superblock
  inode : ∀ i, s.inode i = (v.file i).toInode
  block : ∀ b, s.block b = v.data b
  extent : s.image.length = v.extent
  handle : ∀ h, s.handle h = (v.handle h).toFileHandle

theorem superblockLayout_size : superblockLayout.size = 46 := rfl

theorem inodeLayout_size : inodeLayout.size = 32 := rfl

theorem diskRead_eq {s : State} {pos : ℤ} {n : ℕ} (off : ℕ) (hp : pos = off)
    (h : off + n ≤ s.image.length) : diskRead pos n s = .ok (region s.image off n) := by
  have hlen : (pread s.image off n).length = n := by
    rw [length_pread]
    omega
  unfold diskRead assert
  rw [hp, if_neg (by omega), Int.toNat_natCast]
  simp only [hlen, if_true, ok_bind]
  rw [pread_eq_region h]

theorem diskWrite_eq {pos : ℤ} (off : ℕ) (hp : pos = off) (b : List UInt8) (s : State) :
    diskWrite pos b s = .ok { s with image := pwrite s.image off b } := by
  unfold diskWrite
  rw [hp, if_neg (by omega), Int.toNat_natCast]

theorem inode_pos (i : Fin numInodes) :
    (blockSize + (i : ℕ) * inodeLayout.size : ℤ) =
      (blockSize + inodeLayout.size * i : ℕ) := by
  rw [inodeLayout_size]
  push_cast
  omega

theorem block_pos (b : Fin numDataBlocks) :
    (blockSize * (5 + (b : ℕ)) : ℤ) = (blockSize * (5 + b) : ℕ) := by
  push_cast
  rfl

section Image

variable {s s' : State} {v : Volume} {off : ℕ} {b : List UInt8}

theorem superblock_pwrite_self {sb : SuperBlock} {rest : List UInt8}
    (hs : s'.image = pwrite s.image 0 (superblockLayout.encode sb ++ rest))
    (hr : rest.length = blockSize - superblockLayout.size) : s'.superblock = sb := by
  have hlen : (superblockLayout.encode sb ++ rest).length = blockSize := by
    rw [List.length_append, superblockLayout.length_encode, hr, superblockLayout_size]
    rfl
  have hreg := region_pwrite_self s.image 0 (superblockLayout.encode sb ++ rest)
  rw [hlen] at hreg
  unfold State.superblock
  rw [hs, hreg]
  apply superblockLayout.decode_encode
  exact ⟨fun _ => trivial, fun _ => trivial, fun _ => trivial⟩

theorem superblock_pwrite (hs : s'.image = pwrite s.image off b) (h : blockSize ≤ off) :
    s'.superblock = s.superblock := by
  unfold State.superblock
  rw [hs, region_pwrite_of_disjoint _ (Or.inl (by omega))]

theorem inode_pwrite (hs : s'.image = pwrite s.image off b) {i : Fin numInodes}
    (h : blockSize + inodeLayout.size * (i + 1) ≤ off ∨
      off + b.length ≤ blockSize + inodeLayout.size * i) : s'.inode i = s.inode i := by
  unfold State.inode
  rw [hs, region_pwrite_of_disjoint]
  rw [Nat.mul_succ] at h
  omega

theorem block_pwrite (hs : s'.image = pwrite s.image off b) {c : Fin numDataBlocks}
    (h : blockSize * (6 + c) ≤ off ∨ off + b.length ≤ blockSize * (5 + c)) :
    s'.block c = s.block c := by
  unfold State.block
  rw [hs, region_pwrite_of_disjoint]
  unfold blockSize at h ⊢
  omega

end Image

theorem assert_eq {p : Prop} [Decidable p] (h : p) : assert p = .ok () := if_pos h

theorem index_eq {n : ℕ} (i : Fin n) : index n (i : ℕ) = .ok i := by
  unfold index
  rw [dif_pos ⟨by omega, by have := i.isLt; omega⟩]
  rfl

theorem inodeLayout_valid {x : File} (hx : x.size ≤ blockSize * maxFileSize) :
    inodeLayout.Valid x.toInode := by
  unfold blockSize maxFileSize at hx
  refine ⟨?_, fun _ => trivial, ?_, fun j => ?_⟩
  · change InInt (if x.busy then _ else _)
    split_ifs <;> decide
  · change InInt (x.size : ℤ)
    unfold InInt intMin intMax
    omega
  · change InInt (blockSlot x.blocks j)
    unfold blockSlot
    split
    · rename_i b _
      have := b.isLt
      unfold InInt intMin intMax
      unfold numDataBlocks at *
      omega
    · decide

section Disk

variable {s : State} {v : Volume}

theorem Represents.readSuperBlock (hr : Represents s v) (hx : blockSize * 5 ≤ v.extent) :
    ssufsReadSuperBlock s = .ok v.superblock := by
  unfold ssufsReadSuperBlock
  rw [diskRead_eq 0 (show (0 : ℤ) = (0 : ℕ) from rfl) (by rw [hr.extent]; omega), ok_bind,
    ← hr.superblock]
  rfl

theorem Represents.readInode (hr : Represents s v) (hx : blockSize * 5 ≤ v.extent)
    (i : Fin numInodes) : ssufsReadInode (i : ℕ) s = .ok (v.file i).toInode := by
  have hi := i.isLt
  unfold ssufsReadInode
  rw [assert_eq (by omega), ok_bind,
    diskRead_eq _ (inode_pos i)
      (by rw [hr.extent, inodeLayout_size]; unfold blockSize numInodes at *; omega),
    ok_bind, ← hr.inode]
  rfl

theorem Represents.readDataBlock (hr : Represents s v) {b : Fin numDataBlocks}
    (hb : blockSize * (6 + b) ≤ v.extent) : ssufsReadDataBlock (b : ℕ) s = .ok (v.data b) := by
  have hlt := b.isLt
  unfold ssufsReadDataBlock
  rw [assert_eq (by omega), ok_bind,
    diskRead_eq _ (block_pos b)
      (by rw [hr.extent]; unfold blockSize at *; omega), ← hr.block]
  rfl

theorem Represents.writeSuperBlock (hr : Represents s v) (hx : blockSize * 5 ≤ v.extent)
    (used : Fin numInodes → Bool) (taken : Fin numDataBlocks → Bool) :
    ∃ s', ssufsWriteSuperBlock { v with used := used, taken := taken }.superblock s = .ok s' ∧
      Represents s' { v with used := used, taken := taken } := by
  unfold ssufsWriteSuperBlock
  rw [diskWrite_eq 0 (show (0 : ℤ) = (0 : ℕ) from rfl)]
  have hrest : (s.takeJunk (blockSize - superblockLayout.size)).length =
      blockSize - superblockLayout.size := by
    simp [State.takeJunk]
  refine ⟨_, rfl, ?_⟩
  have hlen : ∀ sb, (superblockLayout.encode sb ++
      s.takeJunk (blockSize - superblockLayout.size)).length = blockSize := by
    intro sb
    rw [List.length_append, superblockLayout.length_encode, hrest, superblockLayout_size]
    rfl
  constructor
  · exact superblock_pwrite_self rfl hrest
  · intro i
    rw [← hr.inode]
    apply inode_pwrite rfl
    rw [hlen]
    omega
  · intro b
    rw [← hr.block]
    apply block_pwrite rfl
    rw [hlen]
    unfold blockSize
    omega
  · rw [length_pwrite, hlen, ← hr.extent]
    have := hr.extent
    unfold blockSize at *
    exact max_eq_left (by change _ ≤ s.image.length; omega)
  · exact hr.handle

theorem Represents.writeInode (hr : Represents s v) (hx : blockSize * 5 ≤ v.extent)
    (i : Fin numInodes) {x : File} (hs : x.size ≤ blockSize * maxFileSize) :
    ∃ s', ssufsWriteInode (i : ℕ) x.toInode s = .ok s' ∧
      Represents s' { v with file := Function.update v.file i x } := by
  have hi := i.isLt
  unfold ssufsWriteInode
  rw [assert_eq (by omega), ok_bind,
    diskWrite_eq _ (inode_pos i)]
  refine ⟨_, rfl, ?_⟩
  have hlen := inodeLayout.length_encode x.toInode
  constructor
  · exact (superblock_pwrite rfl (by omega)).trans hr.superblock
  · intro j
    dsimp only
    by_cases hj : j = i
    · subst hj
      have hreg := region_pwrite_self s.image (blockSize + inodeLayout.size * j)
        (inodeLayout.encode x.toInode)
      rw [hlen] at hreg
      unfold State.inode
      rw [hreg, Function.update_self]
      have hdec := inodeLayout.decode_encode x.toInode [] (inodeLayout_valid hs)
      rwa [List.append_nil] at hdec
    · rw [Function.update_of_ne hj, ← hr.inode]
      apply inode_pwrite rfl
      rw [hlen, inodeLayout_size]
      have := Fin.val_ne_of_ne hj
      omega
  · intro b
    rw [← hr.block]
    apply block_pwrite rfl
    rw [hlen, inodeLayout_size]
    unfold blockSize numInodes at *
    omega
  · rw [length_pwrite, hlen, inodeLayout_size, ← hr.extent]
    have := hr.extent
    unfold blockSize numInodes at *
    exact max_eq_left (by omega)
  · exact hr.handle

theorem Represents.writeDataBlock (hr : Represents s v) (b : Fin numDataBlocks)
    {buf : List UInt8} (hb : blockSize ≤ buf.length) :
    ∃ s', ssufsWriteDataBlock (b : ℕ) buf s = .ok s' ∧
      Represents s' { v with
        data := Function.update v.data b (buf.take blockSize)
        extent := Volume.reach b v.extent } := by
  have hlt := b.isLt
  have hload : load buf 0 blockSize = .ok (buf.take blockSize) := by
    unfold load
    rw [if_pos ⟨le_rfl, by omega, by omega⟩]
    rfl
  have hlen : (buf.take blockSize).length = blockSize := by
    rw [List.length_take]
    omega
  unfold ssufsWriteDataBlock
  rw [assert_eq (by omega), ok_bind, hload, ok_bind,
    diskWrite_eq _ (block_pos b)]
  refine ⟨_, rfl, ?_⟩
  constructor
  · exact (superblock_pwrite rfl (by unfold blockSize; omega)).trans hr.superblock
  · intro i
    have hi := i.isLt
    rw [← hr.inode]
    apply inode_pwrite rfl
    rw [inodeLayout_size]
    unfold blockSize numInodes at *
    omega
  · intro c
    dsimp only
    by_cases hc : c = b
    · subst hc
      have hreg := region_pwrite_self s.image (blockSize * (5 + c)) (buf.take blockSize)
      rw [hlen] at hreg
      rw [Function.update_self]
      exact hreg
    · rw [Function.update_of_ne hc, ← hr.block]
      apply block_pwrite rfl
      rw [hlen]
      have := Fin.val_ne_of_ne hc
      unfold blockSize
      omega
  · rw [length_pwrite, hlen, ← hr.extent]
    unfold Volume.reach blockSize
    congr 1
    omega
  · exact hr.handle

end Disk

/-- There is no check for a negative number, and the inode numbered -1 lies in the second half of
the superblock's block. -/
theorem readInode_neg_one {s : State} (hs : blockSize ≤ s.image.length) :
    ssufsReadInode (-1) s = .ok (inodeLayout.decode (region s.image 32 inodeLayout.size)) := by
  unfold ssufsReadInode
  rw [assert_eq (by decide), ok_bind, diskRead_eq 32 (by rfl)
    (by rw [inodeLayout_size]; unfold blockSize at hs; omega), ok_bind]

section Flags

variable {s : State} {v : Volume} (hr : Represents s v)
include hr

theorem Represents.inodeInUse_iff (i : Fin numInodes) :
    s.superblock.inodeFreelist i = inodeInUse ↔ v.used i = true := by
  rw [hr.superblock]
  cases hu : v.used i <;> simp only [Volume.superblock, hu] <;> decide

theorem Represents.dataBlockUsed_iff (b : Fin numDataBlocks) :
    s.superblock.datablockFreelist b = dataBlockUsed ↔ v.taken b = true := by
  rw [hr.superblock]
  cases hb : v.taken b <;> simp only [Volume.superblock, hb] <;> decide

theorem Represents.dataBlockFree_iff (b : Fin numDataBlocks) :
    s.superblock.datablockFreelist b = dataBlockFree ↔ v.taken b = false := by
  rw [hr.superblock]
  cases hb : v.taken b <;> simp only [Volume.superblock, hb] <;> decide

theorem Represents.directBlocks_eq (i : Fin numInodes) (j : Fin maxFileSize) :
    (s.inode i).directBlocks j = blockSlot (v.file i).blocks j := by
  rw [hr.inode]
  rfl

theorem Represents.fileSize_eq (i : Fin numInodes) : (s.inode i).fileSize = (v.file i).size := by
  rw [hr.inode]
  rfl

end Flags

end SsuOs.Ssufs
