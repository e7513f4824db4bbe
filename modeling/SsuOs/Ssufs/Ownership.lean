import SsuOs.Ssufs.Simulation

/-! Who owns which block in the states that calls of ssufs lead to, and which calls lose
blocks. -/
namespace SsuOs.Ssufs
open Lib

/-- `blocks i` are the block numbers of the inode `i`: a prefix of its `direct_blocks`, followed
by -1 only. No number stands twice in all the inodes together. -/
structure OwnedBlocks (s : State) (blocks : Fin numInodes → List (Fin numDataBlocks)) : Prop where
  length_le : ∀ i, (blocks i).length ≤ maxFileSize
  directBlocks : ∀ i (j : Fin maxFileSize), (s.inode i).directBlocks j = blockSlot (blocks i) j
  nodup : ((List.finRange numInodes).flatMap blocks).Nodup
  used : ∀ i, ∀ b ∈ blocks i, s.superblock.datablockFreelist b = dataBlockUsed
  fileSize : ∀ i, 0 ≤ (s.inode i).fileSize ∧ (s.inode i).fileSize ≤ blockSize * (blocks i).length

theorem Represents.ownedBlocks {s : State} {v : Volume} (hr : Represents s v) (hi : Inv v) :
    OwnedBlocks s fun i => (v.file i).blocks := by
  constructor
  · exact hi.length_le
  · exact hr.directBlocks_eq
  · refine List.nodup_flatMap.mpr ⟨fun i _ => hi.nodup i, ?_⟩
    refine (List.nodup_finRange numInodes).imp fun hij => ?_
    intro b hbi hbj
    exact hij (hi.owner _ _ b hbi hbj)
  · intro i b hb
    exact (hr.dataBlockUsed_iff b).mpr (hi.taken i b hb)
  · intro i
    have hsize := hi.size_le i
    rw [hr.fileSize_eq]
    omega

section Runs

variable {tr : List (Event State Call Ret)} {s : State}

/-- Every data block belongs to at most one inode, whatever calls have been made. -/
theorem exists_ownedBlocks (h : AnyRun tr s) : ∃ blocks, OwnedBlocks s blocks := by
  obtain ⟨v, hr, hi⟩ := h.sound
  exact ⟨_, hr.ownedBlocks hi⟩

theorem exists_ownedBlocks_written :
    ∃ tr s, AnyRun tr s ∧ (s.inode 0).fileSize = 3 ∧ ∃ blocks, OwnedBlocks s blocks := by
  obtain ⟨tr, s, h, hsize, -⟩ := FsRun.exists_written
  exact ⟨tr, s, h.anyRun, hsize, exists_ownedBlocks h.anyRun⟩

/-- No assertion fails and no read of the disk image comes back short: a valid call returns, and
a call that is not valid can only leave the bounds of a buffer. -/
theorem exec_returns (h : AnyRun tr s) (c : Call) :
    (Valid c s → ∃ r s', exec c s = .ok (r, s')) ∧
      exec c s ≠ .error .assertion ∧ exec c s ≠ .error .badSeek := by
  obtain ⟨v, hr, hi⟩ := h.sound
  rcases exec_sim hr hi c with ⟨hv, he⟩ | ⟨r, s', v', he, -, -⟩
  · rw [he]
    exact ⟨fun h => absurd h hv, by simp, by simp⟩
  · rw [he]
    exact ⟨fun _ => ⟨r, s', rfl⟩, by simp, by simp⟩

theorem exec_returns_read :
    ∃ tr s, AnyRun tr s ∧ Valid (.read 0 3) s ∧ ∃ r s', exec (.read 0 3) s = .ok (r, s') := by
  obtain ⟨tr, s, h, hp⟩ := FsRun.exists_of_check
    [.create nameA, .open nameA, .write 0 [65, 66, 67] 3, .lseek 0 (-3)]
    (p := fun _ s => decide (Valid (.read 0 3) s)) (by decide +kernel)
  have hv := of_decide_eq_true hp
  exact ⟨tr, s, h.anyRun, hv, (exec_returns h.anyRun (.read 0 3)).1 hv⟩

end Runs

/-- A block is marked used only if an inode in use lists it. -/
def NoLeak (s : State) : Prop :=
  ∀ b, s.superblock.datablockFreelist b = dataBlockUsed →
    ∃ i, s.superblock.inodeFreelist i = inodeInUse ∧
      ∃ j, (s.inode i).directBlocks j = (b : ℕ)

def Volume.NoLeak (v : Volume) : Prop :=
  ∀ b, v.taken b = true → ∃ i, v.used i = true ∧ b ∈ (v.file i).blocks

def Inode.blockCount (x : Inode) : ℕ :=
  (List.finRange maxFileSize).countP fun j => 0 ≤ x.directBlocks j

def SuperBlock.freeCount (sb : SuperBlock) : ℕ :=
  (List.finRange numDataBlocks).countP fun b => sb.datablockFreelist b = dataBlockFree

/-- A write that asks for new blocks while some are free, but fewer than it asks for or not for
an inode in use. -/
def LeakyWrite (c : Call) (s : State) : Prop :=
  match c with
  | .write h _ n =>
    let top := wrap32 ((s.handle h).offset + n)
    ∃ i : Fin numInodes, (s.handle h).inodeNumber = (i : ℕ) ∧
      top ≤ (blockSize * maxFileSize : ℕ) ∧
      (s.inode i).blockCount < min maxFileSize (blocksUpTo top).toNat ∧
      0 < s.superblock.freeCount ∧
      (s.superblock.inodeFreelist i ≠ inodeInUse ∨
        s.superblock.freeCount + (s.inode i).blockCount < min maxFileSize (blocksUpTo top).toNat)
  | _ => False

/-- The same, said of the volume. -/
def Volume.Leaky (v : Volume) (c : Call) : Prop :=
  match c with
  | .write h _ n =>
    let top := wrap32 ((v.handle h).offset + n)
    ∃ i, (v.handle h).file = some i ∧ top ≤ (blockSize * maxFileSize : ℕ) ∧
      0 < blocksNeeded (v.file i) top ∧ 0 < v.freeBlocks.length ∧
      (v.used i = false ∨ v.freeBlocks.length < blocksNeeded (v.file i) top)
  | _ => False

section View

variable {s : State} {v : Volume} (hr : Represents s v) (hi : Inv v)
include hr hi

theorem Represents.exists_directBlocks_iff (i : Fin numInodes) (b : Fin numDataBlocks) :
    (∃ j, (s.inode i).directBlocks j = (b : ℕ)) ↔ b ∈ (v.file i).blocks := by
  constructor
  · rintro ⟨j, hj⟩
    rw [hr.directBlocks_eq] at hj
    by_cases hlt : j.val < (v.file i).blocks.length
    · rw [blockSlot_of_lt hlt] at hj
      have hb : (v.file i).blocks[j.val] = b := Fin.ext (by omega)
      rw [← hb]
      exact List.getElem_mem hlt
    · rw [blockSlot_of_le (by omega)] at hj
      omega
  · intro hb
    obtain ⟨j, hj, rfl⟩ := List.getElem_of_mem hb
    refine ⟨⟨j, hj.trans_le (hi.length_le i)⟩, ?_⟩
    rw [hr.directBlocks_eq]
    exact blockSlot_of_lt hj

theorem Represents.noLeak_iff : NoLeak s ↔ v.NoLeak := by
  unfold NoLeak Volume.NoLeak
  simp only [hr.dataBlockUsed_iff, hr.inodeInUse_iff, hr.exists_directBlocks_iff hi]

theorem Represents.blockCount_eq (i : Fin numInodes) :
    (s.inode i).blockCount = (v.file i).blocks.length := by
  have hcount : ∀ n ≤ maxFileSize, (List.finRange maxFileSize).countP (fun j => j.val < n) = n := by
    decide
  unfold Inode.blockCount
  simp only [hr.directBlocks_eq, blockSlot_nonneg]
  exact hcount _ (hi.length_le i)

omit hi in
theorem Represents.freeCount_eq : s.superblock.freeCount = v.freeBlocks.length := by
  unfold SuperBlock.freeCount
  rw [hr.superblock, List.countP_eq_length_filter, datablockFreelist_eq_free]
  rfl

theorem Represents.leakyWrite_iff (c : Call) : LeakyWrite c s ↔ v.Leaky c := by
  cases c with
  | write h buf n =>
    unfold LeakyWrite Volume.Leaky
    dsimp only
    rw [hr.offset, hr.freeCount_eq]
    refine exists_congr fun i => ?_
    rw [hr.inodeNumber_eq_iff, hr.blockCount_eq hi, Ne, hr.inodeInUse_iff, Bool.not_eq_true]
    have hneed : ∀ k m n : ℕ, (k < m ↔ 0 < m - k) ∧ (n + k < m ↔ n < m - k) := by omega
    rw [(hneed _ _ 0).1, (hneed _ _ _).2]
    rfl
  | _ => exact Iff.rfl

end View

section Leak

variable {v v' : Volume}

theorem Volume.noLeak_closeFirst (i : Fin numInodes) : (v.closeFirst i).NoLeak ↔ v.NoLeak := by
  simp [NoLeak]

theorem Volume.NoLeak.addFile (hp : v.NoLeak) {i : Fin numInodes} (hu : v.used i = false)
    (f : CStr) : (v.addFile i f).NoLeak := by
  intro b hb
  obtain ⟨j, hj, hm⟩ := hp b hb
  have hji : j ≠ i := by
    rintro rfl
    rw [hu] at hj
    simp at hj
  refine ⟨j, ?_, ?_⟩
  · rw [Volume.addFile_used_of_ne hji]
    exact hj
  · rw [Volume.addFile_file_of_ne hji]
    exact hm

theorem Volume.NoLeak.release (hp : v.NoLeak) (i : Fin numInodes) : (v.release i).NoLeak := by
  intro b hb
  simp only [Volume.release, Bool.and_eq_true, decide_eq_true_eq] at hb
  obtain ⟨j, hj, hm⟩ := hp b hb.1
  have hji : j ≠ i := by
    rintro rfl
    exact hb.2 hm
  refine ⟨j, ?_, ?_⟩
  · rw [Volume.release_used_of_ne hji]
    exact hj
  · rw [Volume.release_file_of_ne hji]
    exact hm

/-- Nobody owns the blocks that an aborted write has taken. -/
theorem Inv.noLeak_claim_iff (hi : Inv v) (hp : v.NoLeak) :
    (v.claim v.freeBlocks).NoLeak ↔ v.freeBlocks.length = 0 := by
  constructor
  · intro h
    rw [List.length_eq_zero_iff, List.eq_nil_iff_forall_not_mem]
    intro b hb
    obtain ⟨i, -, hm⟩ := h b (by simp [Volume.claim_taken, hb])
    rw [Volume.claim_file] at hm
    have := hi.taken i b hm
    rw [Volume.mem_freeBlocks.mp hb] at this
    simp at this
  · intro h
    rw [List.length_eq_zero_iff.mp h]
    exact hp

theorem Inv.noLeak_wrote_iff (hi : Inv v) (hp : v.NoLeak) {h : Fin maxOpenFiles}
    {i : Fin numInodes} {fresh : List (Fin numDataBlocks)} {b : List UInt8}
    (hroom : v.Room h i fresh b.length) :
    (v.wrote h i fresh b).NoLeak ↔ fresh = [] ∨ v.used i = true := by
  constructor
  · intro hl
    by_contra hc
    rw [not_or] at hc
    obtain ⟨c, hf⟩ := List.exists_mem_of_ne_nil _ hc.1
    obtain ⟨j, hj, hm⟩ := hl c (by simp [Volume.wrote_taken, hf])
    rw [Volume.wrote_used] at hj
    by_cases hji : j = i
    · exact hc.2 (hji ▸ hj)
    · rw [Volume.wrote_file_of_ne hji] at hm
      exact hi.notMem_fresh hroom hm hf
  · intro hc d hd
    rw [Volume.wrote_taken, Bool.or_eq_true, decide_eq_true_eq] at hd
    rw [Volume.wrote_used]
    rcases hd with hd | hd
    · obtain ⟨j, hj, hm⟩ := hp d hd
      refine ⟨j, hj, ?_⟩
      by_cases hji : j = i
      · subst hji
        rw [Volume.wrote_file_self]
        exact List.mem_append_left _ hm
      · rw [Volume.wrote_file_of_ne hji]
        exact hm
    · refine ⟨i, hc.resolve_left (List.ne_nil_of_mem hd), ?_⟩
      rw [Volume.wrote_file_self]
      exact List.mem_append_right _ hd

/-- From a volume without a leak, exactly the leaky writes lead to one with a leak. -/
theorem Effect.noLeak_iff {c : Call} {r : Ret} (he : Effect v c r v') (hi : Inv v)
    (hp : v.NoLeak) : v'.NoLeak ↔ ¬v.Leaky c := by
  cases he with
  | created hf hu => exact iff_of_true (hp.addFile (Volume.used_of_freeInode hu) _) id
  | deleted hf => exact iff_of_true (((Volume.noLeak_closeFirst _).mpr hp).release _) id
  | writeClosed hh =>
    refine iff_of_true hp ?_
    rintro ⟨j, hj, -⟩
    rw [hh] at hj
    simp at hj
  | writeTooLong hh ht =>
    refine iff_of_true hp ?_
    rintro ⟨j, -, hj, -⟩
    omega
  | writeFull hh ht hk =>
    rw [hi.noLeak_claim_iff hp]
    constructor
    · rintro h₀ ⟨j, -, -, -, hfree, -⟩
      omega
    · intro hl
      by_contra hne
      exact hl ⟨_, hh, ht, by omega, by omega, Or.inr hk⟩
  | @wrote h buf n i hh hn hb ht hk =>
    have hwrap := wrap32_top hn ht
    rw [hi.noLeak_wrote_iff hp (hi.room hn hb ht hk), List.take_eq_nil_iff]
    constructor
    · rintro hc ⟨j, hj, -, hneed, hfree, hbad⟩
      obtain rfl := Option.some.inj (hh.symm.trans hj)
      rw [hwrap] at hneed hbad
      rcases hc with (hc | hc) | hc
      · omega
      · simp [hc] at hfree
      · rcases hbad with hbad | hbad
        · simp [hc] at hbad
        · omega
    · intro hl
      by_contra hc
      rw [not_or, not_or, Bool.not_eq_true] at hc
      refine hl ⟨i, hh, ?_, ?_, List.length_pos_iff.mpr hc.1.2, Or.inl hc.2⟩
      · rw [hwrap]
        exact ht
      · rw [hwrap]
        omega
  | _ => exact iff_of_true hp id

end Leak

section Runs

variable {tr : List (Event State Call Ret)} {s : State}

/-- No block is lost along a run exactly if the run makes no leaky write; and without a lost
block all the blocks are free when no inode is in use. -/
theorem noLeak_iff_no_leakyWrite (h : AnyRun tr s) :
    ((NoLeak s ∧ ∀ e ∈ tr, NoLeak e.pre) ↔ ∀ e ∈ tr, ¬LeakyWrite e.call e.pre) ∧
      (NoLeak s → (∀ i, s.superblock.inodeFreelist i ≠ inodeInUse) →
        ∀ b, s.superblock.datablockFreelist b = dataBlockFree) := by
  constructor
  · apply h.forall_iff_good NoLeak fun c s => ¬LeakyWrite c s
    · intro label name s hr
      rw [hr.noLeak_iff (inv_formatted label name)]
      intro b hb
      simp [Volume.formatted] at hb
    · intro s v c r s' v' hr hi hr' hi' he hp
      rw [hr'.noLeak_iff hi', hr.leakyWrite_iff hi]
      exact he.noLeak_iff hi ((hr.noLeak_iff hi).mp hp)
  · obtain ⟨v, hr, hi⟩ := h.sound
    intro hp hu b
    rw [hr.dataBlockFree_iff, ← Bool.not_eq_true]
    intro hb
    obtain ⟨i, hi, -⟩ := hp b ((hr.dataBlockUsed_iff b).mpr hb)
    exact hu i hi

theorem noLeak_written :
    ∃ tr s, AnyRun tr s ∧ s.superblock.datablockFreelist 0 = dataBlockUsed ∧
      ((NoLeak s ∧ ∀ e ∈ tr, NoLeak e.pre) ↔ ∀ e ∈ tr, ¬LeakyWrite e.call e.pre) := by
  obtain ⟨tr, s, h, -, hused, -⟩ := FsRun.exists_written
  exact ⟨tr, s, h.anyRun, hused, (noLeak_iff_no_leakyWrite h.anyRun).1⟩

/-- A file is opened twice and deleted, which closes one of the two handles. A write through the
other one takes a block, though no inode is in use. -/
theorem leak_through_second_handle :
    ∃ tr s, FsRun tr s ∧ ¬NoLeak s ∧ (∀ i, s.superblock.inodeFreelist i ≠ inodeInUse) ∧
      s.superblock.datablockFreelist 0 = dataBlockUsed := by
  obtain ⟨tr, s, h, hp⟩ := FsRun.exists_of_check
    [.create nameA, .open nameA, .open nameA, .delete nameA, .write 1 [65] 1]
    (p := fun _ s => decide ((∀ i, s.superblock.inodeFreelist i ≠ inodeInUse) ∧
      s.superblock.datablockFreelist 0 = dataBlockUsed)) (by decide +kernel)
  obtain ⟨hu, hb⟩ := of_decide_eq_true hp
  refine ⟨tr, s, h, fun hl => ?_, hu, hb⟩
  obtain ⟨i, hi, -⟩ := hl 0 hb
  exact hu i hi

end Runs

end SsuOs.Ssufs
