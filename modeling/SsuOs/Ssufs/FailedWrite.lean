import SsuOs.Ssufs.Ownership

/-! What a failed `ssufs_write` leaves behind. -/
namespace SsuOs.Ssufs
open Lib

/-- The freelists, the inodes and the array of open files are the same. -/
structure Unchanged (s s' : State) : Prop where
  inodeFreelist : s'.superblock.inodeFreelist = s.superblock.inodeFreelist
  datablockFreelist : s'.superblock.datablockFreelist = s.superblock.datablockFreelist
  inode : ∀ i, s'.inode i = s.inode i
  handle : s'.handle = s.handle

/-- The write gets to its allocation loop and finds some of the blocks it asks for, but not all. -/
def StopsHalfway (h : Fin maxOpenFiles) (n : ℤ) (s : State) : Prop :=
  let top := wrap32 ((s.handle h).offset + n)
  ∃ i : Fin numInodes, (s.handle h).inodeNumber = (i : ℕ) ∧
    top ≤ (blockSize * maxFileSize : ℕ) ∧ 0 < s.superblock.freeCount ∧
    s.superblock.freeCount + (s.inode i).blockCount < min maxFileSize (blocksUpTo top).toNat

section View

variable {s s' : State} {v v' : Volume} (hr : Represents s v)
include hr

theorem Represents.unchanged (hr' : Represents s' v) : Unchanged s s' := by
  constructor
  · rw [hr'.superblock, hr.superblock]
  · rw [hr'.superblock, hr.superblock]
  · intro i
    rw [hr'.inode, hr.inode]
  · funext h
    rw [hr'.handle, hr.handle]

/-- Taking all free blocks shows in the freelist, unless there are none. -/
theorem Represents.unchanged_claim_iff (hr' : Represents s' (v.claim v.freeBlocks)) :
    Unchanged s s' ↔ v.freeBlocks.length = 0 := by
  constructor
  · intro hu
    rw [List.length_eq_zero_iff, List.eq_nil_iff_forall_not_mem]
    intro b hb
    have hfree := (hr.dataBlockFree_iff b).mpr (Volume.mem_freeBlocks.mp hb)
    rw [← hu.datablockFreelist, hr'.dataBlockFree_iff, Volume.claim_taken] at hfree
    simp [hb] at hfree
  · intro h₀
    rw [List.length_eq_zero_iff.mp h₀] at hr'
    exact hr.unchanged hr'

theorem Represents.stopsHalfway_iff (hi : Inv v) (h : Fin maxOpenFiles) (n : ℤ) :
    StopsHalfway h n s ↔ ∃ i, (v.handle h).file = some i ∧
      wrap32 ((v.handle h).offset + n) ≤ (blockSize * maxFileSize : ℕ) ∧
      0 < v.freeBlocks.length ∧ v.freeBlocks.length <
        Volume.blocksNeeded (v.file i) (wrap32 ((v.handle h).offset + n)) := by
  unfold StopsHalfway Volume.blocksNeeded
  dsimp only
  rw [hr.offset, hr.freeCount_eq]
  refine exists_congr fun i => ?_
  rw [hr.inodeNumber_eq_iff, hr.blockCount_eq hi, Nat.lt_sub_iff_add_lt]

end View

section Fill

/-- Creating, opening and writing as long as it succeeds. -/
def Volume.perform (v : Volume) : Call → Option Volume
  | .create f =>
    match v.namei f, v.freeInode with
    | none, some i => some (v.addFile i f)
    | _, _ => none
  | .open f =>
    match v.namei f, v.freeHandle with
    | some i, some h => some (v.setHandle h { v.handle h with file := some i })
    | _, _ => none
  | .write h buf n =>
    match (v.handle h).file with
    | some i =>
      if 0 ≤ n ∧ n ≤ buf.length ∧ (v.handle h).offset + n ≤ (blockSize * maxFileSize : ℕ) ∧
          Volume.blocksNeeded (v.file i) ((v.handle h).offset + n) ≤ v.freeBlocks.length then
        some (v.wrote h i
          (v.freeBlocks.take (Volume.blocksNeeded (v.file i) ((v.handle h).offset + n)))
          (buf.take n.toNat))
      else none
    | none => none
  | _ => none

variable {s : State} {v v' : Volume} {tr : List (Event State Call Ret)}

theorem Effect.eq_perform {c : Call} {r : Ret} {v₁ : Volume} (he : Effect v c r v₁)
    (hp : v.perform c = some v') : v₁ = v' := by
  unfold Volume.perform at hp
  cases he with
  | createExists hf => simp [hf] at hp
  | createFull hf hu => simp [hf, hu] at hp
  | created hf hu => simpa [hf, hu] using hp
  | openFail hf =>
    rcases hf with hf | hf
    · simp [hf] at hp
    · simp [hf] at hp
  | opened hf hh => simpa [hf, hh] using hp
  | writeClosed hh => simp [hh] at hp
  | writeTooLong hh ht =>
    simp only [hh] at hp
    split_ifs at hp with hok
    rw [wrap32_top hok.1 hok.2.2.1] at ht
    omega
  | writeFull hh ht hk =>
    simp only [hh] at hp
    split_ifs at hp with hok
    rw [wrap32_top hok.1 hok.2.2.1] at hk
    omega
  | wrote hh hn hb ht hk =>
    simp only [hh] at hp
    rw [if_pos ⟨hn, hb, ht, hk⟩] at hp
    exact Option.some.inj hp
  | _ => simp at hp

theorem Represents.valid_of_perform (hr : Represents s v) {c : Call}
    (hp : v.perform c = some v') : Valid c s := by
  cases c with
  | write h buf n =>
    simp only [Volume.perform] at hp
    split at hp
    · split_ifs at hp with hok
      obtain ⟨hn, hb, ht, -⟩ := hok
      refine ⟨hn, hb, ?_⟩
      rw [hr.offset]
      unfold InInt intMin intMax
      unfold blockSize maxFileSize at ht
      omega
    · simp at hp
  | read h n => simp [Volume.perform] at hp
  | lseek h d => simp [Volume.perform] at hp
  | _ => trivial

/-- What can be performed on the volume has a run on the disk. -/
theorem FsRun.performAll (hrun : FsRun tr s) (hr : Represents s v) (hi : Inv v) {cs : List Call}
    (hp : cs.foldlM Volume.perform v = some v') :
    ∃ tr' s', FsRun tr' s' ∧ Represents s' v' ∧ Inv v' := by
  induction cs generalizing tr s v with
  | nil =>
    obtain rfl := Option.some.inj hp
    exact ⟨tr, s, hrun, hr, hi⟩
  | cons c cs ih =>
    rw [List.foldlM_cons] at hp
    obtain ⟨v₁, hv₁, hrest⟩ := Option.bind_eq_some_iff.mp hp
    have hvalid := hr.valid_of_perform hv₁
    rcases exec_sim hr hi c with ⟨hno, -⟩ | ⟨r, s₁, v₂, hrun₁, he, hr₁⟩
    · exact absurd hvalid hno
    · have hi₁ := he.inv hi
      rw [he.eq_perform hv₁] at hr₁ hi₁
      exact ih (hrun.step hvalid hrun₁) hr₁ hi₁ hrest

theorem noNul_replicate (k : ℕ) : ∀ c ∈ List.replicate k (97 : UInt8), c ≠ 0 := by
  intro c hc
  rw [List.eq_of_mem_replicate hc]
  decide

def nameAs (k : ℕ) : CStr := ⟨List.replicate k 97, noNul_replicate k, fun _ => 0⟩

def fillFile (h : Fin maxOpenFiles) : List Call :=
  [.create (nameAs (h + 1)), .open (nameAs (h + 1)), .write h (List.replicate 256 65) 256]

def sevenFiles : List Call :=
  [0, 1, 2, 3, 4, 5, 6].flatMap fillFile ++ [.create (nameAs 8), .open (nameAs 8)]

def formattedVolume : Volume :=
  .formatted formattedDisk.superblock.name (formattedDisk.inode 0).name

theorem represents_formattedVolume : Represents formattedDisk formattedVolume := by
  obtain ⟨label, name, hr⟩ := formatted_formattedDisk.represents
  have hlabel : formattedDisk.superblock.name = label := by rw [hr.superblock]; rfl
  have hname : (formattedDisk.inode 0).name = name := by rw [hr.inode]; rfl
  rw [formattedVolume, hlabel, hname]
  exact hr

theorem performAll_sevenFiles :
    ∃ v, sevenFiles.foldlM Volume.perform formattedVolume = some v ∧
      v.handle 7 = ⟨some 7, 0⟩ ∧ (v.file 7).blocks = [] ∧ v.freeBlocks.length = 2 := by
  have hcheck : (match sevenFiles.foldlM Volume.perform formattedVolume with
      | some v => decide (v.handle 7 = ⟨some 7, 0⟩ ∧ (v.file 7).blocks = [] ∧
        v.freeBlocks.length = 2)
      | none => false) = true := by decide +kernel
  split at hcheck
  · rename_i v hv
    exact ⟨v, hv, of_decide_eq_true hcheck⟩
  · simp at hcheck

end Fill

theorem Represents.exec_write_full {s : State} {v : Volume} (hr : Represents s v) (hi : Inv v)
    {h : Fin maxOpenFiles} {i : Fin numInodes} {buf : List UInt8} {n : ℤ}
    (hh : (v.handle h).file = some i) (hn : 0 ≤ n)
    (ht : (v.handle h).offset + n ≤ (blockSize * maxFileSize : ℕ))
    (hk : v.freeBlocks.length < Volume.blocksNeeded (v.file i) ((v.handle h).offset + n))
    (hvalid : Valid (.write h buf n) s) :
    ∃ s', exec (.write h buf n) s = .ok (.int (-1), s') ∧
      Represents s' (v.claim v.freeBlocks) := by
  rcases exec_sim hr hi (.write h buf n) with ⟨hno, -⟩ | ⟨r, s', v', hrun, he, hr'⟩
  · exact absurd hvalid hno
  cases he with
  | writeClosed hh' =>
    rw [hh] at hh'
    simp at hh'
  | writeTooLong _ ht' =>
    rw [wrap32_top hn ht] at ht'
    omega
  | writeFull _ _ _ => exact ⟨s', hrun, hr'⟩
  | wrote hh' _ _ _ hk' =>
    obtain rfl := Option.some.inj (hh.symm.trans hh')
    omega

theorem Volume.freeBlocks_claim (v : Volume) : (v.claim v.freeBlocks).freeBlocks = [] := by
  rw [List.eq_nil_iff_forall_not_mem]
  intro b hb
  have hfree := Volume.mem_freeBlocks.mp hb
  rw [Volume.claim_taken, Bool.or_eq_false_iff, decide_eq_false_iff_not] at hfree
  exact hfree.2 (Volume.mem_freeBlocks.mpr hfree.1)

/-- The last two free blocks are lost to a write of four. -/
theorem exists_no_block_left : ∃ tr s s' v, FsRun tr s ∧ Represents s v ∧
    v.freeBlocks.length = 2 ∧ exec (.write 7 (List.replicate 256 65) 256) s = .ok (.int (-1), s') ∧
    FsRun (⟨s, .write 7 (List.replicate 256 65) 256, .int (-1)⟩ :: tr) s' ∧
    Represents s' (v.claim v.freeBlocks) ∧ ∃ s'',
      exec (.write 7 (List.replicate 256 65) 256) s' = .ok (.int (-1), s'') := by
  obtain ⟨v, hv, hhandle, hblocks, hfree⟩ := performAll_sevenFiles
  have hstart : FsRun [] formattedDisk := .start formatted_formattedDisk
  obtain ⟨tr, s, hrun, hr, hi⟩ := hstart.performAll represents_formattedVolume
    (inv_formatted _ _) hv
  have hneed : Volume.blocksNeeded (v.file 7) ((v.handle 7).offset + 256) = 4 := by
    rw [Volume.blocksNeeded, hblocks, hhandle]
    decide
  have hvalid : ∀ t, (t.handle 7).offset = 0 → Valid (.write 7 (List.replicate 256 65) 256) t := by
    intro t ht
    refine ⟨by decide, by rw [List.length_replicate]; rfl, ?_⟩
    rw [ht]
    decide
  have hoff : (s.handle 7).offset = 0 := by rw [hr.offset, hhandle]; rfl
  obtain ⟨s', hw, hr'⟩ := hr.exec_write_full hi (i := 7) (by rw [hhandle]) (by decide)
    (by rw [hhandle]; decide) (by omega) (hvalid s hoff)
  have hi' : Inv (v.claim v.freeBlocks) :=
    hi.claim fun b hb => Volume.mem_freeBlocks.mp hb
  have hoff' : (s'.handle 7).offset = 0 := by rw [hr'.offset, Volume.claim_handle, hhandle]; rfl
  obtain ⟨s'', hw', -⟩ := hr'.exec_write_full hi' (i := 7) (by rw [Volume.claim_handle, hhandle])
    (by decide) (by rw [Volume.claim_handle, hhandle]; decide)
    (by rw [Volume.freeBlocks_claim, Volume.claim_file, Volume.claim_handle, hneed]; decide)
    (hvalid s' hoff')
  exact ⟨tr, s, s', v, hrun, hr, hfree, hw, hrun.step (hvalid s hoff) hw, hr', s'', hw'⟩

/-- A write that returns -1 changes nothing exactly if it does not stop halfway. -/
theorem failedWrite_unchanged_iff {tr : List (Event State Call Ret)} {s s' : State}
    {h : Fin maxOpenFiles} {buf : List UInt8} {n : ℤ} (hrun : AnyRun tr s)
    (hw : exec (.write h buf n) s = .ok (.int (-1), s')) :
    Unchanged s s' ↔ ¬StopsHalfway h n s := by
  obtain ⟨v, hr, hi⟩ := hrun.sound
  obtain ⟨v', he, hr', -⟩ := exec_effect hr hi hw
  rw [hr.stopsHalfway_iff hi]
  cases he with
  | writeClosed hh =>
    refine iff_of_true (hr.unchanged hr') ?_
    rintro ⟨i, hi, -⟩
    rw [hh] at hi
    simp at hi
  | writeTooLong hh ht =>
    refine iff_of_true (hr.unchanged hr') ?_
    rintro ⟨i, -, hle, -⟩
    omega
  | writeFull hh ht hk =>
    rw [hr.unchanged_claim_iff hr']
    constructor
    · rintro h₀ ⟨i, -, -, hpos, -⟩
      omega
    · intro hno
      by_contra hne
      exact hno ⟨_, hh, ht, by omega, hk⟩

/-- No block is free. -/
theorem failedWrite_unchanged_no_block : ∃ tr s s', AnyRun tr s ∧
    exec (.write 7 (List.replicate 256 65) 256) s = .ok (.int (-1), s') ∧
    s.superblock.freeCount = 0 ∧ Unchanged s s' := by
  obtain ⟨tr, s, s', v, -, -, -, -, hrun, hr', s'', hw'⟩ := exists_no_block_left
  have hzero : s'.superblock.freeCount = 0 := by
    rw [hr'.freeCount_eq, Volume.freeBlocks_claim, List.length_nil]
  refine ⟨_, s', s'', hrun.anyRun, hw', hzero,
    (failedWrite_unchanged_iff hrun.anyRun hw').mpr ?_⟩
  rintro ⟨i, -, -, hpos, -⟩
  omega

/-- Seven files have taken 28 of the 30 blocks. A write of four blocks fails and keeps the last
two. -/
theorem failedWrite_keeps_blocks :
    ∃ tr s s', FsRun tr s ∧ exec (.write 7 (List.replicate 256 65) 256) s = .ok (.int (-1), s') ∧
      ¬Unchanged s s' ∧ s.superblock.freeCount = 2 ∧ s'.superblock.freeCount = 0 := by
  obtain ⟨tr, s, s', v, hrun, hr, hfree, hw, -, hr', -⟩ := exists_no_block_left
  refine ⟨tr, s, s', hrun, hw, fun hu => ?_, ?_, ?_⟩
  · rw [hr.unchanged_claim_iff hr'] at hu
    omega
  · rw [hr.freeCount_eq, hfree]
  · rw [hr'.freeCount_eq, Volume.freeBlocks_claim, List.length_nil]

end SsuOs.Ssufs
