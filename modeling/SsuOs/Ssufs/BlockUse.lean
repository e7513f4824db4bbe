import SsuOs.Ssufs.Ownership

/-! Which blocks `ssufs_delete` gives back, and how many blocks a file has. -/
namespace SsuOs.Ssufs
open Lib

section Delete

/-- From `s` to `s'` the inode `i` is freed with the blocks it lists, and nothing else on the disk
changes. -/
structure FreesExactly (i : Fin numInodes) (s s' : State) : Prop where
  inodeFreelist : s'.superblock.inodeFreelist =
    Function.update s.superblock.inodeFreelist i inodeFree
  status : (s'.inode i).status = inodeFree.toNat
  fileSize : (s'.inode i).fileSize = 0
  directBlocks : ∀ j, (s'.inode i).directBlocks j = -1
  freed : ∀ b : Fin numDataBlocks, (∃ j, (s.inode i).directBlocks j = (b : ℕ)) →
    s.superblock.datablockFreelist b = dataBlockUsed ∧
      s'.superblock.datablockFreelist b = dataBlockFree
  kept : ∀ b : Fin numDataBlocks, (¬∃ j, (s.inode i).directBlocks j = (b : ℕ)) →
    s'.superblock.datablockFreelist b = s.superblock.datablockFreelist b
  inode : ∀ j ≠ i, s'.inode j = s.inode j
  block : ∀ b, s'.block b = s.block b

variable {s s' : State} {v : Volume} {i : Fin numInodes}

theorem Represents.freesExactly (hr : Represents s v) (hi : Inv v)
    (hr' : Represents s' ((v.closeFirst i).release i)) : FreesExactly i s s' := by
  have hself : s'.inode i =
      ({ v.file i with busy := false, size := 0, blocks := [] } : File).toInode := by
    rw [hr'.inode, Volume.release_file_self, Volume.closeFirst_file]
  have htaken : ∀ b, ((v.closeFirst i).release i).taken b =
      (v.taken b && decide (b ∉ (v.file i).blocks)) := by
    intro b
    rw [Volume.release, Volume.closeFirst_file, Volume.closeFirst_taken]
  constructor
  · funext j
    rw [hr'.superblock, hr.superblock]
    by_cases hj : j = i
    · subst hj
      simp [Volume.superblock]
    · simp [Volume.superblock, hj, Volume.release_used_of_ne]
  · rw [hself]
    rfl
  · rw [hself]
    rfl
  · intro j
    rw [hself]
    rfl
  · intro b hb
    rw [hr.exists_directBlocks_iff hi] at hb
    rw [hr.dataBlockUsed_iff, hr'.dataBlockFree_iff, htaken]
    exact ⟨hi.taken i b hb, by simp [hb]⟩
  · intro b hb
    rw [hr.exists_directBlocks_iff hi] at hb
    rw [hr'.superblock, hr.superblock]
    simp [Volume.superblock, htaken, hb]
  · intro j hj
    rw [hr'.inode, hr.inode, Volume.release_file_of_ne hj, Volume.closeFirst_file]
  · intro b
    rw [hr'.block, hr.block, Volume.release, Volume.closeFirst_data]

/-- Every name is looked up to -1 or to an inode, and accordingly nothing or that inode and its
blocks are freed. -/
theorem delete_frees_exactly {tr : List (Event State Call Ret)} (h : AnyRun tr s) (f : CStr) :
    (∀ r : ℤ, openNamei f s = .ok r → 0 ≤ r →
      ∃ (i : Fin numInodes) (s' : State), r = (i : ℕ) ∧ ssufsDelete f s = .ok s' ∧
        FreesExactly i s s') ∧
    (openNamei f s = .ok (-1) → ssufsDelete f s = .ok s) := by
  obtain ⟨v, hr, hi⟩ := h.sound
  constructor
  · intro r hlook hr₀
    rw [openNamei_eq hr hi.extent_ge] at hlook
    obtain ⟨s', v', hs', he, hr'⟩ := ssufsDelete_sim hr hi f
    cases he with
    | deleteMiss hf =>
      rw [hf] at hlook
      obtain rfl := Except.ok.inj hlook
      exact absurd hr₀ (by decide)
    | @deleted _ i hf =>
      rw [hf] at hlook
      exact ⟨i, s', (Except.ok.inj hlook).symm, hs', hr.freesExactly hi hr'⟩
  · intro hlook
    rw [ssufsDelete, hlook, ok_bind, if_pos (by decide)]

theorem delete_frees_exactly_written :
    ∃ tr s s', AnyRun tr s ∧ openNamei nameA s = .ok 0 ∧
      s.superblock.datablockFreelist 0 = dataBlockUsed ∧ ssufsDelete nameA s = .ok s' ∧
      FreesExactly 0 s s' := by
  obtain ⟨tr, s, h, -, hused, hlook⟩ := FsRun.exists_written
  obtain ⟨i, s', hi, hs', hfree⟩ := (delete_frees_exactly h.anyRun nameA).1 0 hlook le_rfl
  obtain rfl : i = 0 := Fin.ext (by simpa using hi.symm)
  exact ⟨tr, s, s', h.anyRun, hlook, hused, hs', hfree⟩

end Delete

section Count

/-- Every inode in use lists as many blocks as its bytes fill, the last one in part. -/
def TightBlocks (s : State) : Prop :=
  ∀ i, s.superblock.inodeFreelist i = inodeInUse →
    ((s.inode i).blockCount : ℤ) = ((s.inode i).fileSize + 63) / blockSize

/-- Nothing is written at the start of an empty file while a block is free. -/
def EmptyWrite (c : Call) (s : State) : Prop :=
  match c with
  | .write h _ n =>
    ∃ i : Fin numInodes, (s.handle h).inodeNumber = (i : ℕ) ∧
      s.superblock.inodeFreelist i = inodeInUse ∧ (s.handle h).offset = 0 ∧ n = 0 ∧
      (s.inode i).fileSize = 0 ∧ 0 < s.superblock.freeCount
  | _ => False

def File.Tight (x : File) : Prop := x.blocks.length = (x.size + 63) / blockSize

def Volume.Tight (v : Volume) : Prop := ∀ i, v.used i = true → (v.file i).Tight

/-- The same, said of the volume. -/
def Volume.EmptyWrite (v : Volume) (c : Call) : Prop :=
  match c with
  | .write h _ n =>
    ∃ i, (v.handle h).file = some i ∧ v.used i = true ∧ (v.handle h).offset = 0 ∧ n = 0 ∧
      (v.file i).size = 0 ∧ 0 < v.freeBlocks.length
  | _ => False

variable {s : State} {v v' : Volume}

theorem Represents.tightBlocks_iff (hr : Represents s v) (hi : Inv v) :
    TightBlocks s ↔ v.Tight := by
  unfold TightBlocks Volume.Tight File.Tight
  refine forall_congr' fun i => ?_
  rw [hr.inodeInUse_iff, hr.blockCount_eq hi, hr.fileSize_eq]
  unfold blockSize
  exact imp_congr_right fun _ => by omega

theorem Represents.emptyWrite_iff (hr : Represents s v) (c : Call) :
    EmptyWrite c s ↔ v.EmptyWrite c := by
  cases c with
  | write h buf n =>
    unfold EmptyWrite Volume.EmptyWrite
    dsimp only
    rw [hr.offset, hr.freeCount_eq]
    refine exists_congr fun i => ?_
    rw [hr.inodeNumber_eq_iff, hr.inodeInUse_iff, hr.fileSize_eq, Int.natCast_eq_zero,
      Int.natCast_eq_zero]
  | _ => exact Iff.rfl

theorem File.tight_grow_iff {x : File} {fresh : List (Fin numDataBlocks)} {o n : ℕ}
    (hx : x.Tight) (hmax : o + n ≤ blockSize * maxFileSize)
    (hfresh : fresh.length = Volume.blocksNeeded x (o + n)) :
    (x.grow fresh (o + n)).Tight ↔ ¬(o = 0 ∧ n = 0 ∧ x.size = 0) := by
  have hpos : 0 ≤ (o + n : ℤ) := by omega
  have hup := blocksUpTo_eq hpos (by omega)
  unfold File.Tight at *
  unfold Volume.blocksNeeded at hfresh
  rw [hup] at hfresh
  simp only [File.grow, List.length_append]
  unfold blockSize maxFileSize at *
  split_ifs at hfresh with h₀
  · omega
  · omega

theorem Volume.Tight.addFile (hp : v.Tight) (i : Fin numInodes) (f : CStr) :
    (v.addFile i f).Tight := by
  intro j hj
  by_cases hji : j = i
  · subst hji
    rw [Volume.addFile_file_self]
    change 0 = (0 + 63) / blockSize
    rfl
  · rw [Volume.addFile_used_of_ne hji] at hj
    rw [Volume.addFile_file_of_ne hji]
    exact hp j hj

theorem Volume.Tight.release (hp : v.Tight) (i : Fin numInodes) : (v.release i).Tight := by
  intro j hj
  have hji : j ≠ i := by
    rintro rfl
    simp at hj
  rw [Volume.release_used_of_ne hji] at hj
  rw [Volume.release_file_of_ne hji]
  exact hp j hj

theorem Volume.tight_wrote_iff (hp : v.Tight) {h : Fin maxOpenFiles} {i : Fin numInodes}
    {fresh : List (Fin numDataBlocks)} {b : List UInt8} :
    (v.wrote h i fresh b).Tight ↔
      (v.used i = true → ((v.file i).grow fresh ((v.handle h).offset + b.length)).Tight) := by
  constructor
  · intro ht hu
    have := ht i (by rwa [Volume.wrote_used])
    rwa [Volume.wrote_file_self] at this
  · intro ht j hj
    rw [Volume.wrote_used] at hj
    by_cases hji : j = i
    · subst hji
      rw [Volume.wrote_file_self]
      exact ht hj
    · rw [Volume.wrote_file_of_ne hji]
      exact hp j hj

/-- From a volume with no block too many, exactly the empty writes lead to one with. -/
theorem Effect.tight_iff {c : Call} {r : Ret} (he : Effect v c r v') (hp : v.Tight) :
    v'.Tight ↔ ¬v.EmptyWrite c := by
  cases he with
  | created hf hu => exact iff_of_true (hp.addFile _ _) id
  | @deleted _ i hf =>
    have hclose : (v.closeFirst i).Tight := by
      unfold Volume.Tight
      rwa [Volume.closeFirst_used, Volume.closeFirst_file]
    exact iff_of_true (hclose.release _) id
  | writeClosed hh =>
    refine iff_of_true hp ?_
    rintro ⟨j, hj, -⟩
    rw [hh] at hj
    simp at hj
  | writeTooLong hh ht =>
    refine iff_of_true hp ?_
    rintro ⟨j, -, -, ho, rfl, -⟩
    rw [ho] at ht
    exact absurd ht (by decide)
  | writeFull hh ht hk =>
    refine iff_of_true (by simpa [Volume.Tight] using hp) ?_
    rintro ⟨j, hj, -, ho, rfl, -, hfree⟩
    obtain rfl := Option.some.inj (hh.symm.trans hj)
    have hone : (blocksUpTo (wrap32 ((0 : ℕ) + 0))).toNat = 1 := by decide
    rw [ho, Volume.blocksNeeded, hone] at hk
    omega
  | @wrote h buf n i hh hn hb ht hk =>
    obtain ⟨n, rfl⟩ := Int.eq_ofNat_of_zero_le hn
    have hlen : (buf.take n).length = n := by
      rw [List.length_take]
      omega
    have hfresh : (v.freeBlocks.take (Volume.blocksNeeded (v.file i)
        ((v.handle h).offset + n))).length =
        Volume.blocksNeeded (v.file i) ((v.handle h).offset + n) := by
      rw [List.length_take]
      exact min_eq_left hk
    rw [Int.toNat_natCast, Volume.tight_wrote_iff hp, hlen]
    constructor
    · rintro hgrow ⟨j, hj, hu, ho, hn₀, hsize, -⟩
      obtain rfl := Option.some.inj (hh.symm.trans hj)
      exact (File.tight_grow_iff (hp i hu) (by omega) hfresh).mp (hgrow hu)
        ⟨ho, by omega, hsize⟩
    · intro hno hu
      refine (File.tight_grow_iff (hp i hu) (by omega) hfresh).mpr ?_
      rintro ⟨ho, rfl, hsize⟩
      refine hno ⟨i, hh, hu, ho, rfl, hsize, ?_⟩
      -- an empty file has no block yet, so the write has found one
      have hblocks : (v.file i).blocks.length = 0 := by
        have htight := hp i hu
        rw [File.Tight, hsize] at htight
        exact htight
      have hone : (blocksUpTo ((0 : ℕ) + (0 : ℕ))).toNat = 1 := by decide
      rw [ho, Volume.blocksNeeded, hblocks, hone] at hk
      exact hk
  | _ => exact iff_of_true hp id

/-- The files have no block too many or too few all along a run exactly if the run writes nothing
at the start of an empty file. -/
theorem tightBlocks_iff_no_emptyWrite {tr : List (Event State Call Ret)} (h : AnyRun tr s) :
    (TightBlocks s ∧ ∀ e ∈ tr, TightBlocks e.pre) ↔ ∀ e ∈ tr, ¬EmptyWrite e.call e.pre := by
  apply h.forall_iff_good TightBlocks fun c s => ¬EmptyWrite c s
  · intro label name s hr
    rw [hr.tightBlocks_iff (inv_formatted label name)]
    intro i hi
    simp [Volume.formatted] at hi
  · intro s v c r s' v' hr hi hr' hi' he hp
    rw [hr'.tightBlocks_iff hi', hr.emptyWrite_iff]
    exact he.tight_iff ((hr.tightBlocks_iff hi).mp hp)

theorem tightBlocks_written :
    ∃ tr s, AnyRun tr s ∧ (s.inode 0).fileSize = 3 ∧
      ((TightBlocks s ∧ ∀ e ∈ tr, TightBlocks e.pre) ↔ ∀ e ∈ tr, ¬EmptyWrite e.call e.pre) := by
  obtain ⟨tr, s, h, hsize, -⟩ := FsRun.exists_written
  exact ⟨tr, s, h.anyRun, hsize, tightBlocks_iff_no_emptyWrite h.anyRun⟩

/-- The file is empty and has a block. -/
theorem emptyWrite_takes_block :
    ∃ tr s, FsRun tr s ∧ ¬TightBlocks s ∧ (s.inode 0).fileSize = 0 ∧
      (s.inode 0).blockCount = 1 := by
  obtain ⟨tr, s, h, hp⟩ := FsRun.exists_of_check [.create nameA, .open nameA, .write 0 [] 0]
    (p := fun _ s => decide (s.superblock.inodeFreelist 0 = inodeInUse ∧
      (s.inode 0).fileSize = 0 ∧ (s.inode 0).blockCount = 1)) (by decide +kernel)
  obtain ⟨hu, hsize, hcount⟩ := of_decide_eq_true hp
  refine ⟨tr, s, h, fun ht => ?_, hsize, hcount⟩
  have := ht 0 hu
  rw [hsize, hcount] at this
  exact absurd this (by decide)

end Count

end SsuOs.Ssufs
