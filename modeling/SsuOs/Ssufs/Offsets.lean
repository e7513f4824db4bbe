import SsuOs.Ssufs.Simulation

/-! What `ssufs_lseek` does on a handle that is not open, and how far the copies of `ssufs_read`
and `ssufs_write` reach. -/
namespace SsuOs.Ssufs
open Lib

section Closed

/-- The `file_size` of the inode numbered -1: the flags of the last two data blocks and the two
bytes behind the superblock. -/
def State.closedSize (s : State) : ℤ :=
  decodeInt [s.superblock.datablockFreelist 28, s.superblock.datablockFreelist 29,
    s.image.getD 46 0, s.image.getD 47 0]

/-- A read, write or seek on a handle that is not open returns -1 and changes nothing. -/
def ClosedFails (c : Call) (s : State) : Prop :=
  match c with
  | .read h _ => (s.handle h).inodeNumber = -1 → exec c s = .ok (.data (-1) [], s)
  | .write h _ _ => (s.handle h).inodeNumber = -1 → exec c s = .ok (.int (-1), s)
  | .lseek h _ => (s.handle h).inodeNumber = -1 → exec c s = .ok (.int (-1), s)
  | _ => True

/-- A seek on a handle that is not open ends inside the inode numbered -1. -/
def SeekPasses (c : Call) (s : State) : Prop :=
  match c with
  | .lseek h d =>
    (s.handle h).inodeNumber = -1 ∧ 0 ≤ wrap32 ((s.handle h).offset + d) ∧
      wrap32 ((s.handle h).offset + d) ≤ s.closedSize
  | _ => False

theorem getD_drop_region (l : List UInt8) (off : ℕ) {n m k : ℕ} (h : m + k < n) :
    ((region l off n).drop m).getD k 0 = l.getD (off + (m + k)) 0 := by
  rw [List.getD_eq_getElem?_getD, List.getElem?_drop, ← List.getD_eq_getElem?_getD, getD_region,
    if_pos h]

theorem datablockFreelist_eq (s : State) (b : Fin numDataBlocks) :
    s.superblock.datablockFreelist b = s.image.getD (16 + b) 0 := by
  have hb := b.isLt
  have hhead : ∀ l : List UInt8, l.headD 0 = l.getD 0 0 := by
    intro l
    cases l <;> rfl
  have hdrop := getD_drop_region s.image 0 (n := blockSize) (m := 16 + b) (k := 0)
    (by unfold blockSize numDataBlocks at *; omega)
  change ((((region s.image 0 blockSize).drop 8).drop 8).drop (b * 1)).headD 0 = _
  rw [hhead, List.drop_drop, List.drop_drop, Nat.mul_one, ← Nat.add_assoc, hdrop, Nat.zero_add,
    Nat.add_zero]

theorem fileSize_decode_region (s : State) :
    (inodeLayout.decode (region s.image 32 inodeLayout.size)).fileSize = s.closedSize := by
  change decodeInt (((region s.image 32 32).drop 4).drop 8) = _
  rw [List.drop_drop]
  unfold State.closedSize decodeInt
  rw [datablockFreelist_eq, datablockFreelist_eq]
  rw [getD_drop_region _ _ (by omega), getD_drop_region _ _ (by omega),
    getD_drop_region _ _ (by omega), getD_drop_region _ _ (by omega)]
  rfl

theorem ssufsLseek_closed_eq {s : State} {h : Fin maxOpenFiles} (hs : blockSize ≤ s.image.length)
    (hh : (s.handle h).inodeNumber = -1) (d : ℤ) :
    ssufsLseek h d s =
      if 0 ≤ wrap32 ((s.handle h).offset + d) ∧ wrap32 ((s.handle h).offset + d) ≤ s.closedSize then
        .ok (0, s.setHandle h { s.handle h with offset := wrap32 ((s.handle h).offset + d) })
      else .ok (-1, s) := by
  unfold ssufsLseek
  rw [hh, readInode_neg_one hs, ok_bind]
  dsimp only
  rw [fileSize_decode_region]
  split_ifs
  · omega
  · rfl
  · rfl
  · omega

theorem Sound.image_length {s : State} (h : Sound s) : blockSize ≤ s.image.length := by
  obtain ⟨v, hr, hi⟩ := h
  have hext := hi.extent_ge
  rw [hr.extent]
  unfold blockSize at *
  omega

theorem Sound.closedFails_iff {s : State} (hs : Sound s) (c : Call) :
    ClosedFails c s ↔ ¬SeekPasses c s := by
  cases c with
  | read h n =>
    refine iff_of_true (fun hh => ?_) id
    rw [exec, ssufsRead, if_pos (by omega), map_ok]
  | write h buf n =>
    refine iff_of_true (fun hh => ?_) id
    rw [exec, ssufsWrite, if_pos (Or.inl (by omega)), map_ok]
  | lseek h d =>
    unfold ClosedFails SeekPasses
    dsimp only
    rw [not_and]
    refine imp_congr_right fun hh => ?_
    rw [exec, ssufsLseek_closed_eq hs.image_length hh]
    split_ifs with hp
    · simp [hp]
    · simp [hp]
  | _ => exact iff_of_true trivial id

/-- A handle that is not open has the offset 0. -/
def Volume.ClosedAtStart (v : Volume) : Prop :=
  ∀ h, (v.handle h).file = none → (v.handle h).offset = 0

section Step

variable {v v' : Volume}

theorem Volume.ClosedAtStart.setHandle (hp : v.ClosedAtStart) {h : Fin maxOpenFiles} {e : Handle}
    (he : e.file = none → e.offset = 0) : (v.setHandle h e).ClosedAtStart := by
  intro k hk
  by_cases hkh : k = h
  · subst hkh
    simp only [Volume.setHandle, Function.update_self] at hk ⊢
    exact he hk
  · simp only [Volume.setHandle, Function.update_of_ne hkh] at hk ⊢
    exact hp k hk

theorem Volume.ClosedAtStart.closeFirst (hp : v.ClosedAtStart) (i : Fin numInodes) :
    (v.closeFirst i).ClosedAtStart := by
  rcases v.closeFirst_cases i with ⟨-, hc⟩ | ⟨h, -, hc⟩
  · rwa [hc]
  · rw [hc]
    exact hp.setHandle fun _ => rfl

theorem Effect.closedAtStart {c : Call} {r : Ret} (he : Effect v c r v') (hp : v.ClosedAtStart)
    (hseek : ∀ h d, c = .lseek h d → (v.handle h).file = none → r = .int (-1)) :
    v'.ClosedAtStart := by
  cases he with
  | created hf hu => exact hp
  | deleted hf => exact hp.closeFirst _
  | opened hf hh => exact hp.setHandle (by simp)
  | closed h => exact hp.setHandle fun _ => rfl
  | read hh hn hs => exact hp.setHandle (by simp [hh])
  | writeFull hh ht hk => simpa [Volume.ClosedAtStart] using hp
  | @wrote h buf n i hh hn hb ht hk =>
    exact (show (v.setHandle h { v.handle h with offset := _ }).ClosedAtStart from
      hp.setHandle (by simp [hh]))
  | seek hh h₀ hs => exact hp.setHandle (by simp [hh])
  | seekClosed hh h₀ =>
    have := hseek _ _ rfl hh
    simp at this
  | _ => exact hp

end Step

section Runs

variable {tr : List (Event State Call Ret)} {s : State}

theorem AnyRun.closedAtStart (h : AnyRun tr s) (hno : ∀ e ∈ tr, ¬SeekPasses e.call e.pre) :
    ∃ v, Represents s v ∧ Inv v ∧ v.ClosedAtStart := by
  have hgood : Run exec (fun c s => ¬SeekPasses c s) Formatted tr s := Run.of_good h hno
  refine Run.invariant (I := fun s => ∃ v, Represents s v ∧ Inv v ∧ v.ClosedAtStart)
    (fun s hs => ?_) (fun s c r s' hs hc he => ?_) hgood
  · obtain ⟨label, name, hr⟩ := hs.represents
    exact ⟨_, hr, inv_formatted label name, fun _ _ => rfl⟩
  · obtain ⟨v, hr, hi, hp⟩ := hs
    obtain ⟨v', heff, hr', hi'⟩ := exec_effect hr hi he
    refine ⟨v', hr', hi', heff.closedAtStart hp ?_⟩
    rintro h d rfl hh
    have hfail := (Sound.closedFails_iff ⟨v, hr, hi⟩ _).mpr hc
      (by rw [hr.inodeNumber_handle, hh]; rfl)
    rw [he] at hfail
    exact (ok_pair_inj hfail).1

/-- A call on a handle that is not open fails unless it is a seek that passes, and as long as no
such seek is made every file is opened at its start. -/
theorem closedFails_and_open_at_start (h : AnyRun tr s) :
    (∀ c, ClosedFails c s ↔ ¬SeekPasses c s) ∧
    ((∀ e ∈ tr, ¬SeekPasses e.call e.pre) → ∀ (f : CStr) (k : Fin maxOpenFiles) (s' : State),
      ssufsOpen f s = .ok ((k : ℕ), s') → (s'.handle k).offset = 0) := by
  refine ⟨h.sound.closedFails_iff, fun hno f k s' hs => ?_⟩
  obtain ⟨v, hr, hi, hp⟩ := h.closedAtStart hno
  obtain ⟨r, s₁, v', hs₁, he, hr'⟩ := ssufsOpen_sim hr hi f
  obtain ⟨hret, rfl⟩ := ok_unique_pair hs₁ hs
  cases he with
  | openFail hf => omega
  | @opened _ i j hf hh =>
    obtain rfl : j = k := Fin.ext (by omega)
    have hstart := hp j (Volume.file_of_freeHandle hh)
    rw [hr'.offset]
    simpa [Volume.setHandle] using hstart

theorem closedFails_and_open_at_start_opened :
    ∃ tr s, AnyRun tr s ∧ (s.handle 3).inodeNumber = -1 ∧
      (∀ c, ClosedFails c s ↔ ¬SeekPasses c s) ∧
      ((∀ e ∈ tr, ¬SeekPasses e.call e.pre) → ∀ (f : CStr) (k : Fin maxOpenFiles) (s' : State),
        ssufsOpen f s = .ok ((k : ℕ), s') → (s'.handle k).offset = 0) := by
  obtain ⟨tr, s, h, -, hclosed⟩ := FsRun.exists_opened
  exact ⟨tr, s, h.anyRun, hclosed, closedFails_and_open_at_start h.anyRun⟩

/-- A seek before the first open succeeds, and the file opened then starts at its offset. -/
theorem seek_moves_next_open :
    ∃ tr s, FsRun tr s ∧
      tr.map Event.ret = [.int 0, .int 0, .int 0] ∧ s.handle 0 = ⟨100, 0⟩ := by
  obtain ⟨tr, s, h, hp⟩ := FsRun.exists_of_check [.lseek 0 100, .create nameA, .open nameA]
    (p := fun tr s => decide (tr.map Event.ret = [.int 0, .int 0, .int 0] ∧
      s.handle 0 = ⟨100, 0⟩)) (by decide +kernel)
  exact ⟨tr, s, h, of_decide_eq_true hp⟩

end Runs

end Closed

section Copy

/-- `ssufs_read` up to its `memcpy`, with the buffer that is copied from; `none` when it returns
before. -/
def readUntilCopy (fileHandle : Fin maxOpenFiles) (nbytes : ℤ) (s : State) :
    Except Fault (Option (List UInt8)) :=
  let offset := (s.handle fileHandle).offset
  let inodeNumber := (s.handle fileHandle).inodeNumber
  if inodeNumber < 0 then .ok none
  else do
    let inode ← ssufsReadInode inodeNumber s
    if inode.fileSize < wrap32 (nbytes + offset) then .ok none
    else do
      let tmpBuf ← readBlocks inode s (List.finRange maxFileSize)
        (List.replicate (blockSize * maxFileSize) 0)
      .ok (some tmpBuf)

/-- `ssufs_write` up to its `memcpy`, with the inode, the buffer that is copied to and the disk
by then; `none` when it returns before. -/
def writeUntilCopy (fileHandle : Fin maxOpenFiles) (nbytes : ℤ) (s : State) :
    Except Fault (Option (Inode × List UInt8) × State) :=
  let offset := (s.handle fileHandle).offset
  let inodeNumber := (s.handle fileHandle).inodeNumber
  let top := wrap32 (offset + nbytes)
  if inodeNumber < 0 ∨ top > (blockSize * maxFileSize : ℕ) then .ok (none, s)
  else do
    let inode ← ssufsReadInode inodeNumber s
    gatherBlocks (blocksUpTo top) (List.finRange maxFileSize) inode
      (List.replicate (blockSize * maxFileSize) 0) s

variable {s : State} {v : Volume} {h : Fin maxOpenFiles} {n : ℤ}

theorem ssufsRead_eq :
    ssufsRead h n s = readUntilCopy h n s >>= fun copied =>
      copied.elim (.ok (-1, [], s)) fun tmpBuf =>
        load tmpBuf (s.handle h).offset n >>= fun buf =>
          ssufsLseek h n s >>= fun p => .ok (0, buf, p.2) := by
  unfold ssufsRead readUntilCopy
  dsimp only
  split_ifs with hi
  · rfl
  · rw [bind_assoc]
    congr 1
    funext inode
    split_ifs
    · rfl
    · rw [bind_assoc]
      rfl

theorem ssufsWrite_eq {buf : List UInt8} :
    ssufsWrite h buf n s = writeUntilCopy h n s >>= fun copied =>
      copied.1.elim (.ok (-1, copied.2)) fun p =>
        load buf 0 n >>= fun data =>
          store p.2 (s.handle h).offset data >>= fun tmpBuf =>
            writeBack h n (wrap32 ((s.handle h).offset + n)) (s.handle h).inodeNumber p.1 tmpBuf
              copied.2 := by
  unfold ssufsWrite writeUntilCopy
  dsimp only
  split_ifs with hi
  · rfl
  · rw [bind_assoc]
    congr 1
    funext inode
    congr 1
    funext p
    rcases p with ⟨_ | ⟨x, l⟩, s'⟩
    · rfl
    · rfl

/-- The copy of `ssufs_read` stays in its buffer and in the file. -/
def ReadInside (h : Fin maxOpenFiles) (n : ℤ) (s : State) : Prop :=
  0 ≤ n ∧ 0 ≤ (s.handle h).offset ∧ (s.handle h).offset + n ≤ (blockSize * maxFileSize : ℕ) ∧
    ∀ i : Fin numInodes, (s.handle h).inodeNumber = (i : ℕ) →
      (s.handle h).offset + n ≤ (s.inode i).fileSize

/-- The copy of `ssufs_write` stays in its buffer. -/
def WriteInside (h : Fin maxOpenFiles) (n : ℤ) (s : State) : Prop :=
  0 ≤ n ∧ 0 ≤ (s.handle h).offset ∧ (s.handle h).offset + n ≤ (blockSize * maxFileSize : ℕ)

theorem Represents.size_of_readUntilCopy (hr : Represents s v) (hi : Inv v) {tmpBuf : List UInt8}
    (hc : readUntilCopy h n s = .ok (some tmpBuf)) :
    ∃ i, (v.handle h).file = some i ∧ wrap32 (n + (v.handle h).offset) ≤ (v.file i).size := by
  unfold readUntilCopy at hc
  dsimp only at hc
  rw [hr.inodeNumber_handle, hr.offset] at hc
  cases hh : (v.handle h).file with
  | none =>
    rw [hh, if_pos (by decide)] at hc
    simp at hc
  | some i =>
    have hnum : ¬inodeNumber (some i) < 0 := by
      have := inodeNumber_nonneg i
      omega
    rw [hh, if_neg hnum, show inodeNumber (some i) = ((i : ℕ) : ℤ) from rfl,
      hr.readInode hi.extent_ge, ok_bind] at hc
    refine ⟨i, rfl, not_lt.mp fun hlt => ?_⟩
    change (v.file i).toInode.fileSize < _ at hlt
    rw [if_pos hlt] at hc
    simp at hc

theorem top_of_writeUntilCopy {p : Inode × List UInt8} {s' : State}
    (hc : writeUntilCopy h n s = .ok (some p, s')) :
    wrap32 ((s.handle h).offset + n) ≤ (blockSize * maxFileSize : ℕ) := by
  unfold writeUntilCopy at hc
  dsimp only at hc
  split_ifs at hc with hcond
  · simp at hc
  · exact not_lt.mp fun hlt => hcond (Or.inr hlt)

theorem ret_of_readUntilCopy {tmpBuf buf : List UInt8} {r : ℤ} {s' : State}
    (hc : readUntilCopy h n s = .ok (some tmpBuf)) (hs : ssufsRead h n s = .ok (r, buf, s')) :
    r = 0 := by
  rw [ssufsRead_eq, hc, ok_bind] at hs
  obtain ⟨buf', -, hs⟩ := bind_eq_ok.mp hs
  obtain ⟨p, -, hs⟩ := bind_eq_ok.mp hs
  exact (ok_pair_inj hs).1.symm

theorem ret_of_writeUntilCopy {p : Inode × List UInt8} {buf : List UInt8} {r : ℤ}
    {s₁ s' : State} (hc : writeUntilCopy h n s = .ok (some p, s₁))
    (hs : ssufsWrite h buf n s = .ok (r, s')) : r = 0 := by
  rw [ssufsWrite_eq, hc, ok_bind] at hs
  obtain ⟨data, -, hs⟩ := bind_eq_ok.mp hs
  obtain ⟨tmpBuf, -, hs⟩ := bind_eq_ok.mp hs
  unfold writeBack at hs
  obtain ⟨s₂, -, hs⟩ := bind_eq_ok.mp hs
  obtain ⟨s₃, -, hs⟩ := bind_eq_ok.mp hs
  obtain ⟨q, -, hs⟩ := bind_eq_ok.mp hs
  exact (ok_pair_inj hs).1.symm

theorem Represents.readInside_iff (hr : Represents s v) (hi : Inv v) {tmpBuf : List UInt8}
    (hc : readUntilCopy h n s = .ok (some tmpBuf)) :
    ReadInside h n s ↔ 0 ≤ n ∧ (s.handle h).offset + n ≤ intMax := by
  have hoff := hr.offset h
  have hmax : ((blockSize * maxFileSize : ℕ) : ℤ) ≤ intMax := by decide
  obtain ⟨i, hh, hle⟩ := hr.size_of_readUntilCopy hi hc
  have hsize := hi.size_le_max i
  constructor
  · rintro ⟨hn, -, htop, -⟩
    exact ⟨hn, htop.trans hmax⟩
  · rintro ⟨hn, htop⟩
    rw [← hoff, Int.add_comm, wrap32_eq ⟨by unfold intMin; omega, htop⟩] at hle
    refine ⟨hn, by omega, by omega, fun j hj => ?_⟩
    obtain rfl := Option.some.inj (hh.symm.trans ((hr.inodeNumber_eq_iff h j).mp hj))
    rw [hr.fileSize_eq]
    exact hle

theorem Represents.writeInside_iff (hr : Represents s v) {p : Inode × List UInt8} {s' : State}
    (hc : writeUntilCopy h n s = .ok (some p, s')) :
    WriteInside h n s ↔ 0 ≤ n ∧ (s.handle h).offset + n ≤ intMax := by
  have hoff := hr.offset h
  have hmax : ((blockSize * maxFileSize : ℕ) : ℤ) ≤ intMax := by decide
  have hle := top_of_writeUntilCopy hc
  constructor
  · rintro ⟨hn, -, htop⟩
    exact ⟨hn, htop.trans hmax⟩
  · rintro ⟨hn, htop⟩
    rw [wrap32_eq ⟨by unfold intMin; omega, htop⟩] at hle
    exact ⟨hn, by omega, hle⟩

/-- A copy that is reached and leaves its bounds is the fault. -/
theorem Represents.read_fault (hr : Represents s v) (hi : Inv v) {tmpBuf : List UInt8}
    (hc : readUntilCopy h n s = .ok (some tmpBuf))
    (hout : ¬(0 ≤ n ∧ (s.handle h).offset + n ≤ intMax)) :
    ssufsRead h n s = .error .outOfBounds := by
  rcases ssufsRead_sim hr hi h n with ⟨-, hs⟩ | ⟨r, buf, s', v', hs, he, -⟩
  · exact hs
  · obtain rfl := ret_of_readUntilCopy hc hs
    cases he with
    | @read _ _ i hh hn hle =>
      have hsize := hi.size_le_max i
      rw [hr.offset] at hout
      unfold intMax blockSize maxFileSize at *
      omega

theorem Represents.write_fault (hr : Represents s v) (hi : Inv v) {p : Inode × List UInt8}
    {s₁ : State} (hc : writeUntilCopy h n s = .ok (some p, s₁))
    (hout : ¬(0 ≤ n ∧ (s.handle h).offset + n ≤ intMax)) (buf : List UInt8) :
    ssufsWrite h buf n s = .error .outOfBounds := by
  rcases ssufsWrite_sim hr hi h buf n with ⟨-, hs⟩ | ⟨r, s', v', hs, he, -⟩
  · exact hs
  · obtain rfl := ret_of_writeUntilCopy hc hs
    cases he with
    | wrote hh hn hb ht hk =>
      rw [hr.offset] at hout
      unfold intMax blockSize maxFileSize at *
      omega

/-- A copy that is reached stays inside exactly if `nbytes` is not negative and the end of the
transfer is an `int`; otherwise it leaves the buffer. -/
theorem copies_inside_iff {tr : List (Event State Call Ret)} (hrun : AnyRun tr s)
    (h : Fin maxOpenFiles) (n : ℤ) :
    (∀ tmpBuf, readUntilCopy h n s = .ok (some tmpBuf) →
      (ReadInside h n s ↔ 0 ≤ n ∧ (s.handle h).offset + n ≤ intMax) ∧
      (¬ReadInside h n s → ssufsRead h n s = .error .outOfBounds)) ∧
    (∀ p s', writeUntilCopy h n s = .ok (some p, s') →
      (WriteInside h n s ↔ 0 ≤ n ∧ (s.handle h).offset + n ≤ intMax) ∧
      (¬WriteInside h n s → ∀ buf, ssufsWrite h buf n s = .error .outOfBounds)) := by
  obtain ⟨v, hr, hi⟩ := hrun.sound
  constructor
  · intro tmpBuf hc
    have hiff := hr.readInside_iff hi hc
    exact ⟨hiff, fun hout => hr.read_fault hi hc (hiff.not.mp hout)⟩
  · intro p s' hc
    have hiff := hr.writeInside_iff hc
    exact ⟨hiff, fun hout => hr.write_fault hi hc (hiff.not.mp hout)⟩

/-- Two of the three bytes of a file are read. -/
theorem copies_inside_written :
    ∃ tr s tmpBuf, AnyRun tr s ∧ readUntilCopy 0 2 s = .ok (some tmpBuf) ∧
      (ReadInside 0 2 s ↔ (0 : ℤ) ≤ 2 ∧ (s.handle 0).offset + 2 ≤ intMax) := by
  obtain ⟨tr, s, h, hp⟩ := FsRun.exists_of_check
    [.create nameA, .open nameA, .write 0 [65, 66, 67] 3, .lseek 0 (-3)]
    (p := fun _ s => decide (readUntilCopy 0 2 s = .ok (some
      ([65, 66, 67] ++ List.replicate 253 0)))) (by decide +kernel)
  have hc := of_decide_eq_true hp
  exact ⟨tr, s, _, h.anyRun, hc, ((copies_inside_iff h.anyRun 0 2).1 _ hc).1⟩

/-- Both checks let a negative `nbytes` through to the copy. -/
theorem negative_nbytes_copied :
    ∃ tr s tmpBuf p s', FsRun tr s ∧ readUntilCopy 0 (-1) s = .ok (some tmpBuf) ∧
      writeUntilCopy 0 (-1) s = .ok (some p, s') ∧ ¬ReadInside 0 (-1) s ∧
      ¬WriteInside 0 (-1) s := by
  obtain ⟨tr, s, h, hp⟩ := FsRun.exists_of_check [.create nameA, .open nameA]
    (p := fun _ s => decide (readUntilCopy 0 (-1) s = .ok (some (List.replicate 256 0)) ∧
      (writeUntilCopy 0 (-1) s).map (fun q => q.1.isSome) = .ok true)) (by decide +kernel)
  obtain ⟨hread, hwrite⟩ := of_decide_eq_true hp
  obtain ⟨⟨q, s'⟩, hq, hsome⟩ := map_eq_ok.mp hwrite
  obtain ⟨p, rfl⟩ := Option.isSome_iff_exists.mp hsome
  exact ⟨tr, s, _, p, s', h, hread, hq, fun hin => absurd hin.1 (by decide),
    fun hin => absurd hin.1 (by decide)⟩

end Copy

end SsuOs.Ssufs
