import SsuOs.Ssufs.Loops

/-! Every call on the disk image has the effect on the volume that `Effect` says, and a valid
call always returns. -/
namespace SsuOs.Ssufs
open Lib

section Handles

variable {s : State} {v : Volume}

theorem Represents.setHandle (hr : Represents s v) (h : Fin maxOpenFiles) (e : Handle) :
    Represents (s.setHandle h e.toFileHandle) (v.setHandle h e) := by
  refine ⟨hr.superblock, hr.inode, hr.block, hr.extent, fun k => ?_⟩
  change Function.update s.handle h _ k = (Function.update v.handle h e k).toFileHandle
  by_cases hk : k = h
  · rw [hk, Function.update_self, Function.update_self]
  · rw [Function.update_of_ne hk, Function.update_of_ne hk, hr.handle]

theorem Represents.offset (hr : Represents s v) (h : Fin maxOpenFiles) :
    (s.handle h).offset = (v.handle h).offset := by
  rw [hr.handle]
  rfl

theorem Represents.inodeNumber_handle (hr : Represents s v) (h : Fin maxOpenFiles) :
    (s.handle h).inodeNumber = inodeNumber (v.handle h).file := by
  rw [hr.handle]
  rfl

theorem Represents.inodeNumber_eq_iff (hr : Represents s v) (h : Fin maxOpenFiles)
    (i : Fin numInodes) :
    (s.handle h).inodeNumber = (i : ℕ) ↔ (v.handle h).file = some i := by
  rw [hr.inodeNumber_handle]
  exact ⟨fun h => inodeNumber_inj (y := some i) h, fun h => by rw [h]; rfl⟩

theorem Represents.allocFileHandle (hr : Represents s v) :
    ssufsAllocFileHandle s = v.freeHandle := by
  unfold ssufsAllocFileHandle Volume.freeHandle
  congr 1
  funext h
  rw [hr.inodeNumber_handle]
  exact decide_eq_decide.mpr ⟨fun h => inodeNumber_inj (y := none) h, fun h => by rw [h]; rfl⟩

end Handles

section Calls

variable {s : State} {v : Volume} (hr : Represents s v) (hi : Inv v)
include hr hi

theorem ssufsCreate_cases (f : CStr) :
    (∃ i, v.namei f = some i ∧ ssufsCreate f s = .ok (-1, s)) ∨
    (v.namei f = none ∧ v.freeInode = none ∧ ssufsCreate f s = .ok (-1, s)) ∨
    ∃ (i : Fin numInodes) (s' : State), v.namei f = none ∧ v.freeInode = some i ∧
      ssufsCreate f s = .ok ((i : ℕ), s') ∧ Represents s' (v.addFile i f) := by
  unfold ssufsCreate
  rw [openNamei_eq hr hi.extent_ge, ok_bind]
  cases hf : v.namei f with
  | some i =>
    rw [if_pos (inodeNumber_nonneg i)]
    exact Or.inl ⟨i, rfl, rfl⟩
  | none =>
    rw [if_neg (by simp [inodeNumber])]
    cases hu : v.freeInode with
    | none =>
      rw [allocInode_none hr hi.extent_ge hu, ok_bind]
      exact Or.inr (Or.inl ⟨rfl, rfl, rfl⟩)
    | some i =>
      obtain ⟨s₁, hs₁, hr₁⟩ := allocInode_some hr hi.extent_ge hu
      obtain ⟨s₂, hs₂, hr₂⟩ := hr₁.writeInode hi.extent_ge i
        (x := ⟨true, fun j => f.byte j, 0, []⟩) (Nat.zero_le _)
      refine Or.inr (Or.inr ⟨i, s₂, rfl, rfl, ?_, hr₂⟩)
      rw [hs₁, ok_bind]
      dsimp only
      rw [if_neg (by omega)]
      change (ssufsWriteInode _ (File.toInode ⟨true, fun j => f.byte j, 0, []⟩) s₁ >>= _) = _
      rw [hs₂, ok_bind]

theorem ssufsCreate_sim (f : CStr) :
    ∃ r s' v', ssufsCreate f s = .ok (r, s') ∧ Effect v (.create f) (.int r) v' ∧
      Represents s' v' := by
  rcases ssufsCreate_cases hr hi f with ⟨i, hf, he⟩ | ⟨hf, hu, he⟩ | ⟨i, s', hf, hu, he, hr'⟩
  · exact ⟨_, s, v, he, .createExists hf, hr⟩
  · exact ⟨_, s, v, he, .createFull hf hu, hr⟩
  · exact ⟨_, s', _, he, .created hf hu, hr'⟩

theorem ssufsFreeInode_sim {i : Fin numInodes} (hu : v.used i = true) :
    ∃ s', ssufsFreeInode (i : ℕ) s = .ok s' ∧ Represents s' (v.release i) := by
  have hlt := i.isLt
  have hflag : v.superblock.inodeFreelist i = inodeInUse := if_pos hu
  obtain ⟨s₁, u, t, hs₁, hr₁⟩ := freeBlocks_eq hr hi.extent_ge (hi.length_le i) (hi.nodup i)
    (Function.update v.used i false) (hi.taken i)
    { (v.file i).toInode with status := inodeFree.toNat, fileSize := 0 } (k := 0)
    (Nat.zero_add maxFileSize)
  obtain ⟨s₂, hs₂, hr₂⟩ := hr₁.writeSuperBlock hi.extent_ge (Function.update v.used i false)
    (keeping v.taken (v.file i).blocks)
  obtain ⟨s₃, hs₃, hr₃⟩ := hr₂.writeInode hi.extent_ge i
    (x := { v.file i with busy := false, size := 0, blocks := [] }) (Nat.zero_le _)
  refine ⟨s₃, ?_, hr₃⟩
  have hkeep : keeping v.taken ((v.file i).blocks.take 0) = v.taken := by
    funext b
    simp [keeping]
  have hsb : v.superblock.setInode i inodeFree = _ := setInode_superblock v i false
  rw [hkeep, Inode.cleared_zero, List.drop_zero] at hs₁
  unfold ssufsFreeInode
  rw [assert_eq (by omega), ok_bind, hr.readSuperBlock hi.extent_ge, ok_bind,
    hr.readInode hi.extent_ge, ok_bind, index_eq, ok_bind, assert_eq hflag, ok_bind, hsb]
  change (freeBlocks _ _ (Inode.withBlocks
    { (v.file i).toInode with status := inodeFree.toNat, fileSize := 0 } _) s >>= _) = _
  rw [hs₁, ok_bind]
  dsimp only
  rw [hs₂, ok_bind]
  exact hs₃

theorem ssufsDelete_sim (f : CStr) :
    ∃ s' v', ssufsDelete f s = .ok s' ∧ Effect v (.delete f) .none v' ∧ Represents s' v' := by
  unfold ssufsDelete
  rw [openNamei_eq hr hi.extent_ge, ok_bind]
  cases hf : v.namei f with
  | none =>
    rw [if_pos (by simp [inodeNumber])]
    exact ⟨s, v, rfl, .deleteMiss hf, hr⟩
  | some i =>
    have hu : v.used i = true := (Volume.of_namei hf).1
    have hpred : (fun h => decide ((s.handle h).inodeNumber = inodeNumber (some i))) =
        fun h => decide ((v.handle h).file = some i) := by
      funext h
      exact decide_eq_decide.mpr (hr.inodeNumber_eq_iff h i)
    rw [if_neg (by have := inodeNumber_nonneg i; omega)]
    dsimp only
    rw [hpred]
    cases hfirst : (List.finRange maxOpenFiles).find? (fun h => (v.handle h).file = some i) with
    | none =>
      have hclose : v.closeFirst i = v := by
        unfold Volume.closeFirst
        rw [hfirst]
      obtain ⟨s', hs', hr'⟩ := ssufsFreeInode_sim hr hi hu
      refine ⟨s', _, hs', .deleted hf, ?_⟩
      rw [hclose]
      exact hr'
    | some h =>
      have hclose : v.closeFirst i = v.setHandle h ⟨none, 0⟩ := by
        unfold Volume.closeFirst
        rw [hfirst]
      obtain ⟨s', hs', hr'⟩ := ssufsFreeInode_sim (hr.setHandle h ⟨none, 0⟩) (hi.setHandle h _) hu
      refine ⟨s', _, hs', .deleted hf, ?_⟩
      rw [hclose]
      exact hr'

theorem ssufsOpen_sim (f : CStr) :
    ∃ r s' v', ssufsOpen f s = .ok (r, s') ∧ Effect v (.open f) (.int r) v' ∧
      Represents s' v' := by
  unfold ssufsOpen
  rw [openNamei_eq hr hi.extent_ge, ok_bind, hr.allocFileHandle]
  cases hh : v.freeHandle with
  | none => exact ⟨_, s, v, rfl, .openFail (Or.inr hh), hr⟩
  | some h =>
    cases hf : v.namei f with
    | none => exact ⟨_, s, v, rfl, .openFail (Or.inl hf), hr⟩
    | some i =>
      dsimp only
      rw [if_neg (by have := inodeNumber_nonneg i; omega)]
      refine ⟨_, _, _, rfl, .opened hf hh, ?_⟩
      have := hr.setHandle h { v.handle h with file := some i }
      convert this using 2
      rw [hr.handle]
      rfl

end Calls

theorem growTo_withBlocks (x : File) (fresh : List (Fin numDataBlocks)) (top : ℕ) :
    (x.toInode.withBlocks (x.blocks ++ fresh)).growTo top = (x.grow fresh top).toInode := by
  have hsize : (x.toInode.withBlocks (x.blocks ++ fresh)).fileSize = x.size := rfl
  unfold Inode.growTo
  rw [hsize]
  split_ifs with h
  · have hmax : max x.size top = top := max_eq_right (by omega)
    simp only [File.grow, File.toInode, Inode.withBlocks, hmax]
  · have hmax : max x.size top = x.size := max_eq_left (by omega)
    simp only [File.grow, File.toInode, Inode.withBlocks, hmax]

section Transfer

variable {s : State} {v : Volume} (hr : Represents s v) (hi : Inv v)
include hr

theorem ssufsLseek_eq {h : Fin maxOpenFiles} {x : Inode} (d : ℤ)
    (hx : ssufsReadInode (s.handle h).inodeNumber s = .ok x) :
    ((x.fileSize = -1 ∨ wrap32 ((v.handle h).offset + d) < 0 ∨
        wrap32 ((v.handle h).offset + d) > x.fileSize) ∧ ssufsLseek h d s = .ok (-1, s)) ∨
    (0 ≤ wrap32 ((v.handle h).offset + d) ∧ wrap32 ((v.handle h).offset + d) ≤ x.fileSize ∧
      ∃ s', ssufsLseek h d s = .ok (0, s') ∧ Represents s' (v.setHandle h
        { v.handle h with offset := (wrap32 ((v.handle h).offset + d)).toNat })) := by
  unfold ssufsLseek
  rw [hx, ok_bind]
  dsimp only
  rw [hr.offset]
  split_ifs with hc
  · exact Or.inl ⟨hc, rfl⟩
  · rw [not_or, not_or, not_lt, not_lt] at hc
    refine Or.inr ⟨hc.2.1, hc.2.2, _, rfl, ?_⟩
    have := hr.setHandle h
      { v.handle h with offset := (wrap32 ((v.handle h).offset + d)).toNat }
    convert this using 2
    simp only [Handle.toFileHandle, Int.toNat_of_nonneg hc.2.1, hr.inodeNumber_handle]

include hi

theorem ssufsLseek_open {h : Fin maxOpenFiles} {i : Fin numInodes}
    (hh : (v.handle h).file = some i) (d : ℤ) :
    ∃ r s' v', ssufsLseek h d s = .ok (r, s') ∧ Effect v (.lseek h d) (.int r) v' ∧
      Represents s' v' := by
  have hread : ssufsReadInode (s.handle h).inodeNumber s = .ok (v.file i).toInode := by
    rw [hr.inodeNumber_handle, hh]
    exact hr.readInode hi.extent_ge i
  rcases ssufsLseek_eq hr d hread with ⟨hc, hs⟩ | ⟨h₀, hle, s', hs, hr'⟩
  · refine ⟨_, s, v, hs, .seekFail hh ?_, hr⟩
    rcases hc with hc | hc
    · change ((v.file i).size : ℤ) = -1 at hc
      omega
    · exact hc
  · exact ⟨_, s', _, hs, .seek hh h₀ hle, hr'⟩

/-- On a handle that is not open, the inode numbered -1 is read. -/
theorem ssufsLseek_closed {h : Fin maxOpenFiles} (hh : (v.handle h).file = none) (d : ℤ) :
    ∃ r s' v', ssufsLseek h d s = .ok (r, s') ∧ Effect v (.lseek h d) (.int r) v' ∧
      Represents s' v' := by
  have hlen : blockSize ≤ s.image.length := by
    have hx := hi.extent_ge
    rw [hr.extent]
    omega
  have hnum : (s.handle h).inodeNumber = -1 := by
    rw [hr.inodeNumber_handle, hh]
    rfl
  have hx := readInode_neg_one hlen
  rw [← hnum] at hx
  rcases ssufsLseek_eq hr d hx with ⟨-, hs⟩ | ⟨h₀, -, s', hs, hr'⟩
  · exact ⟨_, s, v, hs, .seekClosedFail hh, hr⟩
  · exact ⟨_, s', _, hs, .seekClosed hh h₀, hr'⟩

theorem ssufsLseek_sim (h : Fin maxOpenFiles) (d : ℤ) :
    ∃ r s' v', ssufsLseek h d s = .ok (r, s') ∧ Effect v (.lseek h d) (.int r) v' ∧
      Represents s' v' := by
  cases hh : (v.handle h).file with
  | none => exact ssufsLseek_closed hr hi hh d
  | some i => exact ssufsLseek_open hr hi hh d

omit hi in
theorem ssufsLseek_advance (hx : blockSize * 5 ≤ v.extent) {h : Fin maxOpenFiles}
    {i : Fin numInodes} (hmax : (v.file i).size ≤ blockSize * maxFileSize)
    (hh : (v.handle h).file = some i) {n : ℤ} (hn : 0 ≤ n)
    (hs : (v.handle h).offset + n ≤ (v.file i).size) :
    ∃ s', ssufsLseek h n s = .ok (0, s') ∧ Represents s' (v.setHandle h
      { v.handle h with offset := (v.handle h).offset + n.toNat }) := by
  have hwrap : wrap32 ((v.handle h).offset + n) = (v.handle h).offset + n :=
    wrap32_top hn (by omega)
  have hread : ssufsReadInode (s.handle h).inodeNumber s = .ok (v.file i).toInode := by
    rw [hr.inodeNumber_handle, hh]
    exact hr.readInode hx i
  rcases ssufsLseek_eq hr n hread with ⟨hc, -⟩ | ⟨-, -, s', hs', hr'⟩
  · rw [hwrap] at hc
    change ((v.file i).size : ℤ) = -1 ∨ _ ∨ _ > ((v.file i).size : ℤ) at hc
    omega
  · refine ⟨s', hs', ?_⟩
    rw [hwrap, Int.toNat_add (by omega) hn] at hr'
    exact hr'

theorem ssufsRead_sim (h : Fin maxOpenFiles) (n : ℤ) :
    (¬Valid (.read h n) s ∧ ssufsRead h n s = .error .outOfBounds) ∨
    ∃ r buf s' v', ssufsRead h n s = .ok (r, buf, s') ∧ Effect v (.read h n) (.data r buf) v' ∧
      Represents s' v' := by
  unfold ssufsRead
  dsimp only
  rw [hr.inodeNumber_handle, hr.offset]
  cases hh : (v.handle h).file with
  | none =>
    rw [if_pos (by simp [inodeNumber])]
    exact Or.inr ⟨_, _, s, v, rfl, .readClosed hh, hr⟩
  | some i =>
    have hmax := hi.size_le_max i
    have hblocks := readBlocks_eq hr (hi.loaded i) (v.file i).toInode (k := 0)
      (Nat.zero_add maxFileSize)
    rw [List.drop_zero, List.take_zero, buffer_nil] at hblocks
    change readBlocks (v.file i).toInode s _ _ = _ at hblocks
    rw [if_neg (by have := inodeNumber_nonneg i; omega)]
    rw [show inodeNumber (some i) = ((i : ℕ) : ℤ) from rfl, hr.readInode hi.extent_ge, ok_bind]
    by_cases hshort : ((v.file i).size : ℤ) < wrap32 (n + (v.handle h).offset)
    · rw [show ((v.file i).toInode.fileSize : ℤ) = (v.file i).size from rfl, if_pos hshort]
      exact Or.inr ⟨_, _, s, v, rfl, .readShort hh hshort, hr⟩
    · rw [show ((v.file i).toInode.fileSize : ℤ) = (v.file i).size from rfl, if_neg hshort, hblocks,
        ok_bind]
      unfold load
      rw [Volume.length_buffer]
      by_cases hb : 0 ≤ ((v.handle h).offset : ℤ) ∧ 0 ≤ n ∧
          (v.handle h).offset + n ≤ (blockSize * maxFileSize : ℕ)
      · have hle : (v.handle h).offset + n ≤ (v.file i).size := by
          rw [wrap32_eq ⟨by unfold intMin; omega, by
            unfold intMax blockSize maxFileSize at *; omega⟩] at hshort
          omega
        obtain ⟨s', hs', hr'⟩ := ssufsLseek_advance hr hi.extent_ge hmax hh hb.2.1 hle
        rw [if_pos hb, ok_bind, hs', ok_bind]
        exact Or.inr ⟨_, _, s', _, rfl, .read hh hb.2.1 hle, hr'⟩
      · rw [if_neg hb]
        refine Or.inl ⟨fun hv => hb ?_, rfl⟩
        obtain ⟨hn, hint⟩ := hv
        rw [hr.offset] at hint
        rw [Int.add_comm, wrap32_eq hint] at hshort
        omega

omit hr in
theorem writeBack_sim {h : Fin maxOpenFiles} {i : Fin numInodes}
    {fresh : List (Fin numDataBlocks)} {b : List UInt8} (hh : (v.handle h).file = some i)
    (hroom : v.Room h i fresh b.length) (hr₁ : Represents s (v.claim fresh)) :
    ∃ s', writeBack h b.length ((v.handle h).offset + b.length : ℕ) (i : ℕ)
        ((v.file i).toInode.withBlocks ((v.file i).blocks ++ fresh))
        (pwrite ((v.claim fresh).buffer ((v.file i).blocks ++ fresh)) (v.handle h).offset b) s =
        .ok (0, s') ∧ Represents s' (v.wrote h i fresh b) := by
  have hinv := hi.wrote hroom
  have htop : (v.handle h).offset + b.length ≤ blockSize * maxFileSize :=
    hroom.covers.trans (Nat.mul_le_mul_left _ hroom.length_le)
  have hbuf : (pwrite ((v.claim fresh).buffer ((v.file i).blocks ++ fresh)) (v.handle h).offset
      b).length = blockSize * maxFileSize := by
    rw [length_pwrite, Volume.length_buffer]
    exact max_eq_left htop
  obtain ⟨s₂, hs₂, hr₂⟩ := writeBlocks_eq hr₁ hroom.length_le hbuf (v.file i).toInode (k := 0)
    (Nat.zero_add maxFileSize)
  rw [List.drop_zero] at hs₂
  rw [List.drop_zero, Nat.mul_zero, List.drop_zero] at hr₂
  obtain ⟨s₃, hs₃, hr₃⟩ := hr₂.writeInode hinv.extent_ge i
    (x := (v.file i).grow fresh ((v.handle h).offset + b.length)) (max_le (hi.size_le_max i)
    htop)
  rw [Volume.put_file, Volume.claim_file] at hr₃
  have hgrow : ((v.file i).grow fresh ((v.handle h).offset + b.length)).size =
      max (v.file i).size ((v.handle h).offset + b.length) := rfl
  obtain ⟨s₄, hs₄, hr₄⟩ := ssufsLseek_advance hr₃ hinv.extent_ge (i := i) (h := h)
    (n := b.length) (by simpa [File.grow] using ⟨hi.size_le_max i, htop⟩) (by simpa using hh)
    (by omega) (by
      simp only [Function.update_self, Volume.put_handle, Volume.claim_handle, hgrow]
      omega)
  refine ⟨s₄, ?_, ?_⟩
  · unfold writeBack
    rw [hs₂, ok_bind, growTo_withBlocks, hs₃, ok_bind, hs₄, ok_bind]
  · simpa [Volume.wrote, Volume.setHandle] using hr₄

theorem ssufsWrite_sim (h : Fin maxOpenFiles) (buf : List UInt8) (n : ℤ) :
    (¬Valid (.write h buf n) s ∧ ssufsWrite h buf n s = .error .outOfBounds) ∨
    ∃ r s' v', ssufsWrite h buf n s = .ok (r, s') ∧ Effect v (.write h buf n) (.int r) v' ∧
      Represents s' v' := by
  unfold ssufsWrite
  dsimp only
  rw [hr.inodeNumber_handle, hr.offset]
  cases hh : (v.handle h).file with
  | none =>
    rw [if_pos (Or.inl (by simp [inodeNumber]))]
    exact Or.inr ⟨_, s, v, rfl, .writeClosed hh, hr⟩
  | some i =>
    by_cases ht : wrap32 ((v.handle h).offset + n) > (blockSize * maxFileSize : ℕ)
    · rw [if_pos (Or.inr ht)]
      exact Or.inr ⟨_, s, v, rfl, .writeTooLong hh ht, hr⟩
    · have hnum : ¬(inodeNumber (some i) < 0 ∨
          wrap32 ((v.handle h).offset + n) > (blockSize * maxFileSize : ℕ)) := by
        have := inodeNumber_nonneg i
        omega
      have hgather := gatherBlocks_eq (blocksUpTo (wrap32 ((v.handle h).offset + n)))
        (v.file i).toInode (k := 0) (Nat.zero_add maxFileSize) hr (hi.loaded i) (Nat.zero_le _) rfl
      rw [List.drop_zero, List.take_zero, buffer_nil, ← Volume.blocksNeeded] at hgather
      rw [if_neg hnum, show inodeNumber (some i) = ((i : ℕ) : ℤ) from rfl,
        hr.readInode hi.extent_ge, ok_bind]
      by_cases hk : Volume.blocksNeeded (v.file i) (wrap32 ((v.handle h).offset + n)) ≤
          v.freeBlocks.length
      · obtain ⟨s₁, hs₁, hr₁⟩ := hgather.1 hk
        change gatherBlocks _ _ (v.file i).toInode _ _ = _ at hs₁
        rw [hs₁, ok_bind]
        dsimp only
        by_cases hb : 0 ≤ n ∧ n ≤ buf.length
        · have hload : load buf 0 n = .ok (buf.take n.toNat) := if_pos ⟨le_rfl, hb.1, by omega⟩
          have hlen : ((buf.take n.toNat).length : ℤ) = n := by
            rw [List.length_take]
            omega
          rw [hload, ok_bind]
          unfold store
          rw [Volume.length_buffer, hlen]
          by_cases ho : (v.handle h).offset + n ≤ (blockSize * maxFileSize : ℕ)
          · rw [wrap32_top hb.1 ho] at hk hr₁ ⊢
            obtain ⟨s₂, hs₂, hr₂⟩ := writeBack_sim hi hh (hi.room hb.1 hb.2 ho hk) hr₁
            rw [Int.natCast_add, hlen] at hs₂
            rw [if_pos ⟨by omega, ho⟩, ok_bind, Int.toNat_natCast, hs₂]
            exact Or.inr ⟨_, s₂, _, rfl, .wrote hh hb.1 hb.2 ho hk, hr₂⟩
          · rw [if_neg (fun h => ho h.2)]
            refine Or.inl ⟨fun hv => ho ?_, rfl⟩
            have hint := hv.2.2
            rw [hr.offset] at hint
            rw [wrap32_eq hint] at ht
            exact not_lt.mp ht
        · have hload : load buf 0 n = .error .outOfBounds := if_neg fun h => hb ⟨h.2.1, by omega⟩
          rw [hload]
          exact Or.inl ⟨fun hv => hb ⟨hv.1, hv.2.1⟩, rfl⟩
      · obtain ⟨s₁, hs₁, hr₁⟩ := hgather.2 (not_le.mp hk)
        change gatherBlocks _ _ (v.file i).toInode _ _ = _ at hs₁
        rw [hs₁, ok_bind]
        exact Or.inr ⟨_, s₁, _, rfl, .writeFull hh (not_lt.mp ht) (not_le.mp hk), hr₁⟩

/-- A call that does not return was not valid, and any other has its effect on the volume. -/
theorem exec_sim (c : Call) :
    (¬Valid c s ∧ exec c s = .error .outOfBounds) ∨
    ∃ r s' v', exec c s = .ok (r, s') ∧ Effect v c r v' ∧ Represents s' v' := by
  cases c with
  | create f =>
    obtain ⟨r, s', v', hs, he, hr'⟩ := ssufsCreate_sim hr hi f
    exact Or.inr ⟨_, s', v', by rw [exec, hs, map_ok], he, hr'⟩
  | delete f =>
    obtain ⟨s', v', hs, he, hr'⟩ := ssufsDelete_sim hr hi f
    exact Or.inr ⟨_, s', v', by rw [exec, hs, map_ok], he, hr'⟩
  | «open» f =>
    obtain ⟨r, s', v', hs, he, hr'⟩ := ssufsOpen_sim hr hi f
    exact Or.inr ⟨_, s', v', by rw [exec, hs, map_ok], he, hr'⟩
  | close h => exact Or.inr ⟨_, _, _, rfl, .closed h, hr.setHandle h ⟨none, 0⟩⟩
  | read h n =>
    rcases ssufsRead_sim hr hi h n with ⟨hv, hs⟩ | ⟨r, buf, s', v', hs, he, hr'⟩
    · exact Or.inl ⟨hv, by rw [exec, hs]; rfl⟩
    · exact Or.inr ⟨_, s', v', by rw [exec, hs, map_ok], he, hr'⟩
  | write h buf n =>
    rcases ssufsWrite_sim hr hi h buf n with ⟨hv, hs⟩ | ⟨r, s', v', hs, he, hr'⟩
    · exact Or.inl ⟨hv, by rw [exec, hs]; rfl⟩
    · exact Or.inr ⟨_, s', v', by rw [exec, hs, map_ok], he, hr'⟩
  | lseek h d =>
    obtain ⟨r, s', v', hs, he, hr'⟩ := ssufsLseek_sim hr hi h d
    exact Or.inr ⟨_, s', v', by rw [exec, hs, map_ok], he, hr'⟩
  | dump =>
    obtain ⟨t, ht⟩ := ssufsDump_ok hr hi
    exact Or.inr ⟨_, s, v, by rw [exec, ht, map_ok], .dump, hr⟩

theorem exec_effect {c : Call} {r : Ret} {s' : State} (h : exec c s = .ok (r, s')) :
    ∃ v', Effect v c r v' ∧ Represents s' v' ∧ Inv v' := by
  rcases exec_sim hr hi c with ⟨-, he⟩ | ⟨r₁, s₁, v', hs, he, hr'⟩
  · rw [he] at h
    simp at h
  · obtain ⟨rfl, rfl⟩ := ok_unique_pair hs h
    exact ⟨v', he, hr', he.inv hi⟩

end Transfer

/-- The volume that `ssufs_formatDisk` leaves. -/
def Volume.formatted (label name : Fin maxNameStrlen → UInt8) : Volume where
  label := label
  used := fun _ => false
  taken := fun _ => false
  file := fun _ => ⟨false, name, 0, []⟩
  data := fun _ => zeros blockSize
  extent := blockSize * 5
  handle := fun _ => ⟨none, 0⟩

theorem inv_formatted (label name : Fin maxNameStrlen → UInt8) :
    Inv (.formatted label name) := by
  constructor
  · exact le_rfl
  · simp [Volume.formatted, zeros]
  · simp [Volume.formatted]
  · simp [Volume.formatted]
  · simp [Volume.formatted]
  · simp [Volume.formatted]
  · simp [Volume.formatted]
  · simp [Volume.formatted]
  · simp [Volume.formatted, Volume.bytes]

/-- Each round of the loop writes one inode and leaves the rest of the image alone. -/
theorem formatInodes_spec {x : File} (hx : x.size ≤ blockSize * maxFileSize)
    (l : List (Fin numInodes)) (s : State) :
    ∃ s', formatInodes x.toInode l s = .ok s' ∧ s'.handle = s.handle ∧
      s'.superblock = s.superblock ∧ (∀ b, s'.block b = s.block b) ∧
      (∀ i, (i ∈ l ∨ s.inode i = x.toInode) → s'.inode i = x.toInode) ∧
      (∀ i ∈ l, blockSize + inodeLayout.size * (i + 1) ≤ s'.image.length) ∧
      s.image.length ≤ s'.image.length ∧
      s'.image.length ≤ max s.image.length (blockSize * 5) := by
  induction l generalizing s with
  | nil => exact ⟨s, rfl, rfl, rfl, fun _ => rfl, by simp, by simp, le_rfl, le_max_left _ _⟩
  | cons i l ih =>
    have hi := i.isLt
    have hlen := inodeLayout.length_encode x.toInode
    have hwrite : ssufsWriteInode (i : ℕ) x.toInode s = .ok { s with
        image := pwrite s.image (blockSize + inodeLayout.size * i)
          (inodeLayout.encode x.toInode) } := by
      unfold ssufsWriteInode
      rw [assert_eq (by omega), ok_bind, diskWrite_eq _ (inode_pos i)]
    obtain ⟨s', hs', hhandle, hsb, hblock, hinode, hmem, hge, hle⟩ := ih { s with
      image := pwrite s.image (blockSize + inodeLayout.size * i) (inodeLayout.encode x.toInode) }
    rw [length_pwrite, hlen, inodeLayout_size] at hge hle
    refine ⟨s', ?_, hhandle, ?_, fun b => ?_, fun j hj => ?_, fun j hj => ?_, ?_, ?_⟩
    · unfold formatInodes
      rw [hwrite, ok_bind, hs']
    · rw [hsb]
      exact superblock_pwrite rfl (by omega)
    · rw [hblock]
      apply block_pwrite rfl
      rw [hlen, inodeLayout_size]
      unfold blockSize numInodes at *
      omega
    · apply hinode
      by_cases hji : j = i
      · subst hji
        refine Or.inr ?_
        have hreg := region_pwrite_self s.image (blockSize + inodeLayout.size * j)
          (inodeLayout.encode x.toInode)
        rw [hlen] at hreg
        unfold State.inode
        rw [hreg]
        have hdec := inodeLayout.decode_encode x.toInode [] (inodeLayout_valid hx)
        rwa [List.append_nil] at hdec
      · rcases hj with hj | hj
        · exact Or.inl ((List.mem_cons.mp hj).resolve_left hji)
        · refine Or.inr ((inode_pwrite rfl ?_).trans hj)
          rw [hlen, inodeLayout_size]
          have := Fin.val_ne_of_ne hji
          omega
    · rcases List.mem_cons.mp hj with rfl | hj
      · rw [inodeLayout_size]
        omega
      · exact hmem j hj
    · omega
    · unfold blockSize numInodes at *
      omega

theorem ssufsWriteSuperBlock_empty (sb : SuperBlock) {s : State} (hs : s.image = []) :
    ∃ s', ssufsWriteSuperBlock sb s = .ok s' ∧ s'.handle = s.handle ∧ s'.superblock = sb ∧
      (∀ b, s'.block b = zeros blockSize) ∧ s'.image.length = blockSize := by
  have hrest : (s.takeJunk (blockSize - superblockLayout.size)).length =
      blockSize - superblockLayout.size := by
    simp [State.takeJunk]
  have hlen : (superblockLayout.encode sb ++
      s.takeJunk (blockSize - superblockLayout.size)).length = blockSize := by
    rw [List.length_append, superblockLayout.length_encode, hrest, superblockLayout_size]
    rfl
  unfold ssufsWriteSuperBlock
  rw [diskWrite_eq 0 (show (0 : ℤ) = (0 : ℕ) from rfl)]
  refine ⟨_, rfl, rfl, superblock_pwrite_self rfl hrest, fun b => ?_, ?_⟩
  · unfold State.block
    dsimp only [State.dropJunk]
    rw [region_pwrite_of_disjoint _ (Or.inr (by rw [hlen]; unfold blockSize; omega)), hs]
    simp [region, zeros]
  · dsimp only [State.dropJunk]
    rw [length_pwrite, hlen, hs]
    rfl

theorem ssufsFormatDisk_sim (junk : ℕ → UInt8) :
    ∃ s label name, ssufsFormatDisk junk = .ok s ∧ Represents s (.formatted label name) := by
  unfold ssufsFormatDisk
  dsimp only
  obtain ⟨s₁, hs₁, hhandle₁, hsb₁, hblock₁, hlen₁⟩ := ssufsWriteSuperBlock_empty
    ⟨fun j => ([115, 115, 117, 102, 115, 0] ++ State.takeJunk 2 ⟨[], junk, fun _ => ⟨0, -1⟩⟩).getD
        j 0, fun _ => inodeFree, fun _ => dataBlockFree⟩
    (s := State.dropJunk 2 ⟨[], junk, fun _ => ⟨0, -1⟩⟩) rfl
  obtain ⟨s₂, hs₂, hhandle, hsb, hblock, hinode, hmem, hge, hle⟩ := formatInodes_spec
    (x := ⟨false, fun j => (0 :: s₁.takeJunk 7).getD j 0, 0, []⟩) (Nat.zero_le _)
    (List.finRange numInodes) (s₁.dropJunk 7)
  rw [hs₁, ok_bind]
  refine ⟨s₂, s₁.superblock.name, fun j => (0 :: s₁.takeJunk 7).getD j 0, hs₂, ?_⟩
  constructor
  · change s₂.superblock = ⟨s₁.superblock.name, fun _ => inodeFree, fun _ => dataBlockFree⟩
    rw [hsb]
    change s₁.superblock = _
    rw [hsb₁]
  · intro i
    exact hinode i (Or.inl (List.mem_finRange i))
  · intro b
    rw [hblock]
    exact hblock₁ b
  · have hlast := hmem 7 (List.mem_finRange _)
    change s₂.image.length ≤ max s₁.image.length _ at hle
    rw [hlen₁] at hle
    rw [inodeLayout_size] at hlast
    change s₂.image.length = blockSize * 5
    unfold blockSize at *
    simp at hlast
    omega
  · intro h
    rw [hhandle]
    change s₁.handle h = _
    rw [hhandle₁]
    rfl

/-- The disk image holds a volume in order. -/
def Sound (s : State) : Prop := ∃ v, Represents s v ∧ Inv v

theorem Formatted.represents {s : State} (h : Formatted s) :
    ∃ label name, Represents s (.formatted label name) := by
  obtain ⟨junk, hj⟩ := h
  obtain ⟨s₁, label, name, hs₁, hr⟩ := ssufsFormatDisk_sim junk
  obtain rfl := ok_unique hs₁ hj
  exact ⟨label, name, hr⟩

theorem Formatted.sound {s : State} (h : Formatted s) : Sound s := by
  obtain ⟨label, name, hr⟩ := h.represents
  exact ⟨_, hr, inv_formatted label name⟩

theorem Sound.of_exec {c : Call} {r : Ret} {s s' : State} (h : Sound s)
    (he : exec c s = .ok (r, s')) : Sound s' := by
  obtain ⟨v, hr, hi⟩ := h
  obtain ⟨v', -, hr', hi'⟩ := exec_effect hr hi he
  exact ⟨v', hr', hi'⟩

section Runs

variable {tr : List (Event State Call Ret)} {s : State}

theorem AnyRun.sound (h : AnyRun tr s) : Sound s :=
  h.invariant (fun _ hs => hs.sound) fun _ _ _ _ hs _ he => hs.of_exec he

theorem FsRun.anyRun (h : FsRun tr s) : AnyRun tr s :=
  h.mono fun _ _ _ => trivial

/-- A property that every call on a volume in order keeps exactly if it is `good` is true all
along a run exactly if the run makes good calls only. -/
theorem AnyRun.forall_iff_good (h : AnyRun tr s) (P : State → Prop) (good : Call → State → Prop)
    (h₀ : ∀ label name s, Represents s (.formatted label name) → P s)
    (hstep : ∀ s v c r s' v', Represents s v → Inv v → Represents s' v' → Inv v' →
      Effect v c r v' → P s → (P s' ↔ good c s)) :
    (P s ∧ ∀ e ∈ tr, P e.pre) ↔ ∀ e ∈ tr, good e.call e.pre := by
  apply Run.forall_iff_good Sound P good _ _ _ h
  · intro s hs
    obtain ⟨label, name, hr⟩ := hs.represents
    exact ⟨hs.sound, h₀ label name s hr⟩
  · intro s c r s' hs _ he
    exact hs.of_exec he
  · rintro s c r s' ⟨v, hr, hi⟩ hp _ he
    obtain ⟨v', heff, hr', hi'⟩ := exec_effect hr hi he
    exact hstep s v c r s' v' hr hi hr' hi' heff hp

def formattedDisk : State :=
  match ssufsFormatDisk (fun _ => 0) with
  | .ok s => s
  | .error _ => ⟨[], fun _ => 0, fun _ => ⟨0, -1⟩⟩

theorem formatted_formattedDisk : Formatted formattedDisk := by
  obtain ⟨s, label, name, hs, -⟩ := ssufsFormatDisk_sim fun _ => 0
  refine ⟨fun _ => 0, ?_⟩
  unfold formattedDisk
  rw [hs]

def nameA : CStr := ⟨[97], by simp, fun _ => 0⟩

theorem FsRun.exists_of_check (cs : List Call) {p : List (Event State Call Ret) → State → Bool}
    (h : replayCheck exec Valid cs formattedDisk p = true) :
    ∃ tr s, FsRun tr s ∧ p tr s = true :=
  Run.exists_of_replayCheck cs formatted_formattedDisk h

theorem FsRun.exists_opened :
    ∃ tr s, FsRun tr s ∧ (s.handle 0).inodeNumber = 0 ∧ (s.handle 3).inodeNumber = -1 := by
  obtain ⟨tr, s, h, hp⟩ := FsRun.exists_of_check [.create nameA, .open nameA]
    (p := fun _ s => decide ((s.handle 0).inodeNumber = 0 ∧ (s.handle 3).inodeNumber = -1))
    (by decide +kernel)
  exact ⟨tr, s, h, of_decide_eq_true hp⟩

theorem FsRun.exists_written :
    ∃ tr s, FsRun tr s ∧ (s.inode 0).fileSize = 3 ∧
      s.superblock.datablockFreelist 0 = dataBlockUsed ∧ openNamei nameA s = .ok 0 := by
  obtain ⟨tr, s, h, hp⟩ := FsRun.exists_of_check
    [.create nameA, .open nameA, .write 0 [65, 66, 67] 3]
    (p := fun _ s => decide ((s.inode 0).fileSize = 3 ∧
      s.superblock.datablockFreelist 0 = dataBlockUsed ∧ openNamei nameA s = .ok 0))
    (by decide +kernel)
  exact ⟨tr, s, h, of_decide_eq_true hp⟩

end Runs

end SsuOs.Ssufs
