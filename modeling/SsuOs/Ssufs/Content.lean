import SsuOs.Ssufs.Simulation

/-! What ssufs is for: a store of byte strings that are read and written at an offset. -/
namespace SsuOs.Ssufs
open Lib

/-- The content of every inode and the array of open files. -/
@[ext] structure FileStore where
  content : Fin numInodes → List UInt8
  handle : Fin maxOpenFiles → FileHandle

namespace FileStore

def empty : FileStore := ⟨fun _ => [], fun _ => ⟨0, -1⟩⟩

def setContent (i : Fin numInodes) (l : List UInt8) (t : FileStore) : FileStore :=
  { t with content := Function.update t.content i l }

def setHandle (h : Fin maxOpenFiles) (e : FileHandle) (t : FileStore) : FileStore :=
  { t with handle := Function.update t.handle h e }

def setOffset (h : Fin maxOpenFiles) (o : ℤ) (t : FileStore) : FileStore :=
  t.setHandle h { t.handle h with offset := o }

/-- The handle `h` is open on the inode `i` at the offset `o`. -/
def At (t : FileStore) (h : Fin maxOpenFiles) (i : Fin numInodes) (o : ℕ) : Prop :=
  t.handle h = ⟨o, (i : ℕ)⟩

/-- What a call may do to the store. Everything that a constructor does not name stays as it
is. -/
inductive Step (t : FileStore) : Call → Ret → FileStore → Prop
  | create {f : CStr} (i : Fin numInodes) :
      Step t (.create f) (.int (i : ℕ)) (t.setContent i [])
  | createFail {f : CStr} : Step t (.create f) (.int (-1)) t
  | delete {f : CStr} (i : Fin numInodes) : Step t (.delete f) .none (t.setContent i [])
  | deleteOpen {f : CStr} {i : Fin numInodes} {h : Fin maxOpenFiles}
      (hh : (t.handle h).inodeNumber = (i : ℕ)) :
      Step t (.delete f) .none ((t.setHandle h ⟨0, -1⟩).setContent i [])
  | deleteMiss {f : CStr} : Step t (.delete f) .none t
  | open {f : CStr} {h : Fin maxOpenFiles} (i : Fin numInodes)
      (hh : (t.handle h).inodeNumber = -1) :
      Step t (.open f) (.int (h : ℕ)) (t.setHandle h { t.handle h with inodeNumber := (i : ℕ) })
  | openFail {f : CStr} : Step t (.open f) (.int (-1)) t
  | close (h : Fin maxOpenFiles) : Step t (.close h) .none (t.setHandle h ⟨0, -1⟩)
  | read {h : Fin maxOpenFiles} {n : ℤ} {i : Fin numInodes} {o : ℕ} (hh : t.At h i o)
      (hn : o + n ≤ (t.content i).length) :
      Step t (.read h n) (.data 0 (pread (t.content i) o n.toNat)) (t.setOffset h (o + n))
  | readShort {h : Fin maxOpenFiles} {n : ℤ} {i : Fin numInodes} {o : ℕ} (hh : t.At h i o)
      (hn : (t.content i).length < o + n) : Step t (.read h n) (.data (-1) []) t
  | readClosed {h : Fin maxOpenFiles} {n : ℤ} (hh : (t.handle h).inodeNumber = -1) :
      Step t (.read h n) (.data (-1) []) t
  | write {h : Fin maxOpenFiles} {buf : List UInt8} {n : ℤ} {i : Fin numInodes} {o : ℕ}
      (hh : t.At h i o) (hn : 0 ≤ n) (hb : n ≤ buf.length) :
      Step t (.write h buf n) (.int 0)
        ((t.setContent i (pwrite (t.content i) o (buf.take n.toNat))).setOffset h (o + n))
  | writeFail {h : Fin maxOpenFiles} {buf : List UInt8} {n : ℤ} :
      Step t (.write h buf n) (.int (-1)) t
  | lseek {h : Fin maxOpenFiles} {d : ℤ} {i : Fin numInodes} {o : ℕ} (hh : t.At h i o)
      (h₀ : 0 ≤ o + d) (hd : o + d ≤ (t.content i).length) :
      Step t (.lseek h d) (.int 0) (t.setOffset h (o + d))
  | lseekFail {h : Fin maxOpenFiles} {d : ℤ} {i : Fin numInodes} {o : ℕ} (hh : t.At h i o)
      (hd : o + d < 0 ∨ (t.content i).length < o + d) : Step t (.lseek h d) (.int (-1)) t
  | lseekClosed {h : Fin maxOpenFiles} {d : ℤ} (hh : (t.handle h).inodeNumber = -1) :
      Step t (.lseek h d) (.int 0) (t.setOffset h ((t.handle h).offset + d))
  | lseekClosedFail {h : Fin maxOpenFiles} {d : ℤ} (hh : (t.handle h).inodeNumber = -1) :
      Step t (.lseek h d) (.int (-1)) t
  | dump {text : String} : Step t .dump (.text text) t

end FileStore

/-- The first `file_size` bytes of the data blocks in the order of `direct_blocks`. -/
def State.content (s : State) (i : Fin numInodes) : List UInt8 :=
  let blocks := (List.ofFn (s.inode i).directBlocks).filter (0 ≤ ·)
  (blocks.flatMap fun b => region s.image (blockSize * (5 + b.toNat)) blockSize).take
    (s.inode i).fileSize.toNat

def State.toStore (s : State) : FileStore := ⟨s.content, s.handle⟩

def Volume.toStore (v : Volume) : FileStore := ⟨v.content, fun h => (v.handle h).toFileHandle⟩

def blockNumber (b : Fin numDataBlocks) : ℤ := (b : ℕ)

theorem ofFn_blockSlot {l : List (Fin numDataBlocks)} (hl : l.length ≤ maxFileSize) :
    List.ofFn (fun j : Fin maxFileSize => blockSlot l j) =
      l.map blockNumber ++ List.replicate (maxFileSize - l.length) (-1) := by
  apply List.ext_getElem
  · simp only [List.length_ofFn, List.length_append, List.length_map, List.length_replicate]
    omega
  · intro j hj _
    rw [List.getElem_ofFn]
    by_cases hlt : j < l.length
    · rw [List.getElem_append_left (by simpa using hlt), List.getElem_map]
      exact blockSlot_of_lt hlt
    · rw [List.getElem_append_right (by simpa using hlt), List.getElem_replicate]
      exact blockSlot_of_le (not_lt.mp hlt)

theorem filter_ofFn_blockSlot {l : List (Fin numDataBlocks)} (hl : l.length ≤ maxFileSize) :
    (List.ofFn fun j : Fin maxFileSize => blockSlot l j).filter (0 ≤ ·) =
      l.map blockNumber := by
  have hpos : (l.map blockNumber).filter (0 ≤ ·) = l.map blockNumber := by
    apply List.filter_eq_self.mpr
    simp [blockNumber]
  have hneg : (List.replicate (maxFileSize - l.length) (-1 : ℤ)).filter (0 ≤ ·) = [] := by
    simp
  rw [ofFn_blockSlot hl, List.filter_append, hpos, hneg, List.append_nil]

section View

variable {s : State} {v : Volume}

theorem Represents.content_eq (hr : Represents s v) (hi : Inv v) (i : Fin numInodes) :
    s.content i = v.content i := by
  have hblocks : (List.ofFn (s.inode i).directBlocks).filter (0 ≤ ·) =
      (v.file i).blocks.map blockNumber := by
    rw [hr.inode]
    exact filter_ofFn_blockSlot (hi.length_le i)
  unfold State.content Volume.content Volume.bytes
  dsimp only
  have hdata : ∀ b ∈ (v.file i).blocks,
      region s.image (blockSize * (5 + (blockNumber b).toNat)) blockSize = v.data b :=
    fun b _ => hr.block b
  rw [hblocks, hr.fileSize_eq, Int.toNat_natCast, List.flatMap_map, List.flatMap_congr hdata]

theorem Represents.toStore_eq (hr : Represents s v) (hi : Inv v) : s.toStore = v.toStore := by
  unfold State.toStore Volume.toStore
  rw [funext (hr.content_eq hi), funext hr.handle]

end View

section Store

variable {v v' : Volume}

theorem Volume.toStore_setHandle (h : Fin maxOpenFiles) (e : Handle) :
    (v.setHandle h e).toStore = v.toStore.setHandle h e.toFileHandle := by
  ext1
  · rfl
  · funext k
    by_cases hk : k = h
    · subst hk
      simp [Volume.toStore, Volume.setHandle, FileStore.setHandle]
    · simp [Volume.toStore, Volume.setHandle, FileStore.setHandle, hk]

theorem Volume.toStore_update {i : Fin numInodes} {x : File} (hx : x.size = 0)
    (used : Fin numInodes → Bool) (taken : Fin numDataBlocks → Bool) :
    Volume.toStore { v with used := used, taken := taken, file := Function.update v.file i x } =
      v.toStore.setContent i [] := by
  ext1
  · funext j
    by_cases hj : j = i
    · subst hj
      simp [Volume.toStore, Volume.content, FileStore.setContent, hx]
    · simp [Volume.toStore, Volume.content, FileStore.setContent, hj, Volume.bytes]
  · rfl

theorem Inv.toStore_claim (hi : Inv v) {l : List (Fin numDataBlocks)}
    (hl : ∀ b ∈ l, v.taken b = false) : (v.claim l).toStore = v.toStore := by
  ext1
  · funext i
    unfold Volume.toStore Volume.content
    dsimp only
    rw [Volume.claim_file, hi.bytes_claim hl]
  · simp [Volume.toStore]

section Wrote

variable {h : Fin maxOpenFiles} {i : Fin numInodes} {fresh : List (Fin numDataBlocks)}
  {b : List UInt8}

theorem Inv.content_wrote (hi : Inv v) (hr : v.Room h i fresh b.length) :
    (v.wrote h i fresh b).content i = pwrite (v.content i) (v.handle h).offset b := by
  have hinv := hi.wrote hr
  apply ext_getD
  · rw [hinv.length_content, length_pwrite, hi.length_content, Volume.wrote_file_self]
    rfl
  · intro k _
    rw [hinv.getD_content, Volume.wrote_file_self, getD_pwrite, hi.getD_content]
    exact hi.getD_wrote_bytes hr k

theorem Inv.content_wrote_of_ne (hi : Inv v) (hr : v.Room h i fresh b.length) {j : Fin numInodes}
    (hj : j ≠ i) : (v.wrote h i fresh b).content j = v.content j := by
  unfold Volume.content
  rw [Volume.wrote_file_of_ne hj, hi.wrote_bytes_of_ne hr hj]

theorem Inv.toStore_wrote (hi : Inv v) (hr : v.Room h i fresh b.length) :
    (v.wrote h i fresh b).toStore =
      (v.toStore.setContent i (pwrite (v.content i) (v.handle h).offset b)).setOffset h
        ((v.handle h).offset + b.length) := by
  ext1
  · funext j
    by_cases hj : j = i
    · subst hj
      simp only [FileStore.setOffset, FileStore.setHandle, FileStore.setContent,
        Function.update_self]
      exact hi.content_wrote hr
    · simp only [FileStore.setOffset, FileStore.setHandle, FileStore.setContent,
        Function.update_of_ne hj]
      exact hi.content_wrote_of_ne hr hj
  · funext k
    by_cases hk : k = h
    · subst hk
      simp [Volume.toStore, FileStore.setOffset, FileStore.setHandle, FileStore.setContent,
        Handle.toFileHandle]
    · simp [Volume.toStore, Volume.wrote_handle_of_ne hk, FileStore.setOffset,
        FileStore.setHandle, FileStore.setContent, hk]

end Wrote

theorem Volume.at_toStore {h : Fin maxOpenFiles} {i : Fin numInodes}
    (hh : (v.handle h).file = some i) : v.toStore.At h i (v.handle h).offset := by
  change (⟨_, inodeNumber (v.handle h).file⟩ : FileHandle) = _
  rw [hh]
  rfl

theorem Volume.closed_toStore {h : Fin maxOpenFiles} (hh : (v.handle h).file = none) :
    (v.toStore.handle h).inodeNumber = -1 := by
  change inodeNumber (v.handle h).file = -1
  rw [hh]
  rfl

theorem Inv.pread_buffer (hi : Inv v) {i : Fin numInodes} {o n : ℕ}
    (h : o + n ≤ (v.file i).size) :
    pread (v.buffer (v.file i).blocks) o n = pread (v.content i) o n := by
  have hmax := hi.size_le_max i
  rw [pread_eq_region (by rw [Volume.length_buffer]; omega),
    pread_eq_region (by rw [hi.length_content]; omega)]
  apply List.map_congr_left
  intro k hk
  rw [List.mem_range] at hk
  rw [Volume.getD_buffer, if_pos (by omega), hi.getD_content]

theorem Volume.toStore_setOffset (h : Fin maxOpenFiles) (o : ℕ) :
    (v.setHandle h { v.handle h with offset := o }).toStore = v.toStore.setOffset h o := by
  rw [toStore_setHandle]
  rfl

theorem Effect.step {s : State} {c : Call} {r : Ret} (he : Effect v c r v') (hr : Represents s v)
    (hi : Inv v) (hv : Valid c s) : v.toStore.Step c r v'.toStore := by
  cases he with
  | createExists hf => exact .createFail
  | createFull hf hu => exact .createFail
  | @created f i hf hu =>
    have hstore : (v.addFile i f).toStore = v.toStore.setContent i [] :=
      Volume.toStore_update rfl _ _
    rw [hstore]
    exact .create i
  | deleteMiss hf => exact .deleteMiss
  | @deleted f i hf =>
    have hstore : ∀ w : Volume, (w.release i).toStore = w.toStore.setContent i [] :=
      fun w => Volume.toStore_update rfl _ _
    rw [hstore]
    rcases v.closeFirst_cases i with ⟨-, hc⟩ | ⟨h, hh, hc⟩
    · rw [hc]
      exact .delete i
    · rw [hc, Volume.toStore_setHandle]
      apply FileStore.Step.deleteOpen
      exact congrArg FileHandle.inodeNumber (Volume.at_toStore hh)
  | openFail hf => exact .openFail
  | @opened f i h hf hh =>
    rw [Volume.toStore_setHandle]
    exact .open i (Volume.closed_toStore (Volume.file_of_freeHandle hh))
  | closed h =>
    rw [Volume.toStore_setHandle]
    exact .close h
  | readClosed hh => exact .readClosed (Volume.closed_toStore hh)
  | @readShort h n i hh hs =>
    refine .readShort (Volume.at_toStore hh) ?_
    have hint := hv.2
    rw [hr.offset] at hint
    rw [Int.add_comm, wrap32_eq hint] at hs
    change ((v.content i).length : ℤ) < _
    rw [hi.length_content]
    exact hs
  | @read h n i hh hn hs =>
    rw [Volume.toStore_setOffset, hi.pread_buffer (by omega), Int.natCast_add,
      Int.toNat_of_nonneg hn]
    refine .read (Volume.at_toStore hh) ?_
    change _ ≤ ((v.content i).length : ℤ)
    rw [hi.length_content]
    exact hs
  | writeClosed hh => exact .writeFail
  | writeTooLong hh ht => exact .writeFail
  | writeFull hh ht hk =>
    rw [hi.toStore_claim fun b hb => Volume.mem_freeBlocks.mp hb]
    exact .writeFail
  | @wrote h buf n i hh hn hb ht hk =>
    have hlen : ((buf.take n.toNat).length : ℤ) = n := by
      rw [List.length_take]
      omega
    rw [hi.toStore_wrote (hi.room hn hb ht hk), hlen]
    exact .write (Volume.at_toStore hh) hn hb
  | @seekFail h d i hh hs =>
    rw [Valid, hr.offset] at hv
    rw [wrap32_eq hv] at hs
    refine .lseekFail (Volume.at_toStore hh) ?_
    change _ ∨ ((v.content i).length : ℤ) < _
    rw [hi.length_content]
    exact hs
  | @seek h d i hh h₀ hs =>
    rw [Valid, hr.offset] at hv
    rw [wrap32_eq hv] at h₀ hs
    rw [wrap32_eq hv, Volume.toStore_setOffset, Int.toNat_of_nonneg h₀]
    refine .lseek (Volume.at_toStore hh) h₀ ?_
    change _ ≤ ((v.content i).length : ℤ)
    rw [hi.length_content]
    exact hs
  | seekClosedFail hh => exact .lseekClosedFail (Volume.closed_toStore hh)
  | @seekClosed h d hh h₀ =>
    rw [Valid, hr.offset] at hv
    rw [wrap32_eq hv] at h₀
    rw [wrap32_eq hv, Volume.toStore_setOffset, Int.toNat_of_nonneg h₀]
    exact .lseekClosed (Volume.closed_toStore hh)
  | dump => exact .dump

end Store

theorem Formatted.toStore_eq {s : State} (h : Formatted s) : s.toStore = .empty := by
  obtain ⟨label, name, hr⟩ := h.represents
  rw [hr.toStore_eq (inv_formatted label name)]
  ext1
  · funext i
    simp [Volume.toStore, Volume.formatted, Volume.content, FileStore.empty]
  · rfl

theorem Sound.step {s s' : State} {c : Call} {r : Ret} (h : Sound s) (hv : Valid c s)
    (he : exec c s = .ok (r, s')) : s.toStore.Step c r s'.toStore := by
  obtain ⟨v, hr, hi⟩ := h
  obtain ⟨v', heff, hr', hi'⟩ := exec_effect hr hi he
  rw [hr.toStore_eq hi, hr'.toStore_eq hi']
  exact heff.step hr hi hv

section Runs

variable {tr : List (Event State Call Ret)} {s : State}

/-- ssufs refines the store: a run is one of its traces, the size of every file is the length of
its content, and every further valid call returns and is a step of the store. -/
theorem fsRun_refines_store (h : FsRun tr s) :
    Trace FileStore.Step .empty (tr.map fun e => (e.call, e.ret)) s.toStore ∧
      (∀ i, (s.inode i).fileSize = (s.content i).length) ∧
      ∀ c, Valid c s → ∃ r s', exec c s = .ok (r, s') ∧ s.toStore.Step c r s'.toStore := by
  refine ⟨?_, ?_, ?_⟩
  · apply h.trace Sound State.toStore
    · exact fun s hs => ⟨hs.sound, hs.toStore_eq⟩
    · exact fun _ _ _ _ hs _ he => hs.of_exec he
    · exact fun _ _ _ _ hs hv he => hs.step hv he
  · obtain ⟨v, hr, hi⟩ := h.anyRun.sound
    intro i
    rw [hr.content_eq hi, hi.length_content, hr.fileSize_eq]
  · intro c hv
    have hs := h.anyRun.sound
    obtain ⟨v, hr, hi⟩ := hs
    rcases exec_sim hr hi c with ⟨hnot, -⟩ | ⟨r, s', -, he, -, -⟩
    · exact absurd hv hnot
    · exact ⟨r, s', he, h.anyRun.sound.step hv he⟩

theorem fsRun_refines_store_written :
    ∃ tr s, FsRun tr s ∧ s.content 0 = [65, 66, 67] ∧
      Trace FileStore.Step .empty (tr.map fun e => (e.call, e.ret)) s.toStore := by
  obtain ⟨tr, s, h, hp⟩ := FsRun.exists_of_check
    [.create nameA, .open nameA, .write 0 [65, 66, 67] 3]
    (p := fun _ s => decide (s.content 0 = [65, 66, 67])) (by decide +kernel)
  exact ⟨tr, s, h, of_decide_eq_true hp, (fsRun_refines_store h).1⟩

end Runs

end SsuOs.Ssufs
