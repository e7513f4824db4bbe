import SsuOs.Xv6.FileEnds

/-! What the invariants of the open files are good for: no call panics or touches the page of a
pipe that has been freed, and a pipe stays as long as somebody can reach one of its ends. -/
namespace SsuOs.Xv6
open SsuOs.Lib Files

structure FilesInv (s : Files) : Prop where
  refs : RefInv s
  child : ChildInv s
  types : TypeInv s
  ends : EndInv s

theorem filesInv_init : FilesInv filesInit := by
  have hcall : ∀ p, (filesInit.proc p).call = if p.val = 0 then .user else .unused := fun _ => rfl
  have hrefs : ∀ p f, (filesInit.proc p).refs f = 0 := by
    intro p f
    have hdesc : descriptors (filesInit.proc p).ofile f = 0 := descriptors_none f
    rw [FProc.refs, hdesc, hcall]
    split_ifs <;> rfl
  refine ⟨fun f => ?_, ⟨fun p c i h => ?_, fun p q c i j h => ?_, fun p _ fd => rfl,
    fun p pend files h => ?_⟩, ⟨fun p => ?_, fun f => ⟨fun k h => ?_, fun h => ?_⟩⟩,
    ⟨fun k w => ?_, fun k P h => ?_⟩⟩
  · simp only [hrefs, Finset.sum_const_zero]
    rfl
  · rw [hcall] at h
    split_ifs at h
  · rw [hcall] at h
    split_ifs at h
  · rw [hcall] at h
    split_ifs at h
  · refine .plain ?_ ?_ fun fd f h => ?_
    · rw [hcall]
      split_ifs <;> rfl
    · rw [hcall]
      split_ifs <;> rfl
    · simp [filesInit] at h
  · simp [filesInit] at h
  · simp [filesInit] at h
  · have hpend : ∀ p, (filesInit.proc p).call.pending k w = 0 := by
      intro p
      rw [hcall]
      split_ifs <;> rfl
    have hend : ∀ f, (filesInit.file f).endOf k w = 0 := fun f => endOf_of_none rfl
    simp only [Files.ends, hpend, hend, Finset.sum_const_zero]
    rfl
  · simp [filesInit] at h

theorem FileTrans.filesInv {s s' : Files} {a : FileStep} {r : FileRet} (h : FileTrans s a r s')
    (hi : FilesInv s) : FilesInv s' :=
  ⟨h.refInv hi.refs hi.child, h.childInv hi.child, h.typeInv hi.refs hi.child hi.types,
    h.endInv hi.refs hi.child hi.types hi.ends⟩

theorem filesInv_of_run {tr : List (Event Files FileStep FileRet)} {s : Files}
    (h : FileRun tr s) : FilesInv s := by
  refine h.invariant (fun s hs => ?_) fun s a r s' hi _ he => (execFile_trans he).filesInv hi
  subst hs
  exact filesInv_init

section

variable {s : Files} {p : Fin nProc} {f : Fin nFile} {k : ℕ} {w : Bool}

/-- A file or a call that stands for an end of a pipe keeps the end open. -/
theorem EndInv.open_of_ends (hi : EndInv s) (h : s.ends k w ≠ 0) :
    ∃ P, s.pipe k = some P ∧ P.isOpen w = true := by
  rw [hi.ends] at h
  cases hP : s.pipe k with
  | none => simp [hP, openEnds] at h
  | some P => exact ⟨P, rfl, by simpa [hP, openEnds] using h⟩

theorem ends_of_file (hk : (s.file f).type = .pipe k) (hw : (s.file f).writable = w) :
    s.ends k w ≠ 0 := by
  have hle := Finset.single_le_sum (f := fun g => (s.file g).endOf k w)
    (fun _ _ => Nat.zero_le _) (Finset.mem_univ f)
  simp only [File.endOf, hk, hw, true_and, ↓reduceIte] at hle
  unfold Files.ends File.endOf
  omega

theorem ends_of_pend (h : (s.proc p).call.pend = some (k, w)) : s.ends k w ≠ 0 := by
  have hle := Finset.single_le_sum (f := fun q => (s.proc q).call.pending k w)
    (fun _ _ => Nat.zero_le _) (Finset.mem_univ p)
  simp only [FileCall.pending, h, ↓reduceIte] at hle
  unfold Files.ends FileCall.pending
  omega

theorem FilesInv.uses_open (hi : FilesInv s) (h : (s.proc p).call.uses = some (k, w)) :
    ∃ P, s.pipe k = some P ∧ P.isOpen w = true := by
  obtain ⟨fd, f, -, ht, hw⟩ := (hi.types.proc p).uses k w h
  exact hi.ends.open_of_ends (ends_of_file ht hw)

theorem FilesInv.filedup_ok (hi : FilesInv s) (h : 0 < (s.proc p).refs f) :
    ∃ t, s.filedup f = .ok t := by
  have hle := hi.refs.le p f
  unfold Files.filedup
  rw [if_neg (by omega)]
  exact ⟨_, rfl⟩

theorem FilesInv.fileclose_ok (hi : FilesInv s) (h : 0 < (s.proc p).refs f) :
    ∃ t, s.fileclose f = .ok t := by
  have hle := hi.refs.le p f
  unfold Files.fileclose
  rw [if_neg (by omega)]
  split_ifs
  · exact ⟨_, rfl⟩
  · exact ⟨_, rfl⟩

theorem writeInode_end {n i : ℕ} (h : n ≤ i) (writei : List ℤ) :
    ∃ v, writeInode n i writei = .ok v := by
  cases writei with
  | nil => exact ⟨_, if_neg (by omega)⟩
  | cons r writei => exact ⟨_, if_pos h⟩

/-- The loop of `filewrite`, behind `j` calls of `writei` that have written all they got. -/
theorem writeInode_fault {n j : ℕ} {writei : List ℤ} {e : FileFault}
    (h : writeInode n (j * writeMax) writei = .error e) :
    e = .notEnabled ∨ e = .short ∧ ∃ i r, (j + i) * writeMax < n ∧ writei[i]? = some r ∧
      0 ≤ r ∧ r ≠ min (n - (j + i) * writeMax) writeMax := by
  induction writei generalizing j with
  | nil =>
    rw [writeInode] at h
    split_ifs at h
    exact .inl (Except.error.inj h).symm
  | cons r writei ih =>
    rw [writeInode] at h
    split_ifs at h with hend hneg hshort
    · exact .inr ⟨(Except.error.inj h).symm, 0, r, not_le.mp hend, rfl, not_lt.mp hneg, hshort⟩
    · rw [not_not] at hshort
      by_cases hlast : n ≤ j * writeMax + r.toNat
      · obtain ⟨v, hv⟩ := writeInode_end hlast writei
        simp [hv] at h
      · have hall : r.toNat = writeMax := by omega
        rw [hall, ← Nat.succ_mul] at h
        obtain hwait | ⟨he, i, r', hi, hr', hpos, hne⟩ := ih h
        · exact .inl hwait
        · rw [Nat.succ_add] at hi hne
          exact .inr ⟨he, i + 1, r', hi, hr', hpos, hne⟩

/-- A write to an inode in which some call of `writei`, without an error, writes another number of
bytes than it got. -/
def FileStep.Short : FileStep → Prop
  | .write _ _ addr writei => ∃ i r, i * writeMax < addr.length ∧ writei[i]? = some r ∧
      0 ≤ r ∧ r ≠ min (addr.length - i * writeMax) writeMax
  | _ => False

theorem FilesInv.filewrite_fault (hi : FilesInv s) {fd : Fin nOFile} {addr : List UInt8}
    {writei : List ℤ} {e : FileFault} (hp : (s.proc p).call = .user)
    (hfd : (s.proc p).ofile fd = some f) (h : s.filewrite p f addr writei = .error e) (n : ℤ) :
    e = .notEnabled ∨ e = .short ∧ (FileStep.write p n addr writei).Short := by
  have htype := (hi.types.proc p).descriptors (by rw [hp]; rfl) hfd
  unfold Files.filewrite at h
  split_ifs at h with hw
  split at h
  · rename_i k hk
    obtain ⟨P, hP, -⟩ := hi.ends.open_of_ends (ends_of_file hk rfl)
    obtain ⟨r, s', heq, -⟩ : ∃ r s', s.pipewrite p k addr.length addr = .ok (r, s') ∧
      WriteEnd s p k addr.length addr P r s' := pipewrite_eq hP
    simp [heq] at h
  · cases hloop : writeInode addr.length 0 writei with
    | ok v => simp [hloop] at h
    | error e' =>
      rw [hloop] at h
      obtain rfl := Except.error.inj h
      rw [← Nat.zero_mul writeMax] at hloop
      simpa only [FileStep.Short, Nat.zero_add] using writeInode_fault hloop
  · rename_i hnone
    exact absurd hnone htype

theorem FilesInv.fileread_ok (hi : FilesInv s) {fd : Fin nOFile} (n : ℕ) (readi : ℤ)
    (hp : (s.proc p).call = .user) (hfd : (s.proc p).ofile fd = some f) :
    ∃ t, s.fileread p f n readi = .ok t := by
  have htype := (hi.types.proc p).descriptors (by rw [hp]; rfl) hfd
  unfold Files.fileread
  split_ifs with hr
  · exact ⟨_, rfl⟩
  · split
    · rename_i k hk
      obtain ⟨P, hP, -⟩ := hi.ends.open_of_ends (ends_of_file hk rfl)
      obtain ⟨r, s', heq, -⟩ : ∃ r s', s.piperead p k n = .ok (r, s') ∧
        ReadEnd s p k n P r s' := piperead_eq hP
      exact ⟨_, heq⟩
    · exact ⟨_, rfl⟩
    · rename_i hnone
      exact absurd hnone htype

theorem FilesInv.resume_fault (hi : FilesInv s) {e : FileFault}
    (h : execFile (.resume p) s = .error e) : e = .notEnabled := by
  simp only [execFile] at h
  split_ifs at h
  · exact (Except.error.inj h).symm
  split at h
  · rename_i k n rest hp
    obtain ⟨P, hP, -⟩ := hi.uses_open (p := p) (k := k) (w := true) (by rw [hp]; rfl)
    obtain ⟨r, s', heq, -⟩ : ∃ r s', s.pipewrite p k n rest = .ok (r, s') ∧
      WriteEnd s p k n rest P r s' := pipewrite_eq hP
    simp [heq] at h
  · rename_i k n hp
    obtain ⟨P, hP, -⟩ := hi.uses_open (p := p) (k := k) (w := false) (by rw [hp]; rfl)
    obtain ⟨r, s', heq, -⟩ : ∃ r s', s.piperead p k n = .ok (r, s') ∧
      ReadEnd s p k n P r s' := piperead_eq hP
    simp [heq] at h
  · exact (Except.error.inj h).symm

theorem FilesInv.closeNext_fault (hi : FilesInv s) {e : FileFault}
    (h : execFile (.closeNext p) s = .error e) : e = .notEnabled := by
  simp only [execFile] at h
  split at h
  · rename_i k w files exit hp
    obtain ⟨P, hP, -⟩ := hi.ends.open_of_ends (ends_of_pend (p := p) (by rw [hp]; rfl))
    simp [Files.pipeclose, hP] at h
  · rename_i f files exit hp
    obtain ⟨t, ht⟩ := hi.fileclose_ok (refs_of_files (f := f) hp (by simp))
    simp [ht] at h
  · simp at h
  · simp at h
  · exact (Except.error.inj h).symm

/-- No call finds a wrong count, and none uses a pipe that has been freed. -/
theorem FilesInv.fault {a : FileStep} {e : FileFault} (hi : FilesInv s)
    (h : execFile a s = .error e) : e = .notEnabled ∨ e = .short ∧ a.Short := by
  have herr : ∀ {α : Type}, (.error .notEnabled : Except FileFault α) = .error e →
      e = .notEnabled ∨ e = .short ∧ a.Short := fun h => .inl (Except.error.inj h).symm
  cases a with
  | pipe p =>
    simp only [execFile] at h
    split_ifs at h
    · exact herr h
    · split at h <;> simp at h
  | pipeNext p page =>
    simp only [execFile] at h
    split at h
    · split at h <;> simp at h
    · split at h
      · simp at h
      · split_ifs at h
        exact herr h
    · exact herr h
  | openFile p readable writable =>
    simp only [execFile] at h
    split_ifs at h
    · exact herr h
    · split at h
      · simp at h
      · split at h <;> simp at h
  | openEnd p =>
    simp only [execFile] at h
    split at h
    · simp at h
    · exact herr h
  | dup p fd =>
    simp only [execFile] at h
    split_ifs at h
    · exact herr h
    · split at h
      · simp at h
      · rename_i i f hf
        split at h
        · simp at h
        · obtain ⟨t, ht⟩ := hi.filedup_ok (refs_of_ofile (argfd_eq hf))
          simp [ht] at h
  | close p fd =>
    simp only [execFile] at h
    split_ifs at h
    · exact herr h
    · split at h <;> simp at h
  | fork p c =>
    simp only [execFile] at h
    split_ifs at h
    exact herr h
  | forkNext p =>
    simp only [execFile] at h
    split at h
    · split_ifs at h
      split at h
      · simp at h
      · rename_i f hf
        obtain ⟨t, ht⟩ := hi.filedup_ok (refs_of_ofile hf)
        simp [ht] at h
    · exact herr h
  | exit p =>
    simp only [execFile] at h
    split_ifs at h
    exact herr h
  | closeNext p => exact .inl (hi.closeNext_fault h)
  | write p fd addr writei =>
    simp only [execFile] at h
    split_ifs at h with hp
    · exact herr h
    · split at h
      · simp at h
      · rename_i i f hf
        exact hi.filewrite_fault (not_not.mp hp) (argfd_eq hf) h fd
  | read p fd n readi =>
    simp only [execFile] at h
    split_ifs at h with hp
    · exact herr h
    · split at h
      · simp at h
      · rename_i i f hf
        obtain ⟨t, ht⟩ := hi.fileread_ok n readi (not_not.mp hp) (argfd_eq hf)
        simp [ht] at h
  | resume p => exact .inl (hi.resume_fault h)
  | kill p => simp [execFile] at h

end

/-- The process has a descriptor for the end of a pipe, or a call in progress that still has to
close the end or to let go of its file. -/
def Files.Reaches (s : Files) (p : Fin nProc) (k : ℕ) (w : Bool) : Prop :=
  (∃ f, 0 < (s.proc p).refs f ∧ (s.file f).type = .pipe k ∧ (s.file f).writable = w) ∨
    (s.proc p).call.pend = some (k, w)

theorem FilesInv.reached {s : Files} {k : ℕ} {w : Bool} (hi : FilesInv s) (h : s.ends k w ≠ 0) :
    ∃ p, s.Reaches p k w := by
  have hor : ∑ f, (s.file f).endOf k w ≠ 0 ∨ ∑ p, (s.proc p).call.pending k w ≠ 0 := by
    unfold Files.ends at h
    omega
  rcases hor with h | h
  · obtain ⟨f, -, hf⟩ := Finset.exists_ne_zero_of_sum_ne_zero h
    obtain ⟨hk, hw⟩ : (s.file f).type = .pipe k ∧ (s.file f).writable = w := by
      simpa [File.endOf] using hf
    have hpos := (hi.types.file f).counted (by simp [hk])
    have hsum : ∑ p, (s.proc p).refs f ≠ 0 := by
      have href := hi.refs f
      omega
    obtain ⟨p, -, hp⟩ := Finset.exists_ne_zero_of_sum_ne_zero hsum
    exact ⟨p, .inl ⟨f, Nat.pos_of_ne_zero hp, hk, hw⟩⟩
  · obtain ⟨p, -, hp⟩ := Finset.exists_ne_zero_of_sum_ne_zero h
    exact ⟨p, .inr (by simpa [FileCall.pending] using hp)⟩

theorem FilesInv.open_iff {s : Files} (hi : FilesInv s) (k : ℕ) (w : Bool) :
    (∃ P, s.pipe k = some P ∧ P.isOpen w = true) ↔ ∃ p, s.Reaches p k w := by
  constructor
  · rintro ⟨P, hP, hopen⟩
    refine hi.reached ?_
    rw [hi.ends.ends, hP]
    simp [openEnds, hopen]
  · rintro ⟨p, ⟨f, -, hk, hw⟩ | hpend⟩
    · exact hi.ends.open_of_ends (ends_of_file hk hw)
    · exact hi.ends.open_of_ends (ends_of_pend hpend)

/-- Whatever the processes do with their descriptors, in any order, `filedup`, `fileclose`,
`fileread` and `filewrite` never find a reference count or a type that makes them panic, and no pipe
is used after its page has been freed. What is left is the panic of `filewrite` after a short
`writei`; the panics of the inode layer itself are not modelled. -/
theorem files_never_fault {tr : List (Event Files FileStep FileRet)} {s : Files}
    (h : FileRun tr s) (a : FileStep) :
    execFile a s ≠ .error .panic ∧ execFile a s ≠ .error .freed ∧
      (execFile a s = .error .short → a.Short) := by
  have hi := filesInv_of_run h
  refine ⟨fun he => ?_, fun he => ?_, fun he => ?_⟩
  · simpa using hi.fault he
  · simpa using hi.fault he
  · simpa using hi.fault he

/-- A process makes a pipe and forks; its child has both ends too. -/
def sharePipe (p child : Fin nProc) : List FileStep :=
  [.pipe p, .pipeNext p none, .pipeNext p (some (7, fun _ => 0)), .fork p child] ++
    List.replicate 17 (.forkNext p)

theorem files_never_fault_sharePipe : ∃ tr s, FileRun tr s ∧
    ((s.file 0).ref = 2 ∧ (s.proc 1).ofile 1 = some 1) ∧
    ∀ a, execFile a s ≠ .error .panic ∧ execFile a s ≠ .error .freed ∧
      (execFile a s = .error .short → a.Short) := by
  have h : ∃ tr s, FileRun tr s ∧
      decide ((s.file 0).ref = 2 ∧ (s.proc 1).ofile 1 = some 1) = true :=
    Run.exists_of_replayCheck (sharePipe 0 1) rfl (by decide +kernel)
  obtain ⟨tr, s, hrun, hp⟩ := h
  exact ⟨tr, s, hrun, of_decide_eq_true hp, files_never_fault hrun⟩

/-- An end of a pipe is open as long as some process can reach it, and the page of the pipe is in
use as long as one of its ends is open. -/
theorem pipe_stays_while_reached {tr : List (Event Files FileStep FileRet)} {s : Files}
    (h : FileRun tr s) (k : ℕ) :
    (∀ w, (∃ P, s.pipe k = some P ∧ P.isOpen w = true) ↔ ∃ p, s.Reaches p k w) ∧
      (s.pipe k ≠ none ↔ ∃ p w, s.Reaches p k w) := by
  have hi := filesInv_of_run h
  refine ⟨hi.open_iff k, fun hne => ?_, ?_⟩
  · obtain ⟨P, hP⟩ := Option.ne_none_iff_exists'.mp hne
    rcases hi.ends.alive k P hP with hr | hw
    · obtain ⟨p, hp⟩ := (hi.open_iff k false).mp ⟨P, hP, hr⟩
      exact ⟨p, false, hp⟩
    · obtain ⟨p, hp⟩ := (hi.open_iff k true).mp ⟨P, hP, hw⟩
      exact ⟨p, true, hp⟩
  · rintro ⟨p, w, hp⟩
    obtain ⟨P, hP, -⟩ := (hi.open_iff k w).mpr ⟨p, hp⟩
    simp [hP]

theorem pipe_stays_while_reached_sharePipe : ∃ tr s, FileRun tr s ∧ (s.pipe 7).isSome ∧
    ∃ p w, s.Reaches p 7 w := by
  have h : ∃ tr s, FileRun tr s ∧ (s.pipe 7).isSome = true :=
    Run.exists_of_replayCheck (sharePipe 0 1) rfl (by decide +kernel)
  obtain ⟨tr, s, hrun, hp⟩ := h
  exact ⟨tr, s, hrun, hp, (pipe_stays_while_reached hrun 7).2.mp (Option.isSome_iff_ne_none.mp hp)⟩

end SsuOs.Xv6
