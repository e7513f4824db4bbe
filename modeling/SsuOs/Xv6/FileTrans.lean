import SsuOs.Xv6.Files

/-! What a step on the open files can do. -/
namespace SsuOs.Xv6
open SsuOs.Lib Files

section Fields

variable (s : Files) (f g : Fin nFile) (x : File) (p q : Fin nProc) (fp : FProc) (c : FileCall)
  (k l : ℕ) (P : Option Pipe) (ch : PipeChan)

@[simp] theorem Files.setFile_file :
    (s.setFile f x).file g = if g = f then x else s.file g := by
  simp [Files.setFile, Function.update_apply]

@[simp] theorem Files.setFile_proc : (s.setFile f x).proc = s.proc := rfl

@[simp] theorem Files.setProc_file : (s.setProc p fp).file = s.file := rfl

@[simp] theorem Files.setProc_proc :
    (s.setProc p fp).proc q = if q = p then fp else s.proc q := by
  simp [Files.setProc, Function.update_apply]

@[simp] theorem Files.setCall_file : (s.setCall p c).file = s.file := rfl

@[simp] theorem Files.setCall_proc :
    (s.setCall p c).proc q = if q = p then { s.proc p with call := c } else s.proc q :=
  Files.setProc_proc _ _ _ _

@[simp] theorem Files.setCall_pipe : (s.setCall p c).pipe = s.pipe := rfl

@[simp] theorem Files.setPipe_file : (s.setPipe k P).file = s.file := rfl

@[simp] theorem Files.setPipe_pipe :
    (s.setPipe k P).pipe l = if l = k then P else s.pipe l := by
  simp [Files.setPipe, Function.update_apply]

@[simp] theorem Files.setPipe_killed : (s.setPipe k P).killed = s.killed := rfl

@[simp] theorem Files.wakeup_pipe : (s.wakeup k ch).pipe = s.pipe := rfl

@[simp] theorem Files.allocFile_file : (s.allocFile f).file g =
    if g = f then { s.file f with ref := 1 } else s.file g := Files.setFile_file _ _ _ _

variable (data : Fin pipeSize → UInt8)

@[simp] theorem Files.pipealloc_ref (e : Fin nFile) :
    ((s.pipealloc f g k data).file e).ref = (s.file e).ref := by
  simp only [Files.pipealloc, setFile_file, setPipe_file]
  split_ifs <;> simp_all

theorem Files.pipealloc_type (e : Fin nFile) :
    ((s.pipealloc f g k data).file e).type =
      if e = g ∨ e = f then .pipe k else (s.file e).type := by
  simp only [Files.pipealloc, setFile_file, setPipe_file]
  split_ifs <;> simp_all

@[simp] theorem Files.pipealloc_pipe :
    (s.pipealloc f g k data).pipe l = if l = k then some (.init data) else s.pipe l :=
  Files.setPipe_pipe _ _ _ _

end Fields

/-- How a section of `pipewrite` ends. -/
inductive WriteEnd (s : Files) (p : Fin nProc) (k n : ℕ) (rest : List UInt8) (P : Pipe) :
    FileRet → Files → Prop
  | done (hm : (P.fill rest).1 = rest.length) : WriteEnd s p k n rest P (.wrote k rest (some n))
      (((s.setPipe k (some (P.fill rest).2)).wakeup k .nread).setCall p .user)
  | broken (hm : (P.fill rest).1 ≠ rest.length) (hb : P.readopen = false ∨ s.killed p = true) :
      WriteEnd s p k n rest P (.wrote k (rest.take (P.fill rest).1) (some (-1)))
        ((s.setPipe k (some (P.fill rest).2)).setCall p .user)
  | full (hm : (P.fill rest).1 ≠ rest.length) (hr : P.readopen = true)
      (hk : s.killed p = false) :
      WriteEnd s p k n rest P (.wrote k (rest.take (P.fill rest).1) none)
        ((((s.setPipe k (some (P.fill rest).2)).wakeup k .nread).sleep p k .nwrite).setCall p
          (.writing k n (rest.drop (P.fill rest).1)))

/-- How a section of `piperead` ends. -/
inductive ReadEnd (s : Files) (p : Fin nProc) (k n : ℕ) (P : Pipe) : FileRet → Files → Prop
  | killed (he : P.Empty) (hw : P.writeopen = true) (hk : s.killed p = true) :
      ReadEnd s p k n P (.got k [] (some (-1))) (s.setCall p .user)
  | empty (he : P.Empty) (hw : P.writeopen = true) (hk : s.killed p = false) :
      ReadEnd s p k n P (.got k [] none) ((s.sleep p k .nread).setCall p (.reading k n))
  | done (h : ¬(P.Empty ∧ P.writeopen = true)) :
      ReadEnd s p k n P (.got k (P.drain n).1 (some (P.drain n).1.length))
        (((s.setPipe k (some (P.drain n).2)).wakeup k .nwrite).setCall p .user)

section

variable {s s' : Files} {a : FileStep} {r : FileRet} {p : Fin nProc} {k n : ℕ}
  {rest : List UInt8} {P : Pipe}

theorem pipewrite_eq (hP : s.pipe k = some P) :
    ∃ r s', s.pipewrite p k n rest = .ok (r, s') ∧ WriteEnd s p k n rest P r s' := by
  simp only [Files.pipewrite, hP]
  split_ifs with hm hb
  · exact ⟨_, _, rfl, .done hm⟩
  · exact ⟨_, _, rfl, .broken hm hb⟩
  · simp only [setPipe_killed, not_or, Bool.not_eq_false, Bool.not_eq_true] at hb
    exact ⟨_, _, rfl, .full hm hb.1 hb.2⟩

theorem piperead_eq (hP : s.pipe k = some P) :
    ∃ r s', s.piperead p k n = .ok (r, s') ∧ ReadEnd s p k n P r s' := by
  simp only [Files.piperead, hP]
  split_ifs with he hk
  · exact ⟨_, _, rfl, .killed he.1 he.2 hk⟩
  · exact ⟨_, _, rfl, .empty he.1 he.2 (by simpa using hk)⟩
  · exact ⟨_, _, rfl, .done he⟩

theorem pipewrite_cases (h : s.pipewrite p k n rest = .ok (r, s')) :
    ∃ P, s.pipe k = some P ∧ WriteEnd s p k n rest P r s' := by
  cases hP : s.pipe k with
  | none => simp [Files.pipewrite, hP] at h
  | some P =>
    obtain ⟨r', t, ht, hend⟩ : ∃ r s', s.pipewrite p k n rest = .ok (r, s') ∧
        WriteEnd s p k n rest P r s' := pipewrite_eq hP
    obtain ⟨rfl, rfl⟩ := ok_unique_pair h ht
    exact ⟨P, rfl, hend⟩

theorem piperead_cases (h : s.piperead p k n = .ok (r, s')) :
    ∃ P, s.pipe k = some P ∧ ReadEnd s p k n P r s' := by
  cases hP : s.pipe k with
  | none => simp [Files.piperead, hP] at h
  | some P =>
    obtain ⟨r', t, ht, hend⟩ := piperead_eq (p := p) (n := n) hP
    obtain ⟨rfl, rfl⟩ := ok_unique_pair h ht
    exact ⟨P, rfl, hend⟩

end

/-- The calls that come into `pipewrite` or go on in it. -/
inductive EntersWrite (s : Files) (p : Fin nProc) (k : ℕ) : ℕ → List UInt8 → FileStep → Prop
  | call (fd : ℤ) (addr : List UInt8) (writei : List ℤ) (i : Fin nOFile) (f : Fin nFile)
      (hp : (s.proc p).call = .user) (hf : (s.proc p).argfd fd = some (i, f))
      (hw : (s.file f).writable = true) (ht : (s.file f).type = .pipe k) :
      EntersWrite s p k addr.length addr (.write p fd addr writei)
  | resume (n : ℕ) (rest : List UInt8) (hp : (s.proc p).call = .writing k n rest)
      (ha : s.asleep p = none) : EntersWrite s p k n rest (.resume p)

/-- The calls that come into `piperead` or go on in it. -/
inductive EntersRead (s : Files) (p : Fin nProc) (k : ℕ) : ℕ → FileStep → Prop
  | call (fd : ℤ) (n : ℕ) (readi : ℤ) (i : Fin nOFile) (f : Fin nFile)
      (hp : (s.proc p).call = .user) (hf : (s.proc p).argfd fd = some (i, f))
      (hr : (s.file f).readable = true) (ht : (s.file f).type = .pipe k) :
      EntersRead s p k n (.read p fd n readi)
  | resume (n : ℕ) (hp : (s.proc p).call = .reading k n) (ha : s.asleep p = none) :
      EntersRead s p k n (.resume p)

inductive FileTrans (s : Files) : FileStep → FileRet → Files → Prop
  /-- An error, or a call for an inode. -/
  | same (a : FileStep) (v : ℤ) : FileTrans s a (.value v) s
  | alloc (p : Fin nProc) (rf : Fin nFile) (hp : (s.proc p).call = .user)
      (hf : s.freeFile = some rf) :
      FileTrans s (.pipe p) .unit ((s.allocFile rf).setCall p (.pipe1 rf))
  | noFile (p : Fin nProc) (page : Option (ℕ × (Fin pipeSize → UInt8))) (rf : Fin nFile)
      (hp : (s.proc p).call = .pipe1 rf) :
      FileTrans s (.pipeNext p page) .unit (s.setCall p (.closing none [rf] false))
  | alloc₂ (p : Fin nProc) (page : Option (ℕ × (Fin pipeSize → UInt8))) (rf wf : Fin nFile)
      (hp : (s.proc p).call = .pipe1 rf) (hf : s.freeFile = some wf) :
      FileTrans s (.pipeNext p page) .unit ((s.allocFile wf).setCall p (.pipe2 rf wf))
  | noPage (p : Fin nProc) (rf wf : Fin nFile) (hp : (s.proc p).call = .pipe2 rf wf) :
      FileTrans s (.pipeNext p none) .unit (s.setCall p (.closing none [rf, wf] false))
  | noFds (p : Fin nProc) (rf wf : Fin nFile) (k : ℕ) (data : Fin pipeSize → UInt8)
      (hp : (s.proc p).call = .pipe2 rf wf) (hk : s.pipe k = none) :
      FileTrans s (.pipeNext p (some (k, data))) (.made k none)
        ((s.pipealloc rf wf k data).setCall p (.closing none [rf, wf] false))
  | made (p : Fin nProc) (rf wf : Fin nFile) (k : ℕ) (data : Fin pipeSize → UInt8)
      (fd₀ fd₁ : Fin nOFile) (hp : (s.proc p).call = .pipe2 rf wf) (hk : s.pipe k = none)
      (h₀ : fdalloc (s.proc p).ofile = some fd₀)
      (h₁ : fdalloc (Function.update (s.proc p).ofile fd₀ (some rf)) = some fd₁) :
      FileTrans s (.pipeNext p (some (k, data))) (.made k (some (fd₀, fd₁)))
        ((s.pipealloc rf wf k data).setProc p
          ⟨Function.update (Function.update (s.proc p).ofile fd₀ (some rf)) fd₁ (some wf), .user⟩)
  | openNoFd (p : Fin nProc) (readable writable : Bool) (f : Fin nFile)
      (hp : (s.proc p).call = .user) (hf : s.freeFile = some f) :
      FileTrans s (.openFile p readable writable) .unit
        ((s.allocFile f).setCall p (.closing none [f] false))
  | openFile (p : Fin nProc) (readable writable : Bool) (f : Fin nFile) (fd : Fin nOFile)
      (hp : (s.proc p).call = .user) (hf : s.freeFile = some f)
      (hfd : fdalloc (s.proc p).ofile = some fd) :
      FileTrans s (.openFile p readable writable) .unit ((s.allocFile f).setProc p
        ⟨Function.update (s.proc p).ofile fd (some f), .opening f readable writable⟩)
  | openEnd (p : Fin nProc) (f : Fin nFile) (readable writable : Bool)
      (hp : (s.proc p).call = .opening f readable writable) :
      FileTrans s (.openEnd p) .unit ((s.setFile f { s.file f with
        type := .inode, readable := readable, writable := writable }).setCall p .user)
  | dup (p : Fin nProc) (fd : ℤ) (i fd' : Fin nOFile) (f : Fin nFile)
      (hp : (s.proc p).call = .user) (hf : (s.proc p).argfd fd = some (i, f))
      (hfd : fdalloc (s.proc p).ofile = some fd') :
      FileTrans s (.dup p fd) (.value fd')
        ((s.setFile f { s.file f with ref := (s.file f).ref + 1 }).setProc p
          ⟨Function.update (s.proc p).ofile fd' (some f), .user⟩)
  | close (p : Fin nProc) (fd : ℤ) (i : Fin nOFile) (f : Fin nFile)
      (hp : (s.proc p).call = .user) (hf : (s.proc p).argfd fd = some (i, f)) :
      FileTrans s (.close p fd) .unit (s.setProc p
        ⟨Function.update (s.proc p).ofile i none, .closing none [f] false⟩)
  | fork (p c : Fin nProc) (hp : (s.proc p).call = .user) (hc : (s.proc c).call = .unused) :
      FileTrans s (.fork p c) .unit ((s.setCall c .embryo).setCall p (.forking c 0))
  | forkSkip (p c : Fin nProc) (i : Fin nOFile) (hp : (s.proc p).call = .forking c i)
      (hi : (s.proc p).ofile i = none) :
      FileTrans s (.forkNext p) .unit (s.setCall p (.forking c (i + 1)))
  | forkCopy (p c : Fin nProc) (i : Fin nOFile) (f : Fin nFile)
      (hp : (s.proc p).call = .forking c i) (hi : (s.proc p).ofile i = some f) :
      FileTrans s (.forkNext p) .unit
        (((s.setFile f { s.file f with ref := (s.file f).ref + 1 }).setProc c { s.proc c with
          ofile := Function.update (s.proc c).ofile i (some f) }).setCall p (.forking c (i + 1)))
  | forkEnd (p c : Fin nProc) (i : ℕ) (hp : (s.proc p).call = .forking c i) :
      FileTrans s (.forkNext p) .unit ((s.setCall c .user).setCall p .user)
  | exit (p : Fin nProc) (hp : (s.proc p).call = .user) :
      FileTrans s (.exit p) .unit
        (s.setProc p ⟨fun _ => none, .closing none (s.openFiles p) true⟩)
  | closePipe (p : Fin nProc) (k : ℕ) (w : Bool) (files : List (Fin nFile)) (exit : Bool)
      (P : Pipe) (hp : (s.proc p).call = .closing (some (k, w)) files exit)
      (hP : s.pipe k = some P) :
      FileTrans s (.closeNext p) (.closed k w)
        (((s.wakeup k (if w then .nread else .nwrite)).setPipe k
          (if (P.close w).readopen = false ∧ (P.close w).writeopen = false then none
            else some (P.close w))).setCall p (.closing none files exit))
  | unref (p : Fin nProc) (f : Fin nFile) (files : List (Fin nFile)) (exit : Bool)
      (hp : (s.proc p).call = .closing none (f :: files) exit) (href : 1 < (s.file f).ref) :
      FileTrans s (.closeNext p) .unit
        ((s.setFile f { s.file f with ref := (s.file f).ref - 1 }).setCall p
          (.closing none files exit))
  | closeFile (p : Fin nProc) (f : Fin nFile) (files : List (Fin nFile)) (exit : Bool)
      (hp : (s.proc p).call = .closing none (f :: files) exit) (href : (s.file f).ref = 1) :
      FileTrans s (.closeNext p) .unit
        ((s.setFile f { s.file f with ref := 0, type := .none }).setCall p
          (.closing (match (s.file f).type with
            | .pipe k => some (k, (s.file f).writable)
            | _ => none) files exit))
  | gone (p : Fin nProc) (hp : (s.proc p).call = .closing none [] true) :
      FileTrans s (.closeNext p) .unit
        ({ s with killed := Function.update s.killed p false }.setCall p .unused)
  | back (p : Fin nProc) (hp : (s.proc p).call = .closing none [] false) :
      FileTrans s (.closeNext p) .unit (s.setCall p .user)
  | write {a : FileStep} {r : FileRet} {s' : Files} (p : Fin nProc) (k n : ℕ)
      (rest : List UInt8) (P : Pipe) (ha : EntersWrite s p k n rest a) (hP : s.pipe k = some P)
      (h : WriteEnd s p k n rest P r s') : FileTrans s a r s'
  | read {a : FileStep} {r : FileRet} {s' : Files} (p : Fin nProc) (k n : ℕ)
      (P : Pipe) (ha : EntersRead s p k n a) (hP : s.pipe k = some P)
      (h : ReadEnd s p k n P r s') : FileTrans s a r s'
  | kill (p : Fin nProc) : FileTrans s (.kill p) .unit { s with
      killed := Function.update s.killed p true
      asleep := Function.update s.asleep p none }

theorem filedup_ok {s t : Files} {f : Fin nFile} (h : s.filedup f = .ok t) :
    t = s.setFile f { s.file f with ref := (s.file f).ref + 1 } := by
  unfold Files.filedup at h
  split_ifs at h
  exact (Except.ok.inj h).symm

theorem makePipe_trans {s s' : Files} {r : FileRet} {p : Fin nProc} {rf wf : Fin nFile} {k : ℕ}
    {data : Fin pipeSize → UInt8} (hp : (s.proc p).call = .pipe2 rf wf) (hk : s.pipe k = none)
    (h : s.makePipe p rf wf k data = (r, s')) :
    FileTrans s (.pipeNext p (some (k, data))) r s' := by
  unfold Files.makePipe at h
  dsimp only at h
  split at h
  · obtain ⟨rfl, rfl⟩ := Prod.mk.inj h
    exact .noFds p rf wf k data hp hk
  · rename_i fd₀ h₀
    split at h
    · obtain ⟨rfl, rfl⟩ := Prod.mk.inj h
      exact .noFds p rf wf k data hp hk
    · rename_i fd₁ h₁
      obtain ⟨rfl, rfl⟩ := Prod.mk.inj h
      exact .made p rf wf k data fd₀ fd₁ hp hk h₀ h₁

section

variable {s s' : Files} {r : FileRet} {p c : Fin nProc} {fd : ℤ} {n : ℕ} {addr : List UInt8}
  {page : Option (ℕ × (Fin pipeSize → UInt8))} {readable writable : Bool} {writei : List ℤ}
  {readi : ℤ}

theorem execFile_pipe (h : execFile (.pipe p) s = .ok (r, s')) :
    FileTrans s (.pipe p) r s' := by
  simp only [execFile] at h
  split_ifs at h with hp
  rw [ne_eq, not_not] at hp
  split at h
  · obtain ⟨rfl, rfl⟩ := ok_pair_inj h
    exact .same _ _
  · rename_i rf hf
    obtain ⟨rfl, rfl⟩ := ok_pair_inj h
    exact .alloc p rf hp hf

theorem execFile_pipeNext (h : execFile (.pipeNext p page) s = .ok (r, s')) :
    FileTrans s (.pipeNext p page) r s' := by
  simp only [execFile] at h
  split at h
  · rename_i rf hp
    split at h
    · obtain ⟨rfl, rfl⟩ := ok_pair_inj h
      exact .noFile p page rf hp
    · rename_i wf hf
      obtain ⟨rfl, rfl⟩ := ok_pair_inj h
      exact .alloc₂ p page rf wf hp hf
  · rename_i rf wf hp
    split at h
    · obtain ⟨rfl, rfl⟩ := ok_pair_inj h
      exact .noPage p rf wf hp
    · rename_i k data
      split_ifs at h with hk
      exact makePipe_trans hp hk (Except.ok.inj h)
  · simp at h

theorem execFile_openFile (h : execFile (.openFile p readable writable) s = .ok (r, s')) :
    FileTrans s (.openFile p readable writable) r s' := by
  simp only [execFile] at h
  split_ifs at h with hp
  rw [ne_eq, not_not] at hp
  split at h
  · obtain ⟨rfl, rfl⟩ := ok_pair_inj h
    exact .same _ _
  · rename_i f hf
    split at h
    · obtain ⟨rfl, rfl⟩ := ok_pair_inj h
      exact .openNoFd p readable writable f hp hf
    · rename_i fd hfd
      obtain ⟨rfl, rfl⟩ := ok_pair_inj h
      exact .openFile p readable writable f fd hp hf hfd

theorem execFile_openEnd (h : execFile (.openEnd p) s = .ok (r, s')) :
    FileTrans s (.openEnd p) r s' := by
  simp only [execFile] at h
  split at h
  · rename_i f readable writable hp
    obtain ⟨rfl, rfl⟩ := ok_pair_inj h
    exact .openEnd p f readable writable hp
  · simp at h

theorem execFile_dup (h : execFile (.dup p fd) s = .ok (r, s')) :
    FileTrans s (.dup p fd) r s' := by
  simp only [execFile] at h
  split_ifs at h with hp
  rw [ne_eq, not_not] at hp
  split at h
  · obtain ⟨rfl, rfl⟩ := ok_pair_inj h
    exact .same _ _
  · rename_i i f hf
    split at h
    · obtain ⟨rfl, rfl⟩ := ok_pair_inj h
      exact .same _ _
    · rename_i fd' hfd
      obtain ⟨t, ht, h⟩ := bind_eq_ok.mp h
      obtain rfl := filedup_ok ht
      obtain ⟨rfl, rfl⟩ := ok_pair_inj h
      exact .dup p fd i fd' f hp hf hfd

theorem execFile_close (h : execFile (.close p fd) s = .ok (r, s')) :
    FileTrans s (.close p fd) r s' := by
  simp only [execFile] at h
  split_ifs at h with hp
  rw [ne_eq, not_not] at hp
  split at h
  · obtain ⟨rfl, rfl⟩ := ok_pair_inj h
    exact .same _ _
  · rename_i i f hf
    obtain ⟨rfl, rfl⟩ := ok_pair_inj h
    exact .close p fd i f hp hf

theorem execFile_fork (h : execFile (.fork p c) s = .ok (r, s')) :
    FileTrans s (.fork p c) r s' := by
  simp only [execFile] at h
  split_ifs at h with hg
  simp only [not_or, not_not] at hg
  obtain ⟨rfl, rfl⟩ := ok_pair_inj h
  exact .fork p c hg.1 hg.2

theorem execFile_forkNext (h : execFile (.forkNext p) s = .ok (r, s')) :
    FileTrans s (.forkNext p) r s' := by
  simp only [execFile] at h
  split at h
  · rename_i c i hp
    split_ifs at h with hi
    · split at h
      · rename_i hnone
        obtain ⟨rfl, rfl⟩ := ok_pair_inj h
        exact .forkSkip p c ⟨i, hi⟩ hp hnone
      · rename_i f hf
        obtain ⟨t, ht, h⟩ := bind_eq_ok.mp h
        obtain rfl := filedup_ok ht
        obtain ⟨rfl, rfl⟩ := ok_pair_inj h
        exact .forkCopy p c ⟨i, hi⟩ f hp hf
    · obtain ⟨rfl, rfl⟩ := ok_pair_inj h
      exact .forkEnd p c i hp
  · simp at h

theorem execFile_exit (h : execFile (.exit p) s = .ok (r, s')) :
    FileTrans s (.exit p) r s' := by
  simp only [execFile] at h
  split_ifs at h with hp
  rw [ne_eq, not_not] at hp
  obtain ⟨rfl, rfl⟩ := ok_pair_inj h
  exact .exit p hp

theorem execFile_closeNext (h : execFile (.closeNext p) s = .ok (r, s')) :
    FileTrans s (.closeNext p) r s' := by
  simp only [execFile] at h
  split at h
  · rename_i k w files exit hp
    obtain ⟨t, ht, h⟩ := bind_eq_ok.mp h
    obtain ⟨rfl, rfl⟩ := ok_pair_inj h
    unfold Files.pipeclose at ht
    split at ht
    · simp at ht
    · rename_i P hP
      obtain rfl := Except.ok.inj ht
      exact .closePipe p k w files exit P hp hP
  · rename_i f files exit hp
    obtain ⟨⟨pend, t⟩, ht, h⟩ := bind_eq_ok.mp h
    obtain ⟨rfl, rfl⟩ := ok_pair_inj h
    unfold Files.fileclose at ht
    split_ifs at ht with h₁ h₂
    · obtain ⟨rfl, rfl⟩ := ok_pair_inj ht
      exact .unref p f files exit hp (by omega)
    · obtain ⟨rfl, rfl⟩ := ok_pair_inj ht
      exact .closeFile p f files exit hp (by omega)
  · rename_i hp
    obtain ⟨rfl, rfl⟩ := ok_pair_inj h
    exact .gone p hp
  · rename_i hp
    obtain ⟨rfl, rfl⟩ := ok_pair_inj h
    exact .back p hp
  · simp at h

theorem execFile_write (h : execFile (.write p fd addr writei) s = .ok (r, s')) :
    FileTrans s (.write p fd addr writei) r s' := by
  simp only [execFile] at h
  split_ifs at h with hp
  rw [ne_eq, not_not] at hp
  split at h
  · obtain ⟨rfl, rfl⟩ := ok_pair_inj h
    exact .same _ _
  · rename_i i f hf
    unfold Files.filewrite at h
    split_ifs at h with hw
    · obtain ⟨rfl, rfl⟩ := ok_pair_inj h
      exact .same _ _
    · split at h
      · rename_i k ht
        obtain ⟨P, hP, hend⟩ := pipewrite_cases h
        exact .write p k _ _ P (.call fd addr writei i f hp hf (by simpa using hw) ht) hP hend
      · obtain ⟨v, -, h⟩ := map_eq_ok.mp h
        obtain ⟨rfl, rfl⟩ := Prod.mk.inj h
        exact .same _ _
      · simp at h

theorem execFile_read (h : execFile (.read p fd n readi) s = .ok (r, s')) :
    FileTrans s (.read p fd n readi) r s' := by
  simp only [execFile] at h
  split_ifs at h with hp
  rw [ne_eq, not_not] at hp
  split at h
  · obtain ⟨rfl, rfl⟩ := ok_pair_inj h
    exact .same _ _
  · rename_i i f hf
    unfold Files.fileread at h
    split_ifs at h with hr
    · obtain ⟨rfl, rfl⟩ := ok_pair_inj h
      exact .same _ _
    · split at h
      · rename_i k ht
        obtain ⟨P, hP, hend⟩ := piperead_cases h
        exact .read p k n P (.call fd n readi i f hp hf (by simpa using hr) ht) hP hend
      · obtain ⟨rfl, rfl⟩ := ok_pair_inj h
        exact .same _ _
      · simp at h

theorem execFile_resume (h : execFile (.resume p) s = .ok (r, s')) :
    FileTrans s (.resume p) r s' := by
  simp only [execFile] at h
  split_ifs at h with ha
  rw [ne_eq, not_not] at ha
  split at h
  · rename_i k n rest hp
    obtain ⟨P, hP, hend⟩ := pipewrite_cases h
    exact .write p k n rest P (.resume n rest hp ha) hP hend
  · rename_i k n hp
    obtain ⟨P, hP, hend⟩ := piperead_cases h
    exact .read p k n P (.resume n hp ha) hP hend
  · simp at h

theorem execFile_kill (h : execFile (.kill p) s = .ok (r, s')) :
    FileTrans s (.kill p) r s' := by
  obtain ⟨rfl, rfl⟩ := ok_pair_inj h
  exact .kill p

theorem execFile_trans {a : FileStep} (h : execFile a s = .ok (r, s')) : FileTrans s a r s' := by
  cases a with
  | pipe p => exact execFile_pipe h
  | pipeNext p page => exact execFile_pipeNext h
  | openFile p readable writable => exact execFile_openFile h
  | openEnd p => exact execFile_openEnd h
  | dup p fd => exact execFile_dup h
  | close p fd => exact execFile_close h
  | fork p c => exact execFile_fork h
  | forkNext p => exact execFile_forkNext h
  | exit p => exact execFile_exit h
  | closeNext p => exact execFile_closeNext h
  | write p fd addr writei => exact execFile_write h
  | read p fd n readi => exact execFile_read h
  | resume p => exact execFile_resume h
  | kill p => exact execFile_kill h

end

end SsuOs.Xv6
