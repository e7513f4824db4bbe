import SsuOs.Xv6.FileRefs

/-! The types of the open files and the two ends of every pipe, in every run: an end is open as
long as some file stands for it. -/
namespace SsuOs.Xv6
open SsuOs.Lib Files

/-- The end of a pipe that a call uses. -/
def FileCall.uses : FileCall → Option (ℕ × Bool)
  | .writing k _ _ => some (k, true)
  | .reading k _ => some (k, false)
  | _ => none

/-- The end of a pipe that a call is going to close. -/
def FileCall.pend : FileCall → Option (ℕ × Bool)
  | .closing pend _ _ => pend
  | _ => none

/-- The files of a process have their types, apart from those it has only allocated, which are
its own. -/
structure FProc.Typed (fp : FProc) (file : Fin nFile → File) : Prop where
  fresh : ∀ f ∈ fp.call.fresh, 0 < fp.refs f ∧ (file f).type = .none ∧ (file f).ref = 1
  typed : ∀ fd f, fp.ofile fd = some f → f ∉ fp.call.fresh → (file f).type ≠ .none
  uses : ∀ k w, fp.call.uses = some (k, w) → ∃ fd f, fp.ofile fd = some f ∧
    (file f).type = .pipe k ∧ (file f).writable = w

/-- A file of a pipe is for reading or for writing, and a file with a type is in use. -/
structure File.Ok (x : File) : Prop where
  sides : ∀ k, x.type = .pipe k → x.readable = !x.writable
  counted : x.type ≠ .none → 0 < x.ref

structure TypeInv (s : Files) : Prop where
  proc : ∀ p, (s.proc p).Typed s.file
  file : ∀ f, (s.file f).Ok

def File.endOf (x : File) (k : ℕ) (w : Bool) : ℕ :=
  if x.type = .pipe k ∧ x.writable = w then 1 else 0

def FileCall.pending (c : FileCall) (k : ℕ) (w : Bool) : ℕ := if c.pend = some (k, w) then 1 else 0

/-- The files and the calls that stand for an end of a pipe. -/
def Files.ends (s : Files) (k : ℕ) (w : Bool) : ℕ :=
  ∑ f, (s.file f).endOf k w + ∑ p, (s.proc p).call.pending k w

def openEnds (P : Option Pipe) (w : Bool) : ℕ :=
  match P with
  | some P => if P.isOpen w then 1 else 0
  | none => 0

/-- One file or one call stands for each end that is open, and a pipe has an open end. -/
structure EndInv (s : Files) : Prop where
  ends : ∀ k w, s.ends k w = openEnds (s.pipe k) w
  alive : ∀ k P, s.pipe k = some P → P.readopen = true ∨ P.writeopen = true

section Frame

variable {s s' : Files} {p q : Fin nProc} {fp : FProc} {f g : Fin nFile}
  {file file' : Fin nFile → File}

/-- A file keeps its type and its sole owner. -/
structure File.Kept (x x' : File) : Prop where
  type : x'.type = x.type
  writable : x'.writable = x.writable
  sole : x.ref = 1 → x'.ref = 1

theorem File.Kept.refl (x : File) : x.Kept x := ⟨rfl, rfl, id⟩

theorem FProc.Typed.frame (h : fp.Typed file) (hk : ∀ f, 0 < fp.refs f → (file f).Kept (file' f)) :
    fp.Typed file' := by
  have hdesc : ∀ {fd f}, fp.ofile fd = some f → 0 < fp.refs f := fun hfd =>
    Nat.add_pos_left (descriptors_pos hfd) _
  refine ⟨fun f hf => ?_, fun fd f hfd hf => ?_, fun k w hu => ?_⟩
  · obtain ⟨hpos, htype, href⟩ := h.fresh f hf
    exact ⟨hpos, (hk f hpos).type.trans htype, (hk f hpos).sole href⟩
  · rw [(hk f (hdesc hfd)).type]
    exact h.typed fd f hfd hf
  · obtain ⟨fd, f, hfd, ht, hw⟩ := h.uses k w hu
    have hkf := hk f (hdesc hfd)
    exact ⟨fd, f, hfd, hkf.type.trans ht, hkf.writable.trans hw⟩

theorem FProc.Typed.plain (hfresh : fp.call.fresh = []) (huses : fp.call.uses = none)
    (h : ∀ fd f, fp.ofile fd = some f → (file f).type ≠ .none) : fp.Typed file := by
  refine ⟨fun f hf => ?_, fun fd f hfd _ => h fd f hfd, fun k w hu => ?_⟩
  · simp [hfresh] at hf
  · simp [huses] at hu

theorem FProc.Typed.descriptors (h : fp.Typed file) (hfresh : fp.call.fresh = []) {fd : Fin nOFile}
    (hfd : fp.ofile fd = some f) : (file f).type ≠ .none :=
  h.typed fd f hfd (by simp [hfresh])

theorem TypeInv.free (hi : TypeInv s) (h : s.freeFile = some f) : (s.file f).type = .none := by
  by_contra hne
  have hpos := (hi.file f).counted hne
  rw [freeFile_free h] at hpos
  exact lt_irrefl _ hpos

def FileStep.actor : FileStep → Fin nProc
  | .pipe p | .pipeNext p _ | .openFile p _ _ | .openEnd p | .dup p _ | .close p _ | .fork p _
  | .forkNext p | .exit p | .closeNext p | .write p _ _ _ | .read p _ _ _ | .resume p | .kill p => p

theorem RefInv.not_sole (hr : RefInv s) (hp : 0 < (s.proc p).refs f) (hq : 0 < (s.proc q).refs f)
    (hqp : q ≠ p) : (s.file f).ref ≠ 1 := by
  intro h1
  have h0 := hr.only (p := p) (q := q) (f := f) (by omega) hqp
  omega

theorem refs_of_files {c : FileCall} (hp : (s.proc p).call = c) (hf : f ∈ c.files) :
    0 < (s.proc p).refs f := by
  rw [refs_eq hp]
  exact Nat.add_pos_right _ (List.count_pos_iff.mpr hf)

theorem Kept.setFile {x : File} (h : g ≠ f ∨ (s.file g).Kept x) :
    (s.file g).Kept ((s.setFile f x).file g) := by
  rw [setFile_file]
  split_ifs with hg
  · exact h.resolve_left (not_not.mpr hg)
  · exact .refl _

theorem Kept.setRef {n : ℤ} (h : g = f → (s.file f).ref ≠ 1) :
    (s.file g).Kept ((s.setFile f { s.file f with ref := n }).file g) := by
  by_cases hg : g = f
  · subst hg
    exact Kept.setFile (.inr ⟨rfl, rfl, fun h1 => absurd h1 (h rfl)⟩)
  · exact Kept.setFile (.inl hg)

theorem WriteEnd.kept {k n : ℕ} {rest : List UInt8} {P : Pipe} {r : FileRet}
    (h : WriteEnd s p k n rest P r s') (f : Fin nFile) : (s.file f).Kept (s'.file f) := by
  rw [h.proc_eq.1]
  exact .refl _

theorem ReadEnd.kept {k n : ℕ} {P : Pipe} {r : FileRet} (h : ReadEnd s p k n P r s')
    (f : Fin nFile) : (s.file f).Kept (s'.file f) := by
  rw [h.proc_eq.1]
  exact .refl _

/-- A file that is one process's own is not touched by the steps of the others, and one that they
share keeps its type. -/
theorem FileTrans.kept {a : FileStep} {r : FileRet} (h : FileTrans s a r s') (hr : RefInv s)
    (ht : TypeInv s) (hq : q ≠ a.actor) (hg : 0 < (s.proc q).refs g) :
    (s.file g).Kept (s'.file g) := by
  have hfree : ∀ {f}, s.freeFile = some f → g ≠ f := by
    rintro f hf rfl
    have h0 := hr.nobody (freeFile_free hf) q
    omega
  have hown : ∀ {p f}, q ≠ p → 0 < (s.proc p).refs f → (s.file f).ref = 1 → g ≠ f := by
    rintro p f hqp hpf h1 rfl
    exact hr.not_sole hpf hg hqp h1
  have hfresh : ∀ {p c f}, q ≠ p → (s.proc p).call = c → f ∈ c.fresh → g ≠ f := by
    rintro p _ f hqp rfl hf
    obtain ⟨hpf, -, h1⟩ := (ht.proc p).fresh f hf
    exact hown hqp hpf h1
  cases h with
  | same a v => exact .refl _
  | alloc p rf hp hf => exact Kept.setFile (.inl (hfree hf))
  | noFile p page rf hp => exact .refl _
  | alloc₂ p page rf wf hp hf => exact Kept.setFile (.inl (hfree hf))
  | noPage p rf wf hp => exact .refl _
  | noFds p rf wf k data hp hk | made p rf wf k data fd₀ fd₁ hp hk h₀ h₁ =>
    have hrf : g ≠ rf := hfresh hq hp (by simp [FileCall.fresh])
    have hwf : g ≠ wf := hfresh hq hp (by simp [FileCall.fresh])
    have hkeep : (s.pipealloc rf wf k data).file g = s.file g := by
      simp [Files.pipealloc, hrf, hwf]
    exact hkeep ▸ .refl _
  | openNoFd p readable writable f hp hf => exact Kept.setFile (.inl (hfree hf))
  | openFile p readable writable f fd hp hf hfd => exact Kept.setFile (.inl (hfree hf))
  | openEnd p f readable writable hp =>
    exact Kept.setFile (.inl (hfresh hq hp (by simp [FileCall.fresh])))
  | dup p fd i fd' f hp hf hfd =>
    refine Kept.setRef ?_
    rintro rfl
    exact hr.not_sole (refs_of_ofile (argfd_eq hf)) hg hq
  | close p fd i f hp hf => exact .refl _
  | fork p c hp hc => exact .refl _
  | forkSkip p c i hp hn => exact .refl _
  | forkCopy p c i f hp hf =>
    refine Kept.setRef ?_
    rintro rfl
    exact hr.not_sole (refs_of_ofile hf) hg hq
  | forkEnd p c i hp => exact .refl _
  | exit p hp => exact .refl _
  | closePipe p k w files exit P hp hP => exact .refl _
  | unref p f files exit hp href => exact Kept.setRef fun _ => by omega
  | closeFile p f files exit hp href =>
    exact Kept.setFile (.inl (hown hq (refs_of_files hp (by simp)) href))
  | gone p hp => exact .refl _
  | back p hp => exact .refl _
  | write p k n rest P ha hP h => exact h.kept g
  | read p k n P ha hP h => exact h.kept g
  | kill p => exact .refl _

theorem File.Ok.setFile {x : File} (h : ∀ g, (s.file g).Ok) (hx : x.Ok) (g : Fin nFile) :
    ((s.setFile f x).file g).Ok := by
  rw [setFile_file]
  split_ifs
  · exact hx
  · exact h g

theorem File.Ok.setRef {x : File} {n : ℤ} (h : x.Ok) (hn : 0 < n) : File.Ok { x with ref := n } :=
  ⟨h.sides, fun _ => hn⟩

theorem File.Ok.pipealloc {rf wf : Fin nFile} {k : ℕ} {data : Fin pipeSize → UInt8}
    (h : ∀ g, (s.file g).Ok) (hrf : 0 < (s.file rf).ref) (hwf : 0 < (s.file wf).ref)
    (g : Fin nFile) : ((s.pipealloc rf wf k data).file g).Ok := by
  refine File.Ok.setFile (fun g => File.Ok.setFile h ?_ g) ?_ g
  · exact ⟨fun _ _ => rfl, fun _ => hrf⟩
  · refine ⟨fun _ _ => rfl, fun _ => ?_⟩
    dsimp only
    rw [setFile_ref]
    split_ifs
    · exact hrf
    · exact hwf

theorem TypeInv.setProc (ht : TypeInv s) (hproc : s'.proc = (s.setProc p fp).proc)
    (hkept : ∀ q g, q ≠ p → 0 < (s.proc q).refs g → (s.file g).Kept (s'.file g))
    (hfp : fp.Typed s'.file) (hfile : ∀ g, (s'.file g).Ok) : TypeInv s' := by
  refine ⟨fun q => ?_, hfile⟩
  rw [hproc, setProc_proc]
  split_ifs with hq
  · exact hfp
  · exact (ht.proc q).frame fun g hg => hkept q g hq hg

theorem TypeInv.call {c : FileCall} (ht : TypeInv s) (hproc : s'.proc = (s.setCall p c).proc)
    (hkept : ∀ q g, q ≠ p → 0 < (s.proc q).refs g → (s.file g).Kept (s'.file g))
    (hold : (s.proc p).call.fresh = []) (hfresh : c.fresh = []) (huses : c.uses = none)
    (htype : ∀ fd f, (s.proc p).ofile fd = some f → (s'.file f).type = (s.file f).type)
    (hfile : ∀ g, (s'.file g).Ok) : TypeInv s' := by
  refine ht.setProc hproc hkept (.plain hfresh huses fun fd f hfd => ?_) hfile
  rw [htype fd f hfd]
  exact (ht.proc p).descriptors hold hfd

/-- The last reference to a file is in the call, so no descriptor refers to it. -/
theorem RefInv.not_descriptor {c : FileCall} (hr : RefInv s) (hp : (s.proc p).call = c)
    (hf : f ∈ c.files) (h1 : (s.file f).ref = 1) {fd : Fin nOFile}
    (hfd : (s.proc p).ofile fd = some g) : g ≠ f := by
  rintro rfl
  have hle := hr.le p g
  have hdesc := descriptors_pos hfd
  have hcount := List.count_pos_iff.mpr hf
  rw [refs_eq hp] at hle
  omega

theorem TypeInv.pipealloc_descriptors {c : FileCall} (ht : TypeInv s) (hr : RefInv s)
    (hp : (s.proc p).call = c) (hfiles : c.fresh ⊆ c.files) {fd : Fin nOFile}
    (hfd : (s.proc p).ofile fd = some f) : (s.file f).type ≠ .none := by
  subst hp
  refine (ht.proc p).typed fd f hfd fun hf => ?_
  exact hr.not_descriptor rfl (hfiles hf) ((ht.proc p).fresh f hf).2.2 hfd rfl

theorem EntersWrite.uses {a : FileStep} {k n : ℕ} {rest : List UInt8}
    (h : EntersWrite s p k n rest a) (ht : TypeInv s) : (s.proc p).call.fresh = [] ∧
      ∃ fd f, (s.proc p).ofile fd = some f ∧ (s.file f).type = .pipe k ∧
        (s.file f).writable = true := by
  cases h with
  | call fd addr writei i f hp hf hw htype =>
    exact ⟨by rw [hp]; rfl, i, f, argfd_eq hf, htype, hw⟩
  | resume n rest hp ha => exact ⟨by rw [hp]; rfl, (ht.proc p).uses k true (by rw [hp]; rfl)⟩

theorem EntersRead.uses {a : FileStep} {k n : ℕ} (h : EntersRead s p k n a) (ht : TypeInv s) :
    (s.proc p).call.fresh = [] ∧ ∃ fd f, (s.proc p).ofile fd = some f ∧
      (s.file f).type = .pipe k ∧ (s.file f).writable = false := by
  cases h with
  | call fd n readi i f hp hf hread htype =>
    have hside := (ht.file f).sides k htype
    rw [hread] at hside
    exact ⟨by rw [hp]; rfl, i, f, argfd_eq hf, htype, by simpa using hside.symm⟩
  | resume n hp ha => exact ⟨by rw [hp]; rfl, (ht.proc p).uses k false (by rw [hp]; rfl)⟩

theorem WriteEnd.uses {k n : ℕ} {rest : List UInt8} {P : Pipe} {r : FileRet}
    (h : WriteEnd s p k n rest P r s') : ∃ c : FileCall, s'.proc = (s.setCall p c).proc ∧
      c.fresh = [] ∧ ∀ l w, c.uses = some (l, w) → l = k ∧ w = true := by
  cases h with
  | done hm => exact ⟨.user, rfl, rfl, by simp [FileCall.uses]⟩
  | broken hm hb => exact ⟨.user, rfl, rfl, by simp [FileCall.uses]⟩
  | full hm hr hk => exact ⟨.writing k n _, rfl, rfl, by simp [FileCall.uses, eq_comm]⟩

theorem ReadEnd.uses {k n : ℕ} {P : Pipe} {r : FileRet} (h : ReadEnd s p k n P r s') :
    ∃ c : FileCall, s'.proc = (s.setCall p c).proc ∧ c.fresh = [] ∧
      ∀ l w, c.uses = some (l, w) → l = k ∧ w = false := by
  cases h with
  | killed he hw hk => exact ⟨.user, rfl, rfl, by simp [FileCall.uses]⟩
  | empty he hw hk => exact ⟨.reading k n, rfl, rfl, by simp [FileCall.uses, eq_comm]⟩
  | done h => exact ⟨.user, rfl, rfl, by simp [FileCall.uses]⟩

/-- A process goes into a section of a pipe or comes out of it, with its descriptors as they
were. -/
theorem TypeInv.io {k : ℕ} {w : Bool} {c : FileCall} (ht : TypeInv s)
    (hfile : s'.file = s.file) (hproc : s'.proc = (s.setCall p c).proc)
    (hold : (s.proc p).call.fresh = []) (hfresh : c.fresh = [])
    (huses : ∀ l w', c.uses = some (l, w') → l = k ∧ w' = w)
    (hend : ∃ fd f, (s.proc p).ofile fd = some f ∧ (s.file f).type = .pipe k ∧
      (s.file f).writable = w) : TypeInv s' := by
  refine ht.setProc hproc (fun q g _ _ => hfile ▸ .refl _) ⟨?_, ?_, ?_⟩ (hfile ▸ ht.file)
  · intro f hf
    simp [hfresh] at hf
  · intro fd f hfd _
    rw [hfile]
    exact (ht.proc p).descriptors hold hfd
  · intro l w' hu
    obtain ⟨rfl, rfl⟩ := huses l w' hu
    rw [hfile]
    exact hend

theorem FileTrans.fileOk {a : FileStep} {r : FileRet} (h : FileTrans s a r s') (hr : RefInv s)
    (ht : TypeInv s) : ∀ g, (s'.file g).Ok := by
  have halloc : ∀ f g, ((s.allocFile f).file g).Ok := fun f =>
    File.Ok.setFile ht.file ((ht.file f).setRef one_pos)
  have hshared : ∀ {p fd f}, (s.proc p).ofile fd = some f → ∀ g,
      ((s.setFile f { s.file f with ref := (s.file f).ref + 1 }).file g).Ok := by
    intro p fd f hfd
    have hle := hr.le p f
    have hpos := refs_of_ofile hfd
    exact File.Ok.setFile ht.file ((ht.file f).setRef (by omega))
  have hfresh : ∀ {p c f}, (s.proc p).call = c → f ∈ c.fresh → 0 < (s.file f).ref := by
    rintro p _ f rfl hf
    have href := ((ht.proc p).fresh f hf).2.2
    omega
  cases h with
  | same a v => exact ht.file
  | alloc p rf hp hf => exact halloc rf
  | noFile p page rf hp => exact ht.file
  | alloc₂ p page rf wf hp hf => exact halloc wf
  | noPage p rf wf hp => exact ht.file
  | noFds p rf wf k data hp hk | made p rf wf k data fd₀ fd₁ hp hk h₀ h₁ =>
    exact File.Ok.pipealloc ht.file (hfresh hp (by simp [FileCall.fresh]))
      (hfresh hp (by simp [FileCall.fresh]))
  | openNoFd p readable writable f hp hf => exact halloc f
  | openFile p readable writable f fd hp hf hfd => exact halloc f
  | openEnd p f readable writable hp =>
    exact File.Ok.setFile ht.file ⟨by simp, fun _ => hfresh hp (by simp [FileCall.fresh])⟩
  | dup p fd i fd' f hp hf hfd => exact hshared (argfd_eq hf)
  | close p fd i f hp hf => exact ht.file
  | fork p c hp hunused => exact ht.file
  | forkSkip p c i hp hn => exact ht.file
  | forkCopy p c i f hp hf => exact hshared hf
  | forkEnd p c i hp => exact ht.file
  | exit p hp => exact ht.file
  | closePipe p k w files exit P hp hP => exact ht.file
  | unref p f files exit hp href =>
    exact File.Ok.setFile ht.file ((ht.file f).setRef (by omega))
  | closeFile p f files exit hp href => exact File.Ok.setFile ht.file ⟨by simp, by simp⟩
  | gone p hp => exact ht.file
  | back p hp => exact ht.file
  | write p k n rest P ha hP h => exact h.proc_eq.1 ▸ ht.file
  | read p k n P ha hP h => exact h.proc_eq.1 ▸ ht.file
  | kill p => exact ht.file

theorem setRef_type (s : Files) (f g : Fin nFile) (n : ℤ) :
    ((s.setFile f { s.file f with ref := n }).file g).type = (s.file g).type := by
  by_cases hg : g = f <;> simp [hg]

theorem TypeInv.user_descriptors (ht : TypeInv s) (hp : (s.proc p).call = .user)
    {fd : Fin nOFile} (hfd : (s.proc p).ofile fd = some f) : (s.file f).type ≠ .none :=
  (ht.proc p).descriptors (by rw [hp]; rfl) hfd

theorem TypeInv.pipe1 {rf : Fin nFile} (ht : TypeInv s) (hp : (s.proc p).call = .user)
    (hf : s.freeFile = some rf) :
    FProc.Typed ⟨(s.proc p).ofile, .pipe1 rf⟩ (s.allocFile rf).file := by
  refine ⟨fun f hfresh => ?_, fun fd f hfd _ => ?_, by simp [FileCall.uses]⟩
  · obtain rfl := List.mem_singleton.mp hfresh
    refine ⟨Nat.add_pos_right _ (by simp), ?_, ?_⟩ <;> simp [ht.free hf]
  · rw [Files.allocFile, setRef_type]
    exact ht.user_descriptors hp hfd

theorem TypeInv.pipe2 {rf wf : Fin nFile} (ht : TypeInv s) (hr : RefInv s)
    (hp : (s.proc p).call = .pipe1 rf) (hf : s.freeFile = some wf) :
    FProc.Typed ⟨(s.proc p).ofile, .pipe2 rf wf⟩ (s.allocFile wf).file := by
  have hrf := (ht.proc p).fresh rf (by rw [hp]; simp [FileCall.fresh])
  have hne : rf ≠ wf := by
    rintro rfl
    rw [freeFile_free hf] at hrf
    simp at hrf
  refine ⟨fun f hfresh => ?_, fun fd f hfd _ => ?_, by simp [FileCall.uses]⟩
  · refine ⟨Nat.add_pos_right _ (List.count_pos_iff.mpr hfresh), ?_⟩
    rcases List.mem_pair.mp hfresh with rfl | rfl
    · simpa [hne] using hrf.2
    · simp [ht.free hf]
  · rw [Files.allocFile, setRef_type]
    exact ht.pipealloc_descriptors hr hp (by simp [FileCall.fresh]) hfd

theorem pipealloc_typed {rf wf : Fin nFile} {k : ℕ} {data : Fin pipeSize → UInt8}
    (hf : (s.file f).type ≠ .none ∨ f = wf ∨ f = rf) :
    ((s.pipealloc rf wf k data).file f).type ≠ .none := by
  rw [pipealloc_type]
  split_ifs with hor
  · simp
  · exact hf.resolve_right hor

theorem TypeInv.made {rf wf : Fin nFile} {k : ℕ} {data : Fin pipeSize → UInt8}
    {fd₀ fd₁ : Fin nOFile} (ht : TypeInv s) (hr : RefInv s)
    (hp : (s.proc p).call = .pipe2 rf wf) :
    FProc.Typed ⟨Function.update (Function.update (s.proc p).ofile fd₀ (some rf)) fd₁ (some wf),
      .user⟩ (s.pipealloc rf wf k data).file := by
  refine .plain rfl rfl fun fd f hfd => pipealloc_typed ?_
  dsimp only at hfd
  rw [Function.update_apply, Function.update_apply] at hfd
  split_ifs at hfd
  · exact .inr (.inl (Option.some.inj hfd).symm)
  · exact .inr (.inr (Option.some.inj hfd).symm)
  · exact .inl (ht.pipealloc_descriptors hr hp (by simp [FileCall.fresh]) hfd)

theorem TypeInv.opening {fd : Fin nOFile} {readable writable : Bool} (ht : TypeInv s)
    (hp : (s.proc p).call = .user) (hf : s.freeFile = some f) :
    FProc.Typed ⟨Function.update (s.proc p).ofile fd (some f), .opening f readable writable⟩
      (s.allocFile f).file := by
  refine ⟨fun g hg => ?_, fun fd' g hfd' hne => ?_, by simp [FileCall.uses]⟩
  · obtain rfl := List.mem_singleton.mp hg
    have hpos : 0 < descriptors (Function.update (s.proc p).ofile fd (some g)) g :=
      descriptors_pos (Function.update_self fd (some g) (s.proc p).ofile)
    refine ⟨Nat.add_pos_left hpos _, ?_, ?_⟩ <;> simp [ht.free hf]
  · dsimp only at hfd'
    rw [Function.update_apply] at hfd'
    split_ifs at hfd'
    · exact absurd (by simp [FileCall.fresh, Option.some.inj hfd']) hne
    · rw [Files.allocFile, setRef_type]
      exact ht.user_descriptors hp hfd'

theorem TypeInv.opened {readable writable : Bool} (ht : TypeInv s)
    (hp : (s.proc p).call = .opening f readable writable) :
    FProc.Typed ⟨(s.proc p).ofile, .user⟩ (s.setFile f { s.file f with
      type := .inode, readable := readable, writable := writable }).file := by
  refine .plain rfl rfl fun fd g hfd => ?_
  by_cases hg : g = f
  · simp [hg]
  · simpa [hg] using (ht.proc p).typed fd g hfd (by simp [hp, FileCall.fresh, hg])

theorem TypeInv.dup {fd fd' : Fin nOFile} {n : ℤ} (ht : TypeInv s)
    (hp : (s.proc p).call = .user) (hf : (s.proc p).ofile fd = some f) :
    FProc.Typed ⟨Function.update (s.proc p).ofile fd' (some f), .user⟩
      (s.setFile f { s.file f with ref := n }).file := by
  refine .plain rfl rfl fun fd₁ g hfd₁ => ?_
  rw [setRef_type]
  dsimp only at hfd₁
  rw [Function.update_apply] at hfd₁
  split_ifs at hfd₁
  · obtain rfl := Option.some.inj hfd₁
    exact ht.user_descriptors hp hf
  · exact ht.user_descriptors hp hfd₁

theorem TypeInv.closed {i : Fin nOFile} {files : List (Fin nFile)} (ht : TypeInv s)
    (hp : (s.proc p).call = .user) :
    FProc.Typed ⟨Function.update (s.proc p).ofile i none, .closing none files false⟩ s.file := by
  refine .plain rfl rfl fun fd' g hfd' => ?_
  dsimp only at hfd'
  rw [Function.update_apply] at hfd'
  split_ifs at hfd'
  exact ht.user_descriptors hp hfd'

section Fork

variable {c : Fin nProc}

theorem TypeInv.fork (ht : TypeInv s) (hc : ChildInv s) (hp : (s.proc p).call = .user)
    (hunused : (s.proc c).call = .unused) :
    TypeInv ((s.setCall c .embryo).setCall p (.forking c 0)) := by
  refine ⟨fun q => ?_, ht.file⟩
  simp only [setCall_proc]
  split_ifs with hqp hpc hqc
  · exact .plain rfl rfl fun fd f hfd => by simp [hc.unused c hunused fd] at hfd
  · exact .plain rfl rfl fun fd f hfd => ht.user_descriptors hp hfd
  · exact .plain rfl rfl fun fd f hfd => by simp [hc.unused c hunused fd] at hfd
  · exact ht.proc q

theorem TypeInv.forkCopy {i : Fin nOFile} {n : ℤ} (ht : TypeInv s) (hc : ChildInv s)
    (hp : (s.proc p).call = .forking c i) (hf : (s.proc p).ofile i = some f)
    (hs : s' = ((s.setFile f { s.file f with ref := n }).setProc c { s.proc c with
      ofile := Function.update (s.proc c).ofile i (some f) }).setCall p (.forking c (i + 1)))
    (hkept : ∀ q g, q ≠ p → 0 < (s.proc q).refs g → (s.file g).Kept (s'.file g))
    (hok : ∀ g, (s'.file g).Ok) : TypeInv s' := by
  have hemb := (hc.embryo p c i hp).1
  have hcall : (s.proc c).call.fresh = [] := by rw [hemb]; rfl
  have hparent : ∀ {fd g}, (s.proc p).ofile fd = some g → (s.file g).type ≠ .none :=
    fun hfd => (ht.proc p).descriptors (by rw [hp]; rfl) hfd
  have htype : ∀ g, (s'.file g).type = (s.file g).type := fun g => hs ▸ setRef_type s f g n
  refine ⟨fun q => ?_, hok⟩
  have hproc : s'.proc q = if q = p then ⟨(s.proc p).ofile, .forking c (i + 1)⟩ else
      if q = c then ⟨Function.update (s.proc c).ofile i (some f), .embryo⟩ else s.proc q := by
    simp only [hs, setCall_proc, setProc_proc, if_neg (hc.ne hp), setFile_proc, hemb]
  rw [hproc]
  split_ifs with hqp hqc
  · exact .plain rfl rfl fun fd g hfd => htype g ▸ hparent hfd
  · refine .plain rfl rfl fun fd g hfd => ?_
    rw [htype]
    dsimp only at hfd
    rw [Function.update_apply] at hfd
    split_ifs at hfd
    · obtain rfl := Option.some.inj hfd
      exact hparent hf
    · exact (ht.proc c).descriptors hcall hfd
  · exact (ht.proc q).frame fun g hg => hkept q g hqp hg

theorem TypeInv.forkEnd {i : ℕ} (ht : TypeInv s) (hc : ChildInv s)
    (hp : (s.proc p).call = .forking c i) :
    TypeInv ((s.setCall c .user).setCall p .user) := by
  have hemb := (hc.embryo p c i hp).1
  refine ⟨fun q => ?_, ht.file⟩
  simp only [setCall_proc, if_neg (hc.ne hp)]
  split_ifs with hqp hqc
  · exact .plain rfl rfl fun fd f hfd => (ht.proc p).descriptors (by rw [hp]; rfl) hfd
  · exact .plain rfl rfl fun fd f hfd => (ht.proc c).descriptors (by rw [hemb]; rfl) hfd
  · exact ht.proc q

end Fork

theorem FileTrans.typeInv {a : FileStep} {r : FileRet} (h : FileTrans s a r s') (hr : RefInv s)
    (hc : ChildInv s) (ht : TypeInv s) : TypeInv s' := by
  have hkept : ∀ q g, q ≠ a.actor → 0 < (s.proc q).refs g → (s.file g).Kept (s'.file g) :=
    fun q g hq hg => h.kept hr ht hq hg
  have hok := h.fileOk hr ht
  cases h with
  | same a v => exact ht
  | alloc p rf hp hf => exact ht.setProc rfl hkept (ht.pipe1 hp hf) hok
  | alloc₂ p page rf wf hp hf => exact ht.setProc rfl hkept (ht.pipe2 hr hp hf) hok
  | noFile p page rf hp =>
    refine ht.setProc rfl hkept (.plain rfl rfl fun fd f hfd => ?_) hok
    exact ht.pipealloc_descriptors hr hp (by simp [FileCall.fresh]) hfd
  | noPage p rf wf hp =>
    refine ht.setProc rfl hkept (.plain rfl rfl fun fd f hfd => ?_) hok
    exact ht.pipealloc_descriptors hr hp (by simp [FileCall.fresh]) hfd
  | noFds p rf wf k data hp hk =>
    refine ht.setProc rfl hkept (.plain rfl rfl fun fd f hfd => pipealloc_typed (.inl ?_)) hok
    exact ht.pipealloc_descriptors hr hp (by simp [FileCall.fresh]) hfd
  | made p rf wf k data fd₀ fd₁ hp hk h₀ h₁ => exact ht.setProc rfl hkept (ht.made hr hp) hok
  | openNoFd p readable writable f hp hf =>
    exact ht.call rfl hkept (by rw [hp]; rfl) rfl rfl (fun fd g _ => setRef_type s f g 1) hok
  | openFile p readable writable f fd hp hf hfd =>
    exact ht.setProc rfl hkept (ht.opening hp hf) hok
  | openEnd p f readable writable hp => exact ht.setProc rfl hkept (ht.opened hp) hok
  | dup p fd i fd' f hp hf hfd => exact ht.setProc rfl hkept (ht.dup hp (argfd_eq hf)) hok
  | close p fd i f hp hf => exact ht.setProc rfl hkept (ht.closed hp) hok
  | fork p c hp hunused => exact ht.fork hc hp hunused
  | forkSkip p c i hp hn =>
    exact ht.call rfl hkept (by rw [hp]; rfl) rfl rfl (fun _ _ _ => rfl) hok
  | forkCopy p c i f hp hf => exact ht.forkCopy hc hp hf rfl hkept hok
  | forkEnd p c i hp => exact ht.forkEnd hc hp
  | exit p hp => exact ht.setProc rfl hkept (.plain rfl rfl (by simp)) hok
  | closePipe p k w files exit P hp hP =>
    exact ht.call rfl hkept (by rw [hp]; rfl) rfl rfl (fun _ _ _ => rfl) hok
  | unref p f files exit hp href =>
    exact ht.call rfl hkept (by rw [hp]; rfl) rfl rfl (fun fd g _ => setRef_type s f g _) hok
  | closeFile p f files exit hp href =>
    refine ht.call rfl hkept (by rw [hp]; rfl) rfl rfl (fun fd g hfd => ?_) hok
    have hne := hr.not_descriptor hp (by simp) href hfd
    simp [hne]
  | gone p hp => exact ht.call rfl hkept (by rw [hp]; rfl) rfl rfl (fun _ _ _ => rfl) hok
  | back p hp => exact ht.call rfl hkept (by rw [hp]; rfl) rfl rfl (fun _ _ _ => rfl) hok
  | write p k n rest P ha hP h =>
    obtain ⟨hold, hend⟩ := ha.uses ht
    obtain ⟨c, hproc, hfresh, huses⟩ := h.uses
    exact ht.io h.proc_eq.1 hproc hold hfresh huses hend
  | read p k n P ha hP h =>
    obtain ⟨hold, hend⟩ := ha.uses ht
    obtain ⟨c, hproc, hfresh, huses⟩ := h.uses
    exact ht.io h.proc_eq.1 hproc hold hfresh huses hend
  | kill p => exact ⟨ht.proc, ht.file⟩

end Frame

section Ends

variable {s s' : Files} {p q : Fin nProc} {fp : FProc} {f g : Fin nFile} {x : File} {k l : ℕ}
  {w : Bool} {P : Pipe}

theorem openEnds_congr {P P' : Option Pipe} (h : P'.map Pipe.isOpen = P.map Pipe.isOpen)
    (w : Bool) : openEnds P' w = openEnds P w := by
  cases P <;> cases P' <;> simp_all [openEnds]

theorem fileEnds_setFile (s : Files) (f : Fin nFile) (x : File) (k : ℕ) (w : Bool) :
    ∑ g, ((s.setFile f x).file g).endOf k w + (s.file f).endOf k w =
      ∑ g, (s.file g).endOf k w + x.endOf k w :=
  sum_update_add (fun x : File => x.endOf k w) s.file f x

theorem callEnds_setProc (hproc : s'.proc = (s.setProc p fp).proc) (k : ℕ) (w : Bool) :
    ∑ q, (s'.proc q).call.pending k w + (s.proc p).call.pending k w =
      ∑ q, (s.proc q).call.pending k w + fp.call.pending k w := by
  rw [hproc]
  exact sum_update_add (fun fp : FProc => fp.call.pending k w) s.proc p fp

theorem EndInv.quiet (hi : EndInv s)
    (hfile : ∀ g k w, (s'.file g).endOf k w = (s.file g).endOf k w)
    (hpend : ∀ q, (s'.proc q).call.pend = (s.proc q).call.pend)
    (hpipe : ∀ k, (s'.pipe k).map Pipe.isOpen = (s.pipe k).map Pipe.isOpen) : EndInv s' := by
  refine ⟨fun k w => ?_, fun k P' hP' => ?_⟩
  · have hends := hi.ends k w
    unfold Files.ends at hends ⊢
    simp only [hfile, FileCall.pending, hpend] at hends ⊢
    rw [hends, openEnds_congr (hpipe k)]
  · have hk := hpipe k
    rw [hP', Option.map_some] at hk
    obtain ⟨P, hP, hopen⟩ := Option.map_eq_some_iff.mp hk.symm
    have halive := hi.alive k P hP
    rwa [← show P'.readopen = P.readopen from (congrFun hopen false).symm,
      ← show P'.writeopen = P.writeopen from (congrFun hopen true).symm] at halive

theorem pend_setProc (hproc : s'.proc = (s.setProc p fp).proc)
    (h : fp.call.pend = (s.proc p).call.pend) (q : Fin nProc) :
    (s'.proc q).call.pend = (s.proc q).call.pend := by
  rw [hproc, setProc_proc]
  split_ifs with hq
  · rw [hq, h]
  · rfl

/-- Two processes go on with calls that have the same close under way as before. -/
theorem pend_setBoth {c : Fin nProc} {call : FileCall}
    (hproc : s'.proc = ((s.setProc c fp).setCall p call).proc)
    (hc : fp.call.pend = (s.proc c).call.pend) (hp : call.pend = (s.proc p).call.pend)
    (q : Fin nProc) : (s'.proc q).call.pend = (s.proc q).call.pend := by
  rw [hproc, setCall_proc]
  split_ifs with hq
  · rw [hq, ← hp]
  · exact pend_setProc rfl hc q

theorem endOf_setFile (h : x.endOf k w = (s.file f).endOf k w) (g : Fin nFile) :
    ((s.setFile f x).file g).endOf k w = (s.file g).endOf k w := by
  rw [setFile_file]
  split_ifs with hg
  · rw [hg, h]
  · rfl

theorem endOf_of_none (h : x.type = .none) : x.endOf k w = 0 := by
  simp [File.endOf, h]

theorem EntersWrite.pend {a : FileStep} {n : ℕ} {rest : List UInt8}
    (h : EntersWrite s p k n rest a) : (s.proc p).call.pend = none := by
  cases h with
  | call fd addr writei i f hp hf hw ht => rw [hp]; rfl
  | resume n rest hp ha => rw [hp]; rfl

theorem EntersRead.pend {a : FileStep} {n : ℕ} (h : EntersRead s p k n a) :
    (s.proc p).call.pend = none := by
  cases h with
  | call fd n readi i f hp hf hr ht => rw [hp]; rfl
  | resume n hp ha => rw [hp]; rfl

theorem WriteEnd.pipe {n : ℕ} {rest : List UInt8} {r : FileRet}
    (h : WriteEnd s p k n rest P r s') : s'.pipe = (s.setPipe k (some (P.fill rest).2)).pipe ∧
      ∃ c : FileCall, c.pend = none ∧ s'.proc = (s.setCall p c).proc := by
  cases h with
  | done hm => exact ⟨rfl, .user, rfl, rfl⟩
  | broken hm hb => exact ⟨rfl, .user, rfl, rfl⟩
  | full hm hr hk => exact ⟨rfl, .writing k n _, rfl, rfl⟩

theorem ReadEnd.pipe {n : ℕ} {r : FileRet} (h : ReadEnd s p k n P r s') :
    (s'.pipe = s.pipe ∨ s'.pipe = (s.setPipe k (some (P.drain n).2)).pipe) ∧
      ∃ c : FileCall, c.pend = none ∧ s'.proc = (s.setCall p c).proc := by
  cases h with
  | killed he hw hk => exact ⟨.inl rfl, .user, rfl, rfl⟩
  | empty he hw hk => exact ⟨.inl rfl, .reading k n, rfl, rfl⟩
  | done h => exact ⟨.inr rfl, .user, rfl, rfl⟩

theorem isOpen_setPipe {P' : Pipe} (hP : s.pipe k = some P) (h : P'.isOpen = P.isOpen) (l : ℕ) :
    ((s.setPipe k (some P')).pipe l).map Pipe.isOpen = (s.pipe l).map Pipe.isOpen := by
  rw [setPipe_pipe]
  split_ifs with hl
  · rw [hl, hP, Option.map_some, Option.map_some, h]
  · rfl

/-- The last reference to an end is gone, and a call is left to close it. -/
theorem EndInv.closeFile (hi : EndInv s)
    (hfile : s'.file = (s.setFile f { s.file f with ref := 0, type := .none }).file)
    (hproc : s'.proc = (s.setProc p fp).proc) (hpipe : s'.pipe = s.pipe)
    (hold : (s.proc p).call.pend = none)
    (hnew : fp.call.pend = match (s.file f).type with
      | .pipe k => some (k, (s.file f).writable)
      | _ => none) : EndInv s' := by
  refine ⟨fun k w => ?_, hpipe ▸ hi.alive⟩
  have hends := hi.ends k w
  have hfiles := fileEnds_setFile s f { s.file f with ref := 0, type := .none } k w
  have hcalls := callEnds_setProc hproc k w
  have hzero : ({ s.file f with ref := 0, type := .none } : File).endOf k w = 0 :=
    endOf_of_none rfl
  have hmove : fp.call.pending k w = (s.file f).endOf k w := by
    unfold FileCall.pending File.endOf
    rw [hnew]
    cases (s.file f).type <;> simp
  have hnone : (s.proc p).call.pending k w = 0 := by simp [FileCall.pending, hold]
  unfold Files.ends at hends ⊢
  rw [hfile, hpipe, ← hends]
  omega

theorem openEnds_close (Q : Pipe) (w : Bool) :
    openEnds (if Q.readopen = false ∧ Q.writeopen = false then none else some Q) w =
      if Q.isOpen w then 1 else 0 := by
  split_ifs with hboth hw hw
  · cases w <;> simp_all [Pipe.isOpen]
  · rfl
  · simp [openEnds, hw]
  · simp [openEnds, hw]

theorem EndInv.closePipe (hi : EndInv s) (hfile : s'.file = s.file)
    (hproc : s'.proc = (s.setProc p fp).proc) (hold : (s.proc p).call.pend = some (k, w))
    (hnew : fp.call.pend = none) (hP : s.pipe k = some P)
    (hpipe : s'.pipe = (s.setPipe k (if (P.close w).readopen = false ∧
      (P.close w).writeopen = false then none else some (P.close w))).pipe) : EndInv s' := by
  refine ⟨fun l w' => ?_, fun l Q hQ => ?_⟩
  · have hends := hi.ends l w'
    have hcalls := callEnds_setProc hproc l w'
    have hone : (s.proc p).call.pending l w' = if k = l ∧ w = w' then 1 else 0 := by
      simp [FileCall.pending, hold]
    have hzero : fp.call.pending l w' = 0 := by simp [FileCall.pending, hnew]
    rw [hone, hzero] at hcalls
    unfold Files.ends at hends ⊢
    rw [hfile, hpipe, setPipe_pipe]
    by_cases hl : l = k
    · subst hl
      rw [if_pos rfl, openEnds_close, Pipe.isOpen_close]
      rw [hP] at hends
      simp only [openEnds] at hends
      by_cases hw : w' = w
      · subst hw
        simp only [true_and, ↓reduceIte, Bool.false_eq_true] at hcalls ⊢
        split_ifs at hends <;> omega
      · simp only [true_and, if_neg (Ne.symm hw)] at hcalls
        rw [if_neg hw]
        omega
    · rw [if_neg hl]
      simp only [Ne.symm hl, false_and, ↓reduceIte] at hcalls
      omega
  · rw [hpipe, setPipe_pipe] at hQ
    split_ifs at hQ with hl hboth
    · obtain rfl := Option.some.inj hQ
      cases hr : (P.close w).readopen <;> cases hw : (P.close w).writeopen <;> simp_all
    · exact hi.alive l Q hQ

theorem EndInv.pipealloc {rf wf : Fin nFile} {data : Fin pipeSize → UInt8} (hi : EndInv s)
    (hne : rf ≠ wf) (hrf : (s.file rf).type = .none) (hwf : (s.file wf).type = .none)
    (hk : s.pipe k = none) (hfile : s'.file = (s.pipealloc rf wf k data).file)
    (hpipe : s'.pipe = (s.pipealloc rf wf k data).pipe)
    (hpend : ∀ q, (s'.proc q).call.pend = (s.proc q).call.pend) : EndInv s' := by
  refine ⟨fun l w => ?_, fun l Q hQ => ?_⟩
  · have hends := hi.ends l w
    unfold Files.ends at hends ⊢
    simp only [FileCall.pending, hpend, hfile, hpipe, pipealloc_pipe] at hends ⊢
    have hfirst := fileEnds_setFile (s.setPipe k (some (.init data))) rf
      { s.file rf with type := .pipe k, readable := true, writable := false } l w
    have hsecond := fileEnds_setFile ((s.setPipe k (some (.init data))).setFile rf
      { s.file rf with type := .pipe k, readable := true, writable := false }) wf
      { s.file wf with type := .pipe k, readable := false, writable := true } l w
    rw [setPipe_file, endOf_of_none hrf] at hfirst
    rw [setFile_file, if_neg hne.symm, setPipe_file, endOf_of_none hwf] at hsecond
    have halloc : ∑ g, ((s.pipealloc rf wf k data).file g).endOf l w =
        ∑ g, (s.file g).endOf l w + if l = k then 1 else 0 := by
      have hdef : s.pipealloc rf wf k data = ((s.setPipe k (some (.init data))).setFile rf
          { s.file rf with type := .pipe k, readable := true, writable := false }).setFile wf
          { s.file wf with type := .pipe k, readable := false, writable := true } := by
        simp [Files.pipealloc, hne.symm]
      rw [hdef]
      by_cases hl : l = k
      · subst hl
        simp only [File.endOf, true_and] at hfirst hsecond ⊢
        cases w <;> simp at hfirst hsecond ⊢ <;> omega
      · simp only [File.endOf, FdType.pipe.injEq, Ne.symm hl, false_and, ↓reduceIte] at hfirst
        simp only [File.endOf, FdType.pipe.injEq, Ne.symm hl, false_and, ↓reduceIte] at hsecond
        simp only [File.endOf, if_neg hl]
        omega
    rw [halloc]
    by_cases hl : l = k
    · subst hl
      rw [hk] at hends
      simp only [openEnds, ↓reduceIte, Pipe.isOpen_init] at hends ⊢
      omega
    · simp only [if_neg hl]
      omega
  · rw [hpipe, pipealloc_pipe] at hQ
    split_ifs at hQ with hl
    · obtain rfl := Option.some.inj hQ
      exact .inl rfl
    · exact hi.alive l Q hQ

theorem endOf_setRef {n : ℤ} (g : Fin nFile) (k : ℕ) (w : Bool) :
    ((s.setFile f { s.file f with ref := n }).file g).endOf k w = (s.file g).endOf k w := by
  refine endOf_setFile ?_ g
  rfl

theorem FileTrans.endInv {a : FileStep} {r : FileRet} (h : FileTrans s a r s') (hr : RefInv s)
    (hc : ChildInv s) (ht : TypeInv s) (hi : EndInv s) : EndInv s' := by
  have hfresh : ∀ {p c f}, (s.proc p).call = c → f ∈ c.fresh →
      (s.file f).type = .none ∧ (s.file f).ref = 1 := by
    rintro p _ f rfl hf
    exact ((ht.proc p).fresh f hf).2
  have hpair : ∀ {p rf wf}, (s.proc p).call = .pipe2 rf wf → rf ≠ wf := by
    rintro p rf _ hp rfl
    have hle := hr.le p rf
    rw [refs_eq hp, (hfresh hp (by simp [FileCall.fresh])).2, FileCall.files_pipe2,
      count_cons_eq, count_cons_eq, if_pos rfl] at hle
    omega
  cases h with
  | same a v => exact hi
  | alloc p rf hp hf =>
    exact hi.quiet endOf_setRef (pend_setProc rfl (by rw [hp]; rfl)) fun _ => rfl
  | noFile p page rf hp =>
    exact hi.quiet (fun _ _ _ => rfl) (pend_setProc rfl (by rw [hp]; rfl)) fun _ => rfl
  | alloc₂ p page rf wf hp hf =>
    exact hi.quiet endOf_setRef (pend_setProc rfl (by rw [hp]; rfl)) fun _ => rfl
  | noPage p rf wf hp =>
    exact hi.quiet (fun _ _ _ => rfl) (pend_setProc rfl (by rw [hp]; rfl)) fun _ => rfl
  | noFds p rf wf k data hp hk | made p rf wf k data fd₀ fd₁ hp hk h₀ h₁ =>
    exact hi.pipealloc (hpair hp) (hfresh hp (by simp [FileCall.fresh])).1
      (hfresh hp (by simp [FileCall.fresh])).1 hk rfl rfl (pend_setProc rfl (by rw [hp]; rfl))
  | openNoFd p readable writable f hp hf =>
    exact hi.quiet endOf_setRef (pend_setProc rfl (by rw [hp]; rfl)) fun _ => rfl
  | openFile p readable writable f fd hp hf hfd =>
    exact hi.quiet endOf_setRef (pend_setProc rfl (by rw [hp]; rfl)) fun _ => rfl
  | openEnd p f readable writable hp =>
    refine hi.quiet (fun g k w => endOf_setFile ?_ g) (pend_setProc rfl (by rw [hp]; rfl))
      fun _ => rfl
    rw [endOf_of_none (hfresh hp (by simp [FileCall.fresh])).1]
    simp [File.endOf]
  | dup p fd i fd' f hp hf hfd =>
    exact hi.quiet endOf_setRef (pend_setProc rfl (by rw [hp])) fun _ => rfl
  | close p fd i f hp hf | exit p hp =>
    exact hi.quiet (fun _ _ _ => rfl) (pend_setProc rfl (by rw [hp]; rfl)) fun _ => rfl
  | fork p c hp hunused =>
    exact hi.quiet (fun _ _ _ => rfl)
      (pend_setBoth rfl (by rw [hunused]; rfl) (by rw [hp]; rfl)) fun _ => rfl
  | forkSkip p c i hp hn =>
    exact hi.quiet (fun _ _ _ => rfl) (pend_setProc rfl (by rw [hp]; rfl)) fun _ => rfl
  | forkCopy p c i f hp hf =>
    exact hi.quiet endOf_setRef (pend_setBoth rfl rfl (by rw [hp]; rfl)) fun _ => rfl
  | forkEnd p c i hp =>
    have hemb := (hc.embryo p c i hp).1
    exact hi.quiet (fun _ _ _ => rfl)
      (pend_setBoth rfl (by rw [hemb]; rfl) (by rw [hp]; rfl)) fun _ => rfl
  | closePipe p k w files exit P hp hP =>
    exact hi.closePipe rfl rfl (by rw [hp]; rfl) rfl hP rfl
  | unref p f files exit hp href =>
    exact hi.quiet endOf_setRef (pend_setProc rfl (by rw [hp]; rfl)) fun _ => rfl
  | closeFile p f files exit hp href => exact hi.closeFile rfl rfl rfl (by rw [hp]; rfl) rfl
  | gone p hp | back p hp =>
    exact hi.quiet (fun _ _ _ => rfl) (pend_setProc rfl (by rw [hp]; rfl)) fun _ => rfl
  | write p k n rest P ha hP h =>
    obtain ⟨hpipe, c, hpend, hproc⟩ := h.pipe
    refine hi.quiet (fun g _ _ => by rw [h.proc_eq.1])
      (pend_setProc hproc (hpend.trans ha.pend.symm)) fun l => ?_
    rw [hpipe]
    exact isOpen_setPipe hP (P.isOpen_fill rest) l
  | read p k n P ha hP h =>
    obtain ⟨hpipe, c, hpend, hproc⟩ := h.pipe
    refine hi.quiet (fun g _ _ => by rw [h.proc_eq.1])
      (pend_setProc hproc (hpend.trans ha.pend.symm)) fun l => ?_
    rcases hpipe with hpipe | hpipe
    · rw [hpipe]
    · rw [hpipe]
      exact isOpen_setPipe hP (P.isOpen_drain n) l
  | kill p => exact ⟨hi.ends, hi.alive⟩

end Ends

end SsuOs.Xv6
