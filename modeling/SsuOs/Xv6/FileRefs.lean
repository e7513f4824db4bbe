import Mathlib.Algebra.BigOperators.Fin
import Mathlib.Algebra.Order.BigOperators.Group.Finset
import SsuOs.Lib.Tally
import SsuOs.Xv6.FileTrans

/-! The reference counts of the open files, in every run: a file counts the descriptors and the
calls in progress that refer to it. -/
namespace SsuOs.Xv6
open SsuOs.Lib Files

/-- The files that a call refers to apart from the descriptors. -/
def FileCall.files : FileCall → List (Fin nFile)
  | .pipe1 rf => [rf]
  | .pipe2 rf wf => [rf, wf]
  | .closing _ files _ => files
  | _ => []

@[simp] theorem FileCall.files_user : FileCall.user.files = [] := rfl

@[simp] theorem FileCall.files_pipe1 (rf : Fin nFile) : (FileCall.pipe1 rf).files = [rf] := rfl

@[simp] theorem FileCall.files_pipe2 (rf wf : Fin nFile) :
    (FileCall.pipe2 rf wf).files = [rf, wf] := rfl

@[simp] theorem FileCall.files_opening (f : Fin nFile) (r w : Bool) :
    (FileCall.opening f r w).files = [] := rfl

@[simp] theorem FileCall.files_closing (pend : Option (ℕ × Bool)) (files : List (Fin nFile))
    (exit : Bool) : (FileCall.closing pend files exit).files = files := rfl

/-- The files that have been allocated and have no type yet. -/
def FileCall.fresh : FileCall → List (Fin nFile)
  | .pipe1 rf => [rf]
  | .pipe2 rf wf => [rf, wf]
  | .opening f _ _ => [f]
  | _ => []

def descriptors (ofile : Fin nOFile → Option (Fin nFile)) (f : Fin nFile) : ℕ :=
  ∑ fd, if ofile fd = some f then 1 else 0

def FProc.refs (fp : FProc) (f : Fin nFile) : ℕ := descriptors fp.ofile f + fp.call.files.count f

def RefInv (s : Files) : Prop := ∀ f, (s.file f).ref = (∑ p, (s.proc p).refs f : ℕ)

section

variable {s s' : Files} {f g : Fin nFile} {p q : Fin nProc} {fp : FProc} {c : FileCall}
  {ofile : Fin nOFile → Option (Fin nFile)} {fd : Fin nOFile}

theorem descriptors_update (ofile : Fin nOFile → Option (Fin nFile)) (fd : Fin nOFile)
    (o : Option (Fin nFile)) (f : Fin nFile) :
    descriptors (Function.update ofile fd o) f + (if ofile fd = some f then 1 else 0) =
      descriptors ofile f + if o = some f then 1 else 0 :=
  sum_update_add (fun o => if o = some f then 1 else 0) ofile fd o

theorem descriptors_put (h : ofile fd = none) (f g : Fin nFile) :
    descriptors (Function.update ofile fd (some g)) f =
      descriptors ofile f + if g = f then 1 else 0 := by
  have hsum := descriptors_update ofile fd (some g) f
  simpa [h] using hsum

theorem descriptors_pos (h : ofile fd = some f) : 0 < descriptors ofile f := by
  have hle := Finset.single_le_sum (f := fun fd => if ofile fd = some f then 1 else 0)
    (fun _ _ => Nat.zero_le _) (Finset.mem_univ fd)
  simp only [h, ↓reduceIte] at hle
  exact hle

@[simp] theorem descriptors_none (f : Fin nFile) : descriptors (fun _ => none) f = 0 := by
  simp [descriptors]

theorem count_openFiles (s : Files) (p : Fin nProc) (f : Fin nFile) :
    (s.openFiles p).count f = descriptors (s.proc p).ofile f := by
  rw [Files.openFiles, descriptors, Fin.sum_univ_def]
  induction List.finRange nOFile with
  | nil => rfl
  | cons fd l ih =>
    rw [List.map_cons, List.sum_cons, ← ih, List.filterMap_cons]
    cases h : (s.proc p).ofile fd with
    | none => simp
    | some g =>
      simp only [List.count_cons, beq_iff_eq, Option.some.injEq]
      exact Nat.add_comm _ _

theorem fdalloc_free (h : fdalloc ofile = some fd) : ofile fd = none := by
  have hs := List.find?_some h
  exact of_decide_eq_true hs

theorem freeFile_free (h : s.freeFile = some f) : (s.file f).ref = 0 := by
  have hs := List.find?_some h
  exact of_decide_eq_true hs

theorem argfd_eq {i : Fin nOFile} {n : ℤ} (h : fp.argfd n = some (i, f)) :
    fp.ofile i = some f := by
  unfold FProc.argfd at h
  split_ifs at h
  obtain ⟨g, hg, heq⟩ := Option.map_eq_some_iff.mp h
  obtain ⟨rfl, rfl⟩ := Prod.mk.inj heq
  exact hg

theorem refs_of_ofile (h : (s.proc p).ofile fd = some f) : 0 < (s.proc p).refs f :=
  Nat.add_pos_left (descriptors_pos h) _

theorem RefInv.le (hi : RefInv s) (p : Fin nProc) (f : Fin nFile) :
    ((s.proc p).refs f : ℤ) ≤ (s.file f).ref := by
  rw [hi f]
  exact_mod_cast Finset.single_le_sum (f := fun p => (s.proc p).refs f)
    (fun _ _ => Nat.zero_le _) (Finset.mem_univ p)

theorem RefInv.only (hi : RefInv s) (h : (s.file f).ref ≤ (s.proc p).refs f) (hq : q ≠ p) :
    (s.proc q).refs f = 0 := by
  have hpair : (s.proc p).refs f + (s.proc q).refs f ≤ ∑ r, (s.proc r).refs f := by
    rw [← Finset.sum_pair (f := fun r => (s.proc r).refs f) hq.symm]
    exact Finset.sum_le_sum_of_subset (Finset.subset_univ _)
  have hf := hi f
  omega

theorem RefInv.nobody (hi : RefInv s) (h : (s.file f).ref = 0) (p : Fin nProc) :
    (s.proc p).refs f = 0 := by
  have hle := hi.le p f
  omega

theorem refs_update (s : Files) (p : Fin nProc) (fp : FProc) (f : Fin nFile) :
    ∑ q, ((s.setProc p fp).proc q).refs f + (s.proc p).refs f =
      ∑ q, (s.proc q).refs f + fp.refs f :=
  sum_update_add (fun fp : FProc => fp.refs f) s.proc p fp

/-- The process and the file change their references by the same number. -/
theorem RefInv.setProc (hi : RefInv s) (hproc : s'.proc = (s.setProc p fp).proc)
    (h : ∀ f, (s'.file f).ref + (s.proc p).refs f = (s.file f).ref + fp.refs f) :
    RefInv s' := by
  intro f
  have hsum := refs_update s p fp f
  have hf := hi f
  have hf' := h f
  rw [hproc]
  omega

theorem refs_eq (h : (s.proc p).call = c) (f : Fin nFile) :
    (s.proc p).refs f = descriptors (s.proc p).ofile f + c.files.count f := by
  rw [FProc.refs, h]

theorem RefInv.keep (hi : RefInv s) (hproc : s'.proc = (s.setProc p fp).proc)
    (hfp : ∀ g, fp.refs g = (s.proc p).refs g) (href : ∀ g, (s'.file g).ref = (s.file g).ref) :
    RefInv s' :=
  hi.setProc hproc fun g => by rw [hfp, href]

theorem RefInv.gain (hi : RefInv s) (hproc : s'.proc = (s.setProc p fp).proc)
    (hfp : ∀ g, fp.refs g = (s.proc p).refs g + if f = g then 1 else 0)
    (href : (s'.file f).ref = (s.file f).ref + 1)
    (hother : ∀ g, g ≠ f → (s'.file g).ref = (s.file g).ref) : RefInv s' := by
  refine hi.setProc hproc fun g => ?_
  have hg := hfp g
  by_cases hgf : g = f
  · subst hgf
    rw [if_pos rfl] at hg
    omega
  · rw [if_neg (Ne.symm hgf), add_zero] at hg
    rw [hother g hgf, hg]

theorem RefInv.lose (hi : RefInv s) (hproc : s'.proc = (s.setProc p fp).proc)
    (hfp : ∀ g, (s.proc p).refs g = fp.refs g + if f = g then 1 else 0)
    (href : (s'.file f).ref = (s.file f).ref - 1)
    (hother : ∀ g, g ≠ f → (s'.file g).ref = (s.file g).ref) : RefInv s' := by
  refine hi.setProc hproc fun g => ?_
  have hg := hfp g
  by_cases hgf : g = f
  · subst hgf
    rw [if_pos rfl] at hg
    omega
  · rw [if_neg (Ne.symm hgf), add_zero] at hg
    rw [hother g hgf, hg]

theorem RefInv.call (hi : RefInv s) (hproc : s'.proc = (s.setCall p c).proc)
    (hfiles : c.files = (s.proc p).call.files) (href : ∀ g, (s'.file g).ref = (s.file g).ref) :
    RefInv s' :=
  hi.keep hproc (fun g => by rw [FProc.refs, FProc.refs, hfiles]) href

theorem RefInv.gainCall (hi : RefInv s) (hproc : s'.proc = (s.setCall p c).proc)
    (hfiles : ∀ g, c.files.count g =
      (s.proc p).call.files.count g + if f = g then 1 else 0)
    (href : (s'.file f).ref = (s.file f).ref + 1)
    (hother : ∀ g, g ≠ f → (s'.file g).ref = (s.file g).ref) : RefInv s' :=
  hi.gain hproc (fun g => by rw [FProc.refs, FProc.refs, hfiles, add_assoc]) href hother

theorem RefInv.loseCall (hi : RefInv s) (hproc : s'.proc = (s.setCall p c).proc)
    (hfiles : ∀ g, (s.proc p).call.files.count g = c.files.count g + if f = g then 1 else 0)
    (href : (s'.file f).ref = (s.file f).ref - 1)
    (hother : ∀ g, g ≠ f → (s'.file g).ref = (s.file g).ref) : RefInv s' :=
  hi.lose hproc (fun g => by rw [FProc.refs, FProc.refs, hfiles, add_assoc]) href hother

theorem RefInv.congr (hi : RefInv s) (hproc : s'.proc = s.proc)
    (h : ∀ f, (s'.file f).ref = (s.file f).ref) : RefInv s' := by
  intro f
  rw [h f, hproc]
  exact hi f

theorem WriteEnd.proc_eq {k n : ℕ} {rest : List UInt8} {P : Pipe} {r : FileRet}
    (h : WriteEnd s p k n rest P r s') : s'.file = s.file ∧
      ∃ c : FileCall, c.files = [] ∧ s'.proc = (s.setCall p c).proc := by
  cases h with
  | done hm => exact ⟨rfl, .user, rfl, rfl⟩
  | broken hm hb => exact ⟨rfl, .user, rfl, rfl⟩
  | full hm hr hk => exact ⟨rfl, _, rfl, rfl⟩

theorem ReadEnd.proc_eq {k n : ℕ} {P : Pipe} {r : FileRet} (h : ReadEnd s p k n P r s') :
    s'.file = s.file ∧ ∃ c : FileCall, c.files = [] ∧ s'.proc = (s.setCall p c).proc := by
  cases h with
  | killed he hw hk => exact ⟨rfl, .user, rfl, rfl⟩
  | empty he hw hk => exact ⟨rfl, _, rfl, rfl⟩
  | done h => exact ⟨rfl, .user, rfl, rfl⟩

theorem EntersWrite.files {a : FileStep} {k n : ℕ} {rest : List UInt8}
    (h : EntersWrite s p k n rest a) : (s.proc p).call.files = [] := by
  cases h with
  | call fd addr writei i f hp hf hw ht => rw [hp]; rfl
  | resume n rest hp ha => rw [hp]; rfl

theorem EntersRead.files {a : FileStep} {k n : ℕ} (h : EntersRead s p k n a) :
    (s.proc p).call.files = [] := by
  cases h with
  | call fd n readi i f hp hf hr ht => rw [hp]; rfl
  | resume n hp ha => rw [hp]; rfl

/-- A child that `fork` is setting up, and the entries of the table that it may take. -/
structure ChildInv (s : Files) : Prop where
  embryo : ∀ p c i, (s.proc p).call = .forking c i → (s.proc c).call = .embryo ∧
    ∀ fd : Fin nOFile, i ≤ fd → (s.proc c).ofile fd = none
  parent : ∀ p q c i j, (s.proc p).call = .forking c i → (s.proc q).call = .forking c j → p = q
  unused : ∀ p, (s.proc p).call = .unused → ∀ fd, (s.proc p).ofile fd = none
  exiting : ∀ p pend files, (s.proc p).call = .closing pend files true →
    ∀ fd, (s.proc p).ofile fd = none

theorem ChildInv.ne {c : Fin nProc} {i : ℕ} (hi : ChildInv s)
    (hp : (s.proc p).call = .forking c i) : p ≠ c := by
  rintro rfl
  have hemb := (hi.embryo p p i hp).1
  simp [hp] at hemb

/-- A process that sets up no child, or goes on with its child, changes only itself. -/
theorem ChildInv.setProc (hi : ChildInv s) (hproc : s'.proc = (s.setProc p fp).proc)
    (hne : (s.proc p).call ≠ .embryo)
    (hfork : ∀ c i, fp.call = .forking c i → ∃ j ≤ i, (s.proc p).call = .forking c j)
    (hunused : fp.call = .unused → ∀ fd, fp.ofile fd = none)
    (hexit : ∀ pend files, fp.call = .closing pend files true → ∀ fd, fp.ofile fd = none) :
    ChildInv s' := by
  have hget : ∀ q, s'.proc q = if q = p then fp else s.proc q := by
    intro q
    rw [hproc, setProc_proc]
  have hforks : ∀ q c i, (s'.proc q).call = .forking c i →
      ∃ j ≤ i, (s.proc q).call = .forking c j := by
    intro q c i hq
    rw [hget] at hq
    split_ifs at hq with hqp
    · rw [hqp]
      exact hfork c i hq
    · exact ⟨i, le_rfl, hq⟩
  refine ⟨fun q c i hq => ?_, fun q r c i j hq hr => ?_, fun q hq => ?_, fun q pend files hq => ?_⟩
  · obtain ⟨j, hj, hqj⟩ := hforks q c i hq
    obtain ⟨hc, hfd⟩ := hi.embryo q c j hqj
    have hcp : c ≠ p := by
      rintro rfl
      exact hne hc
    rw [hget, if_neg hcp]
    exact ⟨hc, fun fd hfdi => hfd fd (hj.trans hfdi)⟩
  · obtain ⟨i', -, hq'⟩ := hforks q c i hq
    obtain ⟨j', -, hr'⟩ := hforks r c j hr
    exact hi.parent q r c i' j' hq' hr'
  · rw [hget] at hq ⊢
    split_ifs at hq ⊢
    · exact hunused hq
    · exact hi.unused q hq
  · rw [hget] at hq ⊢
    split_ifs at hq ⊢
    · exact hexit pend files hq
    · exact hi.exiting q pend files hq

/-- A call that is none of those that `ChildInv` speaks of. -/
def FileCall.Plain : FileCall → Prop
  | .unused => False
  | .embryo => False
  | .forking _ _ => False
  | .closing _ _ exit => exit = false
  | _ => True

theorem ChildInv.plain (hi : ChildInv s) (hproc : s'.proc = (s.setProc p fp).proc)
    (hne : (s.proc p).call ≠ .embryo) (hfp : fp.call.Plain) : ChildInv s' := by
  refine hi.setProc hproc hne (fun c i h => ?_) (fun h => ?_) fun pend files h => ?_
  all_goals simp [h, FileCall.Plain] at hfp

theorem ChildInv.setBoth {c : Fin nProc} (hi : ChildInv s) (fp fc : FProc)
    (hget : ∀ q, s'.proc q = if q = p then fp else if q = c then fc else s.proc q)
    (hp : (s.proc p).call ≠ .embryo) (hown : ∀ q i, (s.proc q).call = .forking c i → q = p)
    (hc : fc.call = .embryo ∨ fc.call = .user)
    (hfp : fp.call = .user ∨ ∃ i, fp.call = .forking c i ∧ p ≠ c ∧ fc.call = .embryo ∧
      ∀ fd : Fin nOFile, i ≤ fd → fc.ofile fd = none) : ChildInv s' := by
  have hforks : ∀ q d i, (s'.proc q).call = .forking d i →
      q = p ∧ d = c ∧ fp.call = .forking c i ∨
      q ≠ p ∧ d ≠ c ∧ d ≠ p ∧ (s.proc q).call = .forking d i := by
    intro q d i hq
    rw [hget] at hq
    split_ifs at hq with hqp hqc
    · rcases hfp with h | ⟨j, h, -⟩
      · simp [h] at hq
      · obtain ⟨rfl, rfl⟩ : c = d ∧ j = i := by simpa [h] using hq
        exact .inl ⟨hqp, rfl, h⟩
    · rcases hc with h | h <;> simp [h] at hq
    · refine .inr ⟨hqp, ?_, ?_, hq⟩
      · rintro rfl
        exact hqp (hown q i hq)
      · rintro rfl
        exact hp (hi.embryo q d i hq).1
  have hkeep : ∀ q (P : FileCall → Prop), ¬P fp.call → ¬P fc.call → P (s'.proc q).call →
      s'.proc q = s.proc q := by
    intro q P hnp hnc hq
    rw [hget] at hq ⊢
    split_ifs at hq ⊢
    · exact absurd hq hnp
    · exact absurd hq hnc
    · rfl
  refine ⟨fun q d i hq => ?_, fun q r d i j hq hr => ?_, fun q hq => ?_, fun q pend files hq => ?_⟩
  · rcases hforks q d i hq with ⟨-, rfl, h⟩ | ⟨-, hdc, hdp, h⟩
    · rcases hfp with h' | ⟨j, h', hpd, hcall, hnone⟩
      · simp [h'] at h
      · obtain rfl : j = i := by simpa [h'] using h
        rw [hget, if_neg hpd.symm, if_pos rfl]
        exact ⟨hcall, hnone⟩
    · rw [hget, if_neg hdp, if_neg hdc]
      exact hi.embryo q d i h
  · rcases hforks q d i hq with ⟨hqp, hdc, -⟩ | ⟨-, hdc, -, h⟩
    · rcases hforks r d j hr with ⟨hrp, -⟩ | ⟨-, hdc', -⟩
      · rw [hqp, hrp]
      · exact absurd hdc hdc'
    · rcases hforks r d j hr with ⟨-, hdc', -⟩ | ⟨-, -, -, h'⟩
      · exact absurd hdc' hdc
      · exact hi.parent q r d i j h h'
  · have hq' := hkeep q (· = .unused) (by rcases hfp with h | ⟨i, h, -⟩ <;> simp [h])
      (by rcases hc with h | h <;> simp [h]) hq
    rw [hq'] at hq ⊢
    exact hi.unused q hq
  · have hq' := hkeep q (· = .closing pend files true)
      (by rcases hfp with h | ⟨i, h, -⟩ <;> simp [h]) (by rcases hc with h | h <;> simp [h]) hq
    rw [hq'] at hq ⊢
    exact hi.exiting q pend files hq

theorem ChildInv.congr (hi : ChildInv s) (hproc : s'.proc = s.proc) : ChildInv s' := by
  constructor <;> rw [hproc]
  · exact hi.embryo
  · exact hi.parent
  · exact hi.unused
  · exact hi.exiting

theorem WriteEnd.plain {k n : ℕ} {rest : List UInt8} {P : Pipe} {r : FileRet}
    (h : WriteEnd s p k n rest P r s') :
    ∃ c : FileCall, c.Plain ∧ s'.proc = (s.setCall p c).proc := by
  cases h with
  | done hm => exact ⟨.user, trivial, rfl⟩
  | broken hm hb => exact ⟨.user, trivial, rfl⟩
  | full hm hr hk => exact ⟨.writing k n _, trivial, rfl⟩

theorem ReadEnd.plain {k n : ℕ} {P : Pipe} {r : FileRet} (h : ReadEnd s p k n P r s') :
    ∃ c : FileCall, c.Plain ∧ s'.proc = (s.setCall p c).proc := by
  cases h with
  | killed he hw hk => exact ⟨.user, trivial, rfl⟩
  | empty he hw hk => exact ⟨.reading k n, trivial, rfl⟩
  | done h => exact ⟨.user, trivial, rfl⟩

theorem EntersWrite.plain {a : FileStep} {k n : ℕ} {rest : List UInt8}
    (h : EntersWrite s p k n rest a) : (s.proc p).call ≠ .embryo := by
  cases h <;> simp [*]

theorem EntersRead.plain {a : FileStep} {k n : ℕ} (h : EntersRead s p k n a) :
    (s.proc p).call ≠ .embryo := by
  cases h <;> simp [*]

theorem FileTrans.childInv {a : FileStep} {r : FileRet} (h : FileTrans s a r s')
    (hi : ChildInv s) : ChildInv s' := by
  cases h with
  | same a v => exact hi
  | alloc p rf hp hf | noFile p page rf hp | alloc₂ p page rf wf hp hf | noPage p rf wf hp
  | noFds p rf wf k data hp hk | made p rf wf k data fd₀ fd₁ hp hk h₀ h₁
  | openNoFd p readable writable f hp hf | openFile p readable writable f fd hp hf hfd
  | openEnd p f readable writable hp | dup p fd i fd' f hp hf hfd | close p fd i f hp hf
  | back p hp =>
    exact hi.plain rfl (by simp [hp]) (by simp [FileCall.Plain])
  | fork p c hp hc =>
    have hpc : p ≠ c := by
      rintro rfl
      simp [hp] at hc
    refine hi.setBoth (p := p) (c := c) ⟨(s.proc p).ofile, .forking c 0⟩
      ⟨(s.proc c).ofile, .embryo⟩ (fun q => ?_) (by simp [hp]) (fun q i hq => ?_) (.inl rfl)
      (.inr ⟨0, rfl, hpc, rfl, fun fd _ => hi.unused c hc fd⟩)
    · simp only [setCall_proc, if_neg hpc]
    · have hemb := (hi.embryo q c i hq).1
      simp [hc] at hemb
  | forkSkip p c i hp hn =>
    refine hi.setProc rfl (by simp [hp]) (fun c' i' h => ?_) (by simp) (by simp)
    obtain ⟨rfl, rfl⟩ : c = c' ∧ (i : ℕ) + 1 = i' := by simpa using h
    exact ⟨i, Nat.le_succ _, hp⟩
  | forkCopy p c i f hp hf =>
    obtain ⟨hc, hnone⟩ := hi.embryo p c i hp
    have hpc := hi.ne hp
    refine hi.setBoth (p := p) (c := c) ⟨(s.proc p).ofile, .forking c (i + 1)⟩
      ⟨Function.update (s.proc c).ofile i (some f), (s.proc c).call⟩ (fun q => ?_) (by simp [hp])
      (fun q j hq => hi.parent q p c j i hq hp) (.inl hc) (.inr ⟨i + 1, rfl, hpc, hc, ?_⟩)
    · simp only [setCall_proc, setProc_proc, if_neg hpc, setFile_proc]
    · intro fd hfd
      have hne : fd ≠ i := by
        rintro rfl
        omega
      dsimp only
      rw [Function.update_of_ne hne]
      exact hnone fd (by omega)
  | forkEnd p c i hp =>
    have hpc := hi.ne hp
    refine hi.setBoth (p := p) (c := c) ⟨(s.proc p).ofile, .user⟩ ⟨(s.proc c).ofile, .user⟩
      (fun q => ?_) (by simp [hp]) (fun q j hq => hi.parent q p c j i hq hp) (.inr rfl) (.inl rfl)
    simp only [setCall_proc, if_neg hpc]
  | exit p hp => exact hi.setProc rfl (by simp [hp]) (by simp) (by simp) (by simp)
  | closePipe p k w files exit P hp hP | unref p f files exit hp href
  | closeFile p f files exit hp href =>
    refine hi.setProc rfl (by simp [hp]) (by simp) (by simp) fun pend files' h => ?_
    obtain ⟨-, -, rfl⟩ := FileCall.closing.inj h
    exact hi.exiting p _ _ hp
  | gone p hp =>
    refine hi.setProc rfl (by simp [hp]) (by simp) (fun _ => ?_) (by simp)
    exact hi.exiting p none [] hp
  | write p k n rest P ha hP h =>
    obtain ⟨c, hc, hproc⟩ := h.plain
    exact hi.plain hproc ha.plain hc
  | read p k n P ha hP h =>
    obtain ⟨c, hc, hproc⟩ := h.plain
    exact hi.plain hproc ha.plain hc
  | kill p => exact hi.congr rfl

theorem alloc_ref (h : s.freeFile = some f) (g : Fin nFile) :
    ((s.allocFile f).file g).ref = (s.file g).ref + if g = f then 1 else 0 := by
  rw [allocFile_file]
  split_ifs with hg
  · rw [hg, freeFile_free h]
    rfl
  · exact (add_zero _).symm

theorem setFile_ref (g : Fin nFile) (x : File) :
    ((s.setFile f x).file g).ref = if g = f then x.ref else (s.file g).ref := by
  rw [setFile_file]
  split_ifs <;> rfl

theorem count_cons_eq (f g : Fin nFile) (l : List (Fin nFile)) :
    (f :: l).count g = l.count g + if f = g then 1 else 0 := by
  simp [List.count_cons]

theorem RefInv.filedup {i : Fin nOFile} (hi : RefInv s) (hfree : (s.proc p).ofile i = none)
    (hfiles : c.files = (s.proc p).call.files) :
    RefInv ((s.setFile f { s.file f with ref := (s.file f).ref + 1 }).setProc p
      ⟨Function.update (s.proc p).ofile i (some f), c⟩) := by
  refine hi.gain (f := f) rfl (fun g => ?_) ?_ fun g hg => ?_
  · rw [FProc.refs, FProc.refs]
    dsimp only
    rw [descriptors_put hfree, hfiles, add_right_comm]
  · rw [setProc_file, setFile_ref, if_pos rfl]
  · rw [setProc_file, setFile_ref, if_neg hg]

theorem RefInv.made {rf wf : Fin nFile} {k : ℕ} {data : Fin pipeSize → UInt8}
    {fd₀ fd₁ : Fin nOFile} (hi : RefInv s) (hp : (s.proc p).call = .pipe2 rf wf)
    (h₀ : fdalloc (s.proc p).ofile = some fd₀)
    (h₁ : fdalloc (Function.update (s.proc p).ofile fd₀ (some rf)) = some fd₁) :
    RefInv ((s.pipealloc rf wf k data).setProc p
      ⟨Function.update (Function.update (s.proc p).ofile fd₀ (some rf)) fd₁ (some wf), .user⟩) := by
  refine hi.keep rfl (fun g => ?_) (pipealloc_ref s rf wf k data)
  rw [refs_eq hp, FProc.refs]
  dsimp only
  rw [descriptors_put (fdalloc_free h₁), descriptors_put (fdalloc_free h₀),
    FileCall.files_pipe2, FileCall.files_user, count_cons_eq, count_cons_eq]
  omega

theorem RefInv.callBoth {q : Fin nProc} {c' : FileCall} (hi : RefInv s) (hne : p ≠ q)
    (hq : c'.files = (s.proc q).call.files) (hp : c.files = (s.proc p).call.files) :
    RefInv ((s.setCall q c').setCall p c) := by
  have hchild : RefInv (s.setCall q c') := hi.call rfl hq fun _ => rfl
  exact hchild.call rfl (by rw [setCall_proc, if_neg hne, hp]) fun _ => rfl

theorem FileTrans.refInv {a : FileStep} {r : FileRet} (h : FileTrans s a r s') (hi : RefInv s)
    (hc : ChildInv s) : RefInv s' := by
  have hget : ∀ {f}, s.freeFile = some f →
      ((s.allocFile f).file f).ref = (s.file f).ref + 1 ∧
      ∀ g, g ≠ f → ((s.allocFile f).file g).ref = (s.file g).ref := fun hf =>
    ⟨(alloc_ref hf _).trans (by rw [if_pos rfl]),
      fun g hg => (alloc_ref hf g).trans (by rw [if_neg hg, add_zero])⟩
  cases h with
  | same a v => exact hi
  | alloc p rf hp hf =>
    refine hi.gainCall rfl (fun g => ?_) (hget hf).1 (hget hf).2
    rw [hp, FileCall.files_pipe1, FileCall.files_user, count_cons_eq]
  | noFile p page rf hp => exact hi.call rfl (by rw [hp]; rfl) fun _ => rfl
  | alloc₂ p page rf wf hp hf =>
    refine hi.gainCall rfl (fun g => ?_) (hget hf).1 (hget hf).2
    rw [hp, FileCall.files_pipe1, FileCall.files_pipe2, count_cons_eq, count_cons_eq,
      count_cons_eq, add_right_comm]
  | noPage p rf wf hp => exact hi.call rfl (by rw [hp]; rfl) fun _ => rfl
  | noFds p rf wf k data hp hk =>
    exact hi.call rfl (by rw [hp]; rfl) (pipealloc_ref s rf wf k data)
  | made p rf wf k data fd₀ fd₁ hp hk h₀ h₁ => exact hi.made hp h₀ h₁
  | openNoFd p readable writable f hp hf =>
    refine hi.gainCall rfl (fun g => ?_) (hget hf).1 (hget hf).2
    rw [hp, FileCall.files_closing, FileCall.files_user, count_cons_eq]
  | openFile p readable writable f fd hp hf hfd =>
    refine hi.gain rfl (fun g => ?_) (hget hf).1 (hget hf).2
    rw [refs_eq hp, FProc.refs]
    dsimp only
    rw [descriptors_put (fdalloc_free hfd), FileCall.files_opening, FileCall.files_user]
    omega
  | openEnd p f readable writable hp =>
    refine hi.call rfl (by rw [hp]; rfl) fun g => ?_
    rw [setCall_file, setFile_ref]
    split_ifs with hg
    · rw [hg]
    · rfl
  | dup p fd i fd' f hp hf hfd => exact hi.filedup (fdalloc_free hfd) (by rw [hp])
  | close p fd i f hp hf =>
    refine hi.keep rfl (fun g => ?_) fun _ => rfl
    have hsum := descriptors_update (s.proc p).ofile i none g
    simp only [argfd_eq hf, Option.some.injEq, reduceCtorEq, ↓reduceIte] at hsum
    rw [refs_eq hp, FProc.refs]
    dsimp only
    rw [FileCall.files_closing, FileCall.files_user, count_cons_eq]
    omega
  | fork p c hp hcall =>
    have hne : p ≠ c := by
      rintro rfl
      simp [hp] at hcall
    exact hi.callBoth hne (by rw [hcall]; rfl) (by rw [hp]; rfl)
  | forkSkip p c i hp hn => exact hi.call rfl (by rw [hp]; rfl) fun _ => rfl
  | forkCopy p c i f hp hf =>
    have hchild := hi.filedup (f := f) ((hc.embryo p c i hp).2 i le_rfl) rfl
    refine hchild.call rfl ?_ fun _ => rfl
    rw [setProc_proc, if_neg (hc.ne hp), setFile_proc, hp]
    rfl
  | forkEnd p c i hp =>
    have hemb := (hc.embryo p c i hp).1
    exact hi.callBoth (hc.ne hp) (by rw [hemb]; rfl) (by rw [hp]; rfl)
  | exit p hp =>
    refine hi.keep rfl (fun g => ?_) fun _ => rfl
    rw [refs_eq hp, FProc.refs]
    dsimp only
    rw [descriptors_none, FileCall.files_closing, FileCall.files_user, count_openFiles]
    exact Nat.add_comm _ _
  | closePipe p k w files exit P hp hP => exact hi.call rfl (by rw [hp]; rfl) fun _ => rfl
  | unref p f files exit hp href =>
    refine hi.loseCall (f := f) rfl (fun g => ?_) ?_ fun g hg => ?_
    · rw [hp, FileCall.files_closing, FileCall.files_closing, count_cons_eq]
    · rw [setCall_file, setFile_ref, if_pos rfl]
    · rw [setCall_file, setFile_ref, if_neg hg]
  | closeFile p f files exit hp href =>
    refine hi.loseCall (f := f) rfl (fun g => ?_) ?_ fun g hg => ?_
    · rw [hp, FileCall.files_closing, FileCall.files_closing, count_cons_eq]
    · rw [setCall_file, setFile_ref, if_pos rfl, href, sub_self]
    · rw [setCall_file, setFile_ref, if_neg hg]
  | gone p hp => exact hi.call rfl (by rw [hp]; rfl) fun _ => rfl
  | back p hp => exact hi.call rfl (by rw [hp]; rfl) fun _ => rfl
  | write p k n rest P ha hP h =>
    obtain ⟨hfile, c, hc, hproc⟩ := h.proc_eq
    exact hi.call hproc (by rw [hc, ha.files]) fun f => by rw [hfile]
  | read p k n P ha hP h =>
    obtain ⟨hfile, c, hc, hproc⟩ := h.proc_eq
    exact hi.call hproc (by rw [hc, ha.files]) fun f => by rw [hfile]
  | kill p => exact hi.congr rfl fun _ => rfl

end

end SsuOs.Xv6
