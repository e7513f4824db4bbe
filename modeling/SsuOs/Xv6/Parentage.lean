import SsuOs.Xv6.Introspection

/-! The parent of a process is recorded twice, as a pointer and as the pid that
`get_proc_info` reports. `exit` passes children on to `init` by the pointer only. -/
namespace SsuOs.Xv6
open Kernel Lib

/-- States of a process that `fork` has finished and `wait` has not cleared. -/
def ProcState.Made (s : ProcState) : Prop :=
  s = .runnable ∨ s = .running ∨ s = .sleeping ∨ s = .zombie

instance (s : ProcState) : Decidable s.Made := inferInstanceAs (Decidable (_ ∨ _))

theorem ProcState.made_iff (s : ProcState) : s.Made ↔ s ≠ .unused ∧ s ≠ .embryo := by
  cases s <;> simp [Made]

/-- Every process that has a parent carries the parent's pid. -/
def TrueParentage (k : Kernel) : Prop :=
  ∀ j i, (k.proc j).state.Made → (k.proc j).parent = some i → (k.proc j).ppid = (k.proc i).pid

/-- The process that exits leaves no child behind, or has the pid of `init`. -/
def LeavesNoOrphan (a : Step) (k : Kernel) : Prop :=
  a = .exit → ∀ i, k.cur = some i →
    (∀ j, (k.proc j).parent ≠ some i) ∨ (k.proc i).pid = (k.proc k.initproc).pid

instance (a : Step) (k : Kernel) : Decidable (LeavesNoOrphan a k) :=
  inferInstanceAs (Decidable (_ → _))

/-- Parents are active, only made processes and children ready to be made have one, and the pid
of the latter's parent is recorded. -/
structure FamilyInv (k : Kernel) : Prop extends ForkInv k where
  init_active : (k.proc k.initproc).state.Active
  parent_active : ∀ j i, (k.proc j).parent = some i → (k.proc i).state.Active
  unused_parent : ∀ j, (k.proc j).state = .unused → (k.proc j).parent = none
  embryo_parent : ∀ j i, (k.proc j).state = .embryo → (k.proc j).parent = some i →
    k.cont i = .commit j
  commit_parent : ∀ i np, k.cont i = .commit np →
    (k.proc np).parent = some i ∧ (k.proc np).ppid = (k.proc i).pid

theorem ProcState.active_iff (s : ProcState) :
    s.Active ↔ s ≠ .unused ∧ s ≠ .embryo ∧ s ≠ .zombie := by
  cases s <;> simp [Active]

section

variable {k k' : Kernel} {i j np : Fin nProc}

theorem Steady.active (h : Steady k k') (hs : (k.proc j).state.Active) :
    (k'.proc j).state.Active := by
  rw [ProcState.active_iff] at hs ⊢
  exact ⟨mt (h.unused j).mp hs.1, mt (h.embryo j).mp hs.2.1, mt (h.zombie j) hs.2.2⟩

theorem Similar.made (h : Similar k k') :
    (k'.proc j).state.Made ↔ (k.proc j).state.Made := by
  rw [ProcState.made_iff, ProcState.made_iff, Ne, Ne, h.unused, h.embryo]

theorem FamilyInv.parent_ne (hi : FamilyInv k) (hs : ¬(k.proc i).state.Active) :
    (k.proc j).parent ≠ some i := fun hp => hs (hi.parent_active j i hp)

/-- A child for which `fork` has not come to `np->parent` yet. -/
theorem FamilyInv.parent_none (hi : FamilyInv k) (hu : (k.cont i).child = some np)
    (hn : ∀ m, k.cont i ≠ .commit m) : (k.proc np).parent = none := by
  cases hp : (k.proc np).parent with
  | none => rfl
  | some l =>
    have hc := hi.embryo_parent np l (hi.child_embryo i np hu) hp
    have hli := hi.child_inj l i np (by rw [hc]; rfl) hu
    exact absurd (hli ▸ hc) (hn np)

theorem FamilyInv.steady (hi : FamilyInv k) (h : Steady k k') (hf : ForkInv k') :
    FamilyInv k' := by
  refine ⟨hf, ?_, fun j i hp => ?_, fun j hu => ?_, fun j i he hp => ?_, fun i np hc => ?_⟩
  · rw [h.initproc]
    exact h.active hi.init_active
  · rw [h.parent] at hp
    exact h.active (hi.parent_active j i hp)
  · rw [h.parent]
    exact hi.unused_parent j ((h.unused j).mp hu)
  · rw [h.parent] at hp
    exact (h.commit i j).mpr (hi.embryo_parent j i ((h.embryo j).mp he) hp)
  · rw [h.parent, h.ppid, h.pid]
    exact hi.commit_parent i np ((h.commit i np).mp hc)

theorem TrueParentage.steady (hp : TrueParentage k) (h : Steady k k') : TrueParentage k' := by
  intro j i hm hpar
  rw [h.parent] at hpar
  rw [h.ppid, h.pid]
  exact hp j i (h.made.mp hm) hpar

/-- An embryo is nobody's parent and not `init`. -/
theorem FamilyInv.active_ne (hi : FamilyInv k) (hu : (k.cont i).child = some np)
    (hs : (k.proc j).state.Active) : j ≠ np := by
  rintro rfl
  rw [hi.child_embryo i j hu] at hs
  simp [ProcState.Active] at hs

theorem FamilyInv.finishFork {s : ProcState} (hi : FamilyInv k)
    (hu : (k.cont i).child = some np)
    (hs : s = .unused ∧ (k.proc np).parent = none ∨ s = .runnable)
    (hf : ForkInv ((k.modify np (fun p => { p with state := s })).setCont i .user)) :
    FamilyInv ((k.modify np (fun p => { p with state := s })).setCont i .user) := by
  have hactive : ∀ l, (k.proc l).state.Active →
      (((k.modify np (fun p => { p with state := s })).setCont i .user).proc l).state.Active := by
    intro l hl
    rw [setCont_proc, modify_proc, if_neg (hi.active_ne hu hl)]
    exact hl
  have hparent : ∀ l, (((k.modify np (fun p => { p with state := s })).setCont i .user).proc
      l).parent = (k.proc l).parent := by
    intro l
    rw [setCont_proc, modify_proc]
    split_ifs with hl
    · rw [hl]
    · rfl
  refine ⟨hf, hactive _ hi.init_active, fun l m hp => ?_, fun l hl => ?_, fun l m he hp => ?_,
    fun l m hc => ?_⟩
  · rw [hparent] at hp
    exact hactive m (hi.parent_active l m hp)
  · rw [hparent]
    rw [setCont_proc, modify_proc] at hl
    split_ifs at hl with hln
    · rcases hs with hs | hs
      · rw [hln]
        exact hs.2
      · simp [hs] at hl
    · exact hi.unused_parent l hl
  · rw [hparent] at hp
    rw [setCont_proc, modify_proc] at he
    split_ifs at he with hln
    · rcases hs with hs | hs
      · simp [hs.1] at he
      · simp [hs] at he
    · have hc := hi.embryo_parent l m he hp
      have hmi : m ≠ i := by
        rintro rfl
        rw [hc] at hu
        exact hln (Option.some.inj hu)
      rw [setCont_cont, if_neg hmi]
      exact hc
  · rw [setCont_cont] at hc
    split_ifs at hc with hli
    have hlm := hi.commit_parent l m hc
    have hln : l ≠ np := hi.active_ne hu (hi.parent_active m l hlm.1)
    rw [hparent]
    refine ⟨hlm.1, ?_⟩
    simp only [setCont_proc, modify_proc, if_neg hln]
    split_ifs with hmn
    · rw [← hmn]
      exact hlm.2
    · exact hlm.2

theorem FamilyInv.allocate {n : ℤ} {f : Proc → Proc} (hi : FamilyInv k) (hc : k.cur = some i)
    (hu : k.cont i = .user) (hnp : (k.proc np).state = .unused)
    (hpar : ∀ p, (f p).parent = p.parent) (he : ∀ p, (f p).state = .embryo) :
    FamilyInv (Kernel.setCont { k.modify np f with nextpid := n } i (.kalloc np)) := by
  have hnone := hi.unused_parent np hnp
  have hne : ∀ l, (k.proc l).state.Active → l ≠ np := by
    rintro l hl rfl
    simp [hnp, ProcState.Active] at hl
  refine ⟨hi.toForkInv.allocate hc hu hnp he, ?_, fun l m hp => ?_, fun l hl => ?_,
    fun l m hl hp => ?_, fun l m hcl => ?_⟩
  all_goals simp only [setCont_proc, modify_proc, setCont_cont, modify_cont] at *
  · change ((if k.initproc = np then _ else _ : Proc)).state.Active
    rw [if_neg (hne _ hi.init_active)]
    exact hi.init_active
  · split_ifs at hp with hln
    · rw [hpar, hnone] at hp
      simp at hp
    · have hm := hi.parent_active l m hp
      rw [if_neg (hne m hm)]
      exact hm
  · split_ifs at hl ⊢ with hln
    · rw [hpar, hnone]
    · exact hi.unused_parent l hl
  · split_ifs at hl hp with hln
    · rw [hpar, hnone] at hp
      simp at hp
    · have hcm := hi.embryo_parent l m hl hp
      have hmi : m ≠ i := by
        rintro rfl
        simp [hu] at hcm
      rw [if_neg hmi]
      exact hcm
  · split_ifs at hcl with hli
    have hlm := hi.commit_parent l m hcl
    have hmn : m ≠ np := by
      rintro rfl
      rw [hnone] at hlm
      simp at hlm
    rw [if_neg hmn, if_neg (hne l (hi.parent_active m l hlm.1))]
    exact hlm

theorem FamilyInv.copyuvmOk (hi : FamilyInv k) (hc : k.cur = some i)
    (hu : k.cont i = .copyuvm np)
    (hf : ForkInv ((k.modify np (fun p => { p with
      sz := (k.proc i).sz, parent := some i, ppid := (k.proc i).pid })).setCont i (.commit np))) :
    FamilyInv ((k.modify np (fun p => { p with
      sz := (k.proc i).sz, parent := some i, ppid := (k.proc i).pid })).setCont i
        (.commit np)) := by
  have hchild : (k.cont i).child = some np := by
    rw [hu]
    rfl
  have hemb := hi.child_embryo i np hchild
  have hia : (k.proc i).state.Active := Or.inr (Or.inr (hi.cur_running hc))
  have hin := hi.active_ne hchild hia
  have hnone := hi.parent_none hchild (by simp [hu])
  refine ⟨hf, ?_, fun l m hp => ?_, fun l hl => ?_, fun l m hl hp => ?_, fun l m hcl => ?_⟩
  all_goals simp only [setCont_proc, modify_proc, setCont_cont, modify_cont] at *
  · change ((if k.initproc = np then _ else _ : Proc)).state.Active
    rw [if_neg (hi.active_ne hchild hi.init_active)]
    exact hi.init_active
  · have hm : (k.proc m).state.Active := by
      split_ifs at hp with hln
      · rw [← Option.some.inj hp]
        exact hia
      · exact hi.parent_active l m hp
    rw [if_neg (hi.active_ne hchild hm)]
    exact hm
  · split_ifs at hl ⊢ with hln
    · simp [hemb] at hl
    · exact hi.unused_parent l hl
  · split_ifs at hl hp with hln
    · rw [if_pos (Option.some.inj hp).symm, hln]
    · have hcm := hi.embryo_parent l m hl hp
      have hmi : m ≠ i := by
        rintro rfl
        simp [hu] at hcm
      rw [if_neg hmi]
      exact hcm
  · split_ifs at hcl with hli
    · have hmn : m = np := by simpa using hcl.symm
      rw [hmn, if_pos rfl, hli, if_neg hin]
      exact ⟨rfl, rfl⟩
    · have hlm := hi.commit_parent l m hcl
      have hmn : m ≠ np := by
        rintro rfl
        rw [hnone] at hlm
        simp at hlm
      rw [if_neg hmn, if_neg (hi.active_ne hchild (hi.parent_active m l hlm.1))]
      exact hlm

theorem FamilyInv.reap {f : Proc → Proc} (hi : FamilyInv k) (hz : (k.proc j).state = .zombie)
    (hu : (f (k.proc j)).state = .unused) (hn : (f (k.proc j)).parent = none) :
    FamilyInv (k.modify j f) := by
  have hne : ∀ l, (k.proc l).state.Active → l ≠ j := by
    rintro l hl rfl
    simp [hz, ProcState.Active] at hl
  refine ⟨hi.toForkInv.reap hz hu, ?_, fun l m hp => ?_, fun l hl => ?_, fun l m hl hp => ?_,
    fun l m hcl => ?_⟩
  all_goals simp only [modify_proc, modify_cont] at *
  · change ((if k.initproc = j then _ else _ : Proc)).state.Active
    rw [if_neg (hne _ hi.init_active)]
    exact hi.init_active
  · split_ifs at hp with hlj
    · simp [hn] at hp
    · have hm := hi.parent_active l m hp
      rw [if_neg (hne m hm)]
      exact hm
  · split_ifs at hl ⊢ with hlj
    · exact hn
    · exact hi.unused_parent l hl
  · split_ifs at hl hp with hlj
    · simp [hu] at hl
    · exact hi.embryo_parent l m hl hp
  · have hlm := hi.commit_parent l m hcl
    have hmj : m ≠ j := by
      rintro rfl
      have hemb := hi.child_embryo l m (by rw [hcl]; rfl)
      simp [hz] at hemb
    rw [if_neg hmj, if_neg (hne l (hi.parent_active m l hlm.1))]
    exact hlm

theorem exitProc_parent (k : Kernel) (i j : Fin nProc) :
    ((k.exitProc i).proc j).ppid = (k.proc j).ppid ∧ ((k.exitProc i).proc j).parent =
      if (k.proc j).parent = some i then some k.initproc else (k.proc j).parent := by
  obtain ⟨k₁, hq, hexit⟩ := exitProc_eq i k
  have hppid : ((k.exitProc i).proc j).ppid = (k₁.proc j).ppid := by
    rw [hexit]
    by_cases hj : j = i <;> simp [sched, hj]
  have hpar : ((k.exitProc i).proc j).parent = (k₁.proc j).parent := by
    rw [hexit]
    by_cases hj : j = i <;> simp [sched, hj]
  rw [hppid, hpar, hq.ppid, hq.parent]
  simp

theorem exitProc_active (hs : (k.proc j).state.Active) (hj : j ≠ i) :
    ((k.exitProc i).proc j).state.Active := by
  obtain ⟨k₁, hq, hexit⟩ := exitProc_eq i k
  rw [hexit, sched_state, modify_proc, if_neg hj]
  rw [ProcState.active_iff] at hs ⊢
  exact ⟨mt (hq.unused j).mp hs.1, mt (hq.embryo j).mp hs.2.1, mt (hq.zombie j) hs.2.2⟩

theorem FamilyInv.exitProc (hi : FamilyInv k) (hc : k.cur = some i) (hu : k.cont i = .user)
    (hinit : i ≠ k.initproc) : FamilyInv (k.exitProc i) := by
  have hsim := exitProc_similar hi.toForkInv hc
  have hcont : (k.exitProc i).cont = k.cont := by
    obtain ⟨k₁, hq, hexit⟩ := exitProc_eq i k
    rw [hexit]
    exact hq.cont
  have hinit' : (k.exitProc i).initproc = k.initproc := by
    obtain ⟨k₁, hq, hexit⟩ := exitProc_eq i k
    rw [hexit]
    exact hq.initproc
  have hactive := exitProc_active hi.init_active hinit.symm
  refine ⟨hi.toForkInv.exitProc hc hu, ?_, fun l m hp => ?_, fun l hl => ?_, fun l m hl hp => ?_,
    fun l m hcl => ?_⟩
  · rw [hinit']
    exact hactive
  · rw [(exitProc_parent k i l).2] at hp
    split_ifs at hp with hli
    · rw [← Option.some.inj hp]
      exact hactive
    · exact exitProc_active (hi.parent_active l m hp) (fun hm => hli (hm ▸ hp))
  · rw [(exitProc_parent k i l).2, hi.unused_parent l ((hsim.unused l).mp hl)]
    simp
  · rw [hsim.embryo] at hl
    rw [(exitProc_parent k i l).2] at hp
    rw [hcont]
    split_ifs at hp with hli
    · have hcm := hi.embryo_parent l i hl hli
      simp [hu] at hcm
    · exact hi.embryo_parent l m hl hp
  · rw [hcont] at hcl
    have hlm := hi.commit_parent l m hcl
    have hli : l ≠ i := by
      rintro rfl
      simp [hu] at hcl
    obtain ⟨hppid, hpar⟩ := exitProc_parent k i m
    rw [hppid, hpar, hlm.1, if_neg (by simpa using hli), hsim.pid]
    exact ⟨rfl, hlm.2⟩

theorem Effect.familyInv {a : Step} {r : Ret} (h : Effect k a r k') (hi : FamilyInv k) :
    FamilyInv k' := by
  have hf' := h.forkInv hi.toForkInv
  cases h with
  | steady h => exact hi.steady h hf'
  | allocate i np hc hu hnp => exact hi.allocate hc hu hnp (fun _ => rfl) (fun _ => rfl)
  | failFork i np hc hu =>
    have hchild : (k.cont i).child = some np := by
      rcases hu with hu | hu <;> rw [hu] <;> rfl
    refine hi.finishFork hchild (Or.inl ⟨rfl, hi.parent_none hchild fun m => ?_⟩) hf'
    rcases hu with hu | hu <;> simp [hu]
  | copyuvmOk i np hc hu => exact hi.copyuvmOk hc hu hf'
  | commit i np hc hu => exact hi.finishFork (by rw [hu]; rfl) (Or.inr rfl) hf'
  | exit i hc hu hinit => exact hi.exitProc hc hu hinit
  | reap i j hc h₀ hf₀ hj => exact (hi.steady h₀ hf₀).reap hj.2 rfl rfl

theorem TrueParentage.of_modify {f : Proc → Proc} (hp : TrueParentage k)
    (hk : k'.proc = (k.modify np f).proc)
    (hpid : (f (k.proc np)).pid = (k.proc np).pid ∨ ∀ m, (k.proc m).parent ≠ some np)
    (hmade : (f (k.proc np)).state.Made → ∀ l, (f (k.proc np)).parent = some l →
      (f (k.proc np)).ppid = (k'.proc l).pid) : TrueParentage k' := by
  intro j l hm hpar
  by_cases hj : j = np
  · have hnp : k'.proc j = f (k.proc np) := by rw [hk, modify_proc, if_pos hj]
    rw [hnp] at hm hpar ⊢
    exact hmade hm l hpar
  · have hother : k'.proc j = k.proc j := by rw [hk, modify_proc, if_neg hj]
    rw [hother] at hm hpar ⊢
    have hl : (k'.proc l).pid = (k.proc l).pid := by
      rw [hk, modify_proc]
      split_ifs with hln
      · rcases hpid with hpid | hno
        · rw [hpid, hln]
        · exact absurd (hln ▸ hpar) (hno j)
      · rfl
    rw [hl]
    exact hp j l hm hpar

theorem exitProc_trueParentage_iff (hi : FamilyInv k) (hp : TrueParentage k)
    (hc : k.cur = some i) (hu : k.cont i = .user) :
    TrueParentage (k.exitProc i) ↔ LeavesNoOrphan .exit k := by
  have hsim := exitProc_similar hi.toForkInv hc
  constructor
  · intro hp' _ m hm
    obtain rfl : i = m := by simpa [hc] using hm
    by_contra! hcon
    obtain ⟨⟨j, hj⟩, hne⟩ := hcon
    have hmade : (k.proc j).state.Made := by
      rw [ProcState.made_iff]
      constructor
      · intro hun
        simp [hi.unused_parent j hun] at hj
      · intro hemb
        have hcm := hi.embryo_parent j i hemb hj
        simp [hu] at hcm
    obtain ⟨hppid, hpar⟩ := exitProc_parent k i j
    have h' := hp' j k.initproc (hsim.made.mpr hmade) (by rw [hpar, if_pos hj])
    rw [hppid, hsim.pid, hp j i hmade hj] at h'
    exact hne h'
  · intro hgood j l hm hpar
    obtain ⟨hppid, hpar'⟩ := exitProc_parent k i j
    rw [hpar'] at hpar
    rw [hppid, hsim.pid]
    have hmade := hsim.made.mp hm
    split_ifs at hpar with hj
    · rcases hgood rfl i hc with hno | hpid
      · exact absurd hj (hno j)
      · rw [← Option.some.inj hpar, ← hpid]
        exact hp j i hmade hj
    · exact hp j l hmade hpar

/-- Of all steps only `exit` can separate the two records, and does so exactly when it leaves an
orphan while its pid is not that of `init`. -/
theorem Effect.trueParentage_iff {a : Step} {r : Ret} (h : Effect k a r k') (hi : FamilyInv k)
    (hp : TrueParentage k) : TrueParentage k' ↔ LeavesNoOrphan a k := by
  have hgood : a ≠ .exit → LeavesNoOrphan a k := fun hne he => absurd he hne
  cases h with
  | steady h _ _ _ hx => exact iff_of_true (hp.steady h) (hgood hx)
  | allocate i np hc hu hnp =>
    have hno : ∀ m, (k.proc m).parent ≠ some np := fun m =>
      hi.parent_ne (by simp [hnp, ProcState.Active])
    refine iff_of_true (hp.of_modify (f := fun p => { p with
      state := .embryo, pid := k.nextpid, ppid := 0, nswitch := 0, priority := 500 }) rfl
      (Or.inr hno) fun hm => ?_) (hgood (by simp))
    simp [ProcState.Made] at hm
  | failFork i np hc hu ha =>
    have hx : a ≠ .exit := by
      rintro rfl
      simp [Step.OutOfMemory] at ha
    refine iff_of_true (hp.of_modify (setCont_proc _ _ _) (Or.inl rfl) fun hm => ?_) (hgood hx)
    simp [ProcState.Made] at hm
  | copyuvmOk i np hc hu =>
    have hemb := hi.child_embryo i np (by rw [hu]; rfl)
    refine iff_of_true (hp.of_modify (setCont_proc _ _ _) (Or.inl rfl) fun hm => ?_)
      (hgood (by simp))
    simp [ProcState.Made, hemb] at hm
  | commit i np hc hu =>
    have hcm := hi.commit_parent i np hu
    have hne := hi.active_ne (by rw [hu]; rfl) (hi.parent_active np i hcm.1)
    refine iff_of_true (hp.of_modify (setCont_proc _ _ _) (Or.inl rfl) fun _ l hl => ?_)
      (hgood (by simp))
    have hli : i = l := Option.some.inj (hcm.1.symm.trans hl)
    rw [← hli, setCont_proc, modify_proc, if_neg hne]
    exact hcm.2
  | exit i hc hu => exact exitProc_trueParentage_iff hi hp hc hu
  | reap i j hc h₀ hf₀ hj =>
    have hi₀ := hi.steady h₀ hf₀
    have hno := fun m => hi₀.parent_ne (j := m) (i := j) (by simp [hj.2, ProcState.Active])
    refine iff_of_true ((hp.steady h₀).of_modify rfl (Or.inr hno) fun hm => ?_) (hgood (by simp))
    simp [ProcState.Made] at hm

end

theorem familyInv_userinit : FamilyInv userinit := by
  have hnone : ∀ j, (userinit.proc j).parent = none := by
    intro j
    by_cases hj : j = 0
    · rw [hj]
      rfl
    · rw [userinit_proc_of_ne hj]
      rfl
  refine ⟨forkInv_userinit, Or.inr (Or.inl rfl), fun j i hp => ?_, fun j _ => hnone j,
    fun j i _ hp => ?_, fun i np hc => ?_⟩
  · simp [hnone] at hp
  · simp [hnone] at hp
  · simp [userinit] at hc

theorem trueParentage_userinit : TrueParentage userinit := by
  intro j i _ hp
  by_cases hj : j = 0
  · subst hj
    cases hp
  · rw [userinit_proc_of_ne hj] at hp
    cases hp

/-- `wait` of the process on the CPU clears the entry `j`. -/
def Reaps (k : Kernel) (i j : Fin nProc) : Prop :=
  k.cur = some i ∧ (k.proc j).state = .zombie ∧
    ∃ r k', exec .wait k = .ok (r, k') ∧ (k'.proc j).state = .unused

theorem Reaps.parent {k : Kernel} {i j : Fin nProc} (h : Reaps k i j) (hf : ForkInv k) :
    (k.proc j).parent = some i := by
  obtain ⟨hc, hz, r, k', he, hu⟩ := h
  have heff := (exec_trans he).effect hf
  cases heff with
  | steady h =>
    rw [h.unused] at hu
    simp [hz] at hu
  | failFork i np hc hu ha => simp [Step.OutOfMemory] at ha
  | reap i' j' hc' h₀ hf₀ hj' =>
    rw [modify_proc] at hu
    split_ifs at hu with hjj
    · rw [hc] at hc'
      rw [← h₀.parent, hjj, hj'.1, Option.some.inj hc']
    · rw [h₀.unused] at hu
      simp [hz] at hu

/-- In every run, the ppid of every process is the pid of its parent in all states exactly when
no process exits that leaves children behind, unless its pid is that of `init`. Where this holds,
the reported ppid is that of the process whose `wait` clears the entry. -/
theorem trueParentage_iff_leavesNoOrphan {tr : List (Event Kernel Step Ret)} {k : Kernel}
    (h : KernelRun tr k) :
    ((TrueParentage k ∧ ∀ e ∈ tr, TrueParentage e.pre) ↔
      ∀ e ∈ tr, LeavesNoOrphan e.call e.pre) ∧
    (TrueParentage k → ∀ i j, Reaps k i j → (k.proc j).info.ppid = (k.proc i).pid) := by
  constructor
  · apply h.forall_iff_good FamilyInv TrueParentage LeavesNoOrphan
    · rintro _ rfl
      exact ⟨familyInv_userinit, trueParentage_userinit⟩
    · intro k a r k' hi _ he
      exact ((exec_trans he).effect hi.toForkInv).familyInv hi
    · intro k a r k' hi hp _ he
      exact ((exec_trans he).effect hi.toForkInv).trueParentage_iff hi hp
  · intro hp i j hr
    have hmade : (k.proc j).state.Made := Or.inr (Or.inr (Or.inr hr.2.1))
    exact hp j i hmade (hr.parent (forkInv_of_run h))

/-- `init` forks a child that exits and is cleared by the next `wait`. -/
def childExits : List Step :=
  [.scheduler, .scheduler, .allocproc, .kalloc true, .copyuvm true, .commit, .yield, .scheduler,
    .exit]

theorem trueParentage_childExits : ∃ tr k, KernelRun tr k ∧ (k.proc 1).state = .zombie ∧
    TrueParentage k := by
  have h : ∃ tr k, KernelRun tr k ∧ decide ((∀ e ∈ tr, LeavesNoOrphan e.call e.pre) ∧
      (k.proc 1).state = .zombie) = true :=
    Run.exists_of_replayCheck childExits rfl (by decide +kernel)
  obtain ⟨tr, k, hrun, hp⟩ := h
  obtain ⟨hgood, hz⟩ := of_decide_eq_true hp
  exact ⟨tr, k, hrun, hz, ((trueParentage_iff_leavesNoOrphan hrun).1.mpr hgood).1⟩

/-- `init` forks a child that forks a grandchild and exits. -/
def orphaned : List Step :=
  [.scheduler, .scheduler, .allocproc, .kalloc true, .copyuvm true, .commit, .yield, .scheduler,
    .allocproc, .kalloc true, .copyuvm true, .commit, .exit]

/-- The grandchild is a child of `init` now, but its ppid is that of the exited process. -/
theorem orphan_keeps_ppid : ∃ tr k, KernelRun tr k ∧ (k.proc 2).state = .runnable ∧
    (k.proc 2).parent = some 0 ∧ (k.proc 0).pid = 1 ∧ (k.proc 2).ppid = 2 ∧
    ¬TrueParentage k := by
  have h : ∃ tr k, KernelRun tr k ∧ decide ((k.proc 2).state = .runnable ∧
      (k.proc 2).parent = some 0 ∧ (k.proc 0).pid = 1 ∧ (k.proc 2).ppid = 2) = true :=
    Run.exists_of_replayCheck orphaned rfl (by decide +kernel)
  obtain ⟨tr, k, hrun, hp⟩ := h
  obtain ⟨hs, hpar, hpid, hppid⟩ := of_decide_eq_true hp
  refine ⟨tr, k, hrun, hs, hpar, hpid, hppid, fun htrue => ?_⟩
  have heq := htrue 2 0 (Or.inl hs) hpar
  omega

end SsuOs.Xv6
