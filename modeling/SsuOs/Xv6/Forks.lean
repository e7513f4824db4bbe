import SsuOs.Xv6.Trans

/-! Who holds the CPU, which entries are half-made children, and what a step can do to them. None
of this depends on pids, so it holds in every run. -/
namespace SsuOs.Xv6
open Kernel

/-- `k'` differs from `k` only in what the pids and the forks in progress do not depend on. -/
structure Similar (k k' : Kernel) : Prop where
  nextpid : k'.nextpid = k.nextpid
  pid : ∀ i, (k'.proc i).pid = (k.proc i).pid
  unused : ∀ i, (k'.proc i).state = .unused ↔ (k.proc i).state = .unused
  embryo : ∀ i, (k'.proc i).state = .embryo ↔ (k.proc i).state = .embryo
  child : ∀ i, (k'.cont i).child = (k.cont i).child

theorem Similar.trans {k k' k'' : Kernel} (h : Similar k k') (h' : Similar k' k'') :
    Similar k k'' :=
  ⟨h'.nextpid.trans h.nextpid, fun i => (h'.pid i).trans (h.pid i),
    fun i => (h'.unused i).trans (h.unused i), fun i => (h'.embryo i).trans (h.embryo i),
    fun i => (h'.child i).trans (h.child i)⟩

theorem similar_modify {k : Kernel} {i : Fin nProc} {f : Proc → Proc}
    (hp : (f (k.proc i)).pid = (k.proc i).pid)
    (hu : (f (k.proc i)).state = .unused ↔ (k.proc i).state = .unused)
    (he : (f (k.proc i)).state = .embryo ↔ (k.proc i).state = .embryo) :
    Similar k (k.modify i f) := by
  refine ⟨rfl, fun j => ?_, fun j => ?_, fun j => ?_, fun j => rfl⟩
  all_goals
    rw [modify_proc]
    split_ifs with hj
    · subst hj; assumption
    · rfl

theorem similar_setCont {k : Kernel} {i : Fin nProc} {c : Cont}
    (h : c.child = (k.cont i).child) : Similar k (k.setCont i c) := by
  refine ⟨rfl, fun j => rfl, fun j => Iff.rfl, fun j => Iff.rfl, fun j => ?_⟩
  rw [setCont_cont]
  split_ifs with hj
  · rw [h, hj]
  · rfl

theorem similar_wakeup1 (c : Chan) (k : Kernel) : Similar k (k.wakeup1 c) := by
  refine ⟨rfl, fun j => ?_, fun j => ?_, fun j => ?_, fun j => rfl⟩
  all_goals
    simp only [wakeup1]
    split_ifs with hs
    · simp [hs.1]
    · rfl

theorem sched_cur (i : Fin nProc) (k : Kernel) : (k.sched i).cur = none := rfl

theorem sched_state (i j : Fin nProc) (k : Kernel) :
    ((k.sched i).proc j).state = (k.proc j).state := by
  simp only [sched, modify_proc]
  split_ifs with hj
  · rw [hj]
  · rfl

/-- Waking and adopting processes neither makes nor unmakes an entry, and no new zombie. -/
structure Quiet (k k' : Kernel) : Prop extends Similar k k' where
  zombie : ∀ i, (k'.proc i).state = .zombie → (k.proc i).state = .zombie
  cont : k'.cont = k.cont

theorem Quiet.refl (k : Kernel) : Quiet k k :=
  ⟨⟨rfl, fun _ => rfl, fun _ => .rfl, fun _ => .rfl, fun _ => rfl⟩, fun _ => id, rfl⟩

theorem quiet_wakeup1 (c : Chan) (k : Kernel) : Quiet k (k.wakeup1 c) := by
  refine ⟨similar_wakeup1 c k, fun i => ?_, rfl⟩
  simp only [wakeup1]
  split_ifs
  · simp
  · exact id

theorem Quiet.trans {k k' k'' : Kernel} (h : Quiet k k') (h' : Quiet k' k'') : Quiet k k'' :=
  ⟨h.toSimilar.trans h'.toSimilar, fun i hz => h.zombie i (h'.zombie i hz), h'.cont.trans h.cont⟩

/-- `k'` is `k` after `exit` of `i` has looked at the entries `js`. -/
structure PassedOn (i : Fin nProc) (js : List (Fin nProc)) (k k' : Kernel) : Prop
    extends Quiet k k' where
  initproc : k'.initproc = k.initproc
  running : ∀ j, (k'.proc j).state = .running → (k.proc j).state = .running
  ppid : ∀ j, (k'.proc j).ppid = (k.proc j).ppid
  parent : ∀ j, (k'.proc j).parent =
    if j ∈ js ∧ (k.proc j).parent = some i then some k.initproc else (k.proc j).parent

theorem passedOn_wakeup1 (i : Fin nProc) (c : Chan) (k : Kernel) :
    PassedOn i [] k (k.wakeup1 c) := by
  refine ⟨quiet_wakeup1 c k, rfl, fun j => ?_, fun j => ?_, fun j => ?_⟩
  all_goals
    simp only [wakeup1]
    split_ifs <;> simp_all

theorem PassedOn.trans {i : Fin nProc} {js js' : List (Fin nProc)} {k k' k'' : Kernel}
    (h : PassedOn i js k k') (h' : PassedOn i js' k' k'') : PassedOn i (js ++ js') k k'' := by
  refine ⟨h.toQuiet.trans h'.toQuiet, h'.initproc.trans h.initproc, fun j hj => ?_, fun j => ?_,
    fun j => ?_⟩
  · exact h.running j (h'.running j hj)
  · rw [h'.ppid, h.ppid]
  · rw [h'.parent, h.parent, h.initproc]
    by_cases hj : j ∈ js ∧ (k.proc j).parent = some i
    · simp [hj]
    · rw [if_neg hj]
      have hiff : j ∈ js' ∧ (k.proc j).parent = some i ↔
          j ∈ js ++ js' ∧ (k.proc j).parent = some i := by
        rw [List.mem_append]
        tauto
      simp only [hiff]

theorem passedOn_adopt (i j : Fin nProc) (k : Kernel) : PassedOn i [j] k (k.adopt i j) := by
  unfold adopt
  split_ifs with hp
  · have hm : PassedOn i [j] k (k.modify j (fun p => { p with parent := some k.initproc })) := by
      refine ⟨⟨similar_modify rfl Iff.rfl Iff.rfl, fun l => ?_, rfl⟩, rfl, fun l => ?_,
        fun l => ?_, fun l => ?_⟩
      all_goals
        rw [modify_proc]
        by_cases hl : l = j
        · simp [hl, hp]
        · simp [hl]
    dsimp only
    split_ifs
    · have hw := hm.trans (passedOn_wakeup1 i (.proc k.initproc)
        (k.modify j (fun p => { p with parent := some k.initproc })))
      exact hw
    · exact hm
  · refine ⟨Quiet.refl k, rfl, fun _ => id, fun _ => rfl, fun l => ?_⟩
    rw [if_neg]
    rintro ⟨hl, hpl⟩
    exact hp (List.mem_singleton.mp hl ▸ hpl)

theorem passedOn_abandonChildren (i : Fin nProc) (k : Kernel) :
    PassedOn i (List.finRange nProc) k (k.abandonChildren i) := by
  unfold abandonChildren
  induction List.finRange nProc generalizing k with
  | nil =>
    refine ⟨Quiet.refl k, rfl, fun _ => id, fun _ => rfl, fun l => ?_⟩
    simp
  | cons j l ih =>
    rw [List.foldl_cons]
    exact (passedOn_adopt i j k).trans (ih _)

/-- Every process inside `fork` holds a child of its own that is still an embryo, and the running
process is the one on the CPU. -/
structure ForkInv (k : Kernel) : Prop where
  running_iff : ∀ i, (k.proc i).state = .running ↔ k.cur = some i
  child_embryo : ∀ i np, (k.cont i).child = some np → (k.proc np).state = .embryo
  child_inj : ∀ i j np, (k.cont i).child = some np → (k.cont j).child = some np → i = j
  no_child : ∀ i, (k.proc i).state = .unused ∨ (k.proc i).state = .embryo ∨
    (k.proc i).state = .zombie → (k.cont i).child = none

section

variable {k k' : Kernel} {i np : Fin nProc}

theorem ForkInv.cur_running (hf : ForkInv k) (hc : k.cur = some i) :
    (k.proc i).state = .running := (hf.running_iff i).mpr hc

theorem ForkInv.not_running (hf : ForkInv k) (hc : k.cur = none) (j : Fin nProc) :
    (k.proc j).state ≠ .running := by
  rw [Ne, hf.running_iff, hc]
  simp

theorem ForkInv.of_similar (hf : ForkInv k) (h : Similar k k')
    (hz : ∀ j, (k'.proc j).state = .zombie → (k'.cont j).child = none)
    (hrun : ∀ j, (k'.proc j).state = .running ↔ k'.cur = some j) : ForkInv k' := by
  refine ⟨hrun, fun j m hj => ?_, fun j l m => ?_, fun j hj => ?_⟩
  · rw [h.child] at hj
    exact (h.embryo m).mpr (hf.child_embryo j m hj)
  · rw [h.child, h.child]
    exact hf.child_inj j l m
  · rcases hj with hu | he | hzj
    · rw [h.child]
      exact hf.no_child j (Or.inl ((h.unused j).mp hu))
    · rw [h.child]
      exact hf.no_child j (Or.inr (Or.inl ((h.embryo j).mp he)))
    · exact hz j hzj

/-- The process `i` leaves the CPU, no other one becomes running. -/
theorem ForkInv.running_iff_of_leave (hf : ForkInv k) (hc : k.cur = some i) (hc' : k'.cur = none)
    (hi : (k'.proc i).state ≠ .running)
    (hj : ∀ j ≠ i, (k'.proc j).state = .running → (k.proc j).state = .running) (j : Fin nProc) :
    (k'.proc j).state = .running ↔ k'.cur = some j := by
  refine iff_of_false (fun hrun => ?_) (by simp [hc'])
  have hji : j ≠ i := by
    rintro rfl
    exact hi hrun
  have hcur := (hf.running_iff j).mp (hj j hji hrun)
  rw [hc] at hcur
  exact hji (Option.some.inj hcur).symm

theorem ForkInv.running_iff_of_stay (hf : ForkInv k) (hc : k'.cur = k.cur)
    (hj : ∀ j, (k'.proc j).state = .running ↔ (k.proc j).state = .running) (j : Fin nProc) :
    (k'.proc j).state = .running ↔ k'.cur = some j := by
  rw [hj, hc, hf.running_iff]

/-- `k'` differs from `k` in nothing that the family relations depend on. -/
structure Steady (k k' : Kernel) : Prop extends Similar k k' where
  zombie : ∀ j, (k'.proc j).state = .zombie → (k.proc j).state = .zombie
  initproc : k'.initproc = k.initproc
  ppid : ∀ j, (k'.proc j).ppid = (k.proc j).ppid
  parent : ∀ j, (k'.proc j).parent = (k.proc j).parent
  commit : ∀ j m, k'.cont j = .commit m ↔ k.cont j = .commit m

/-- The position of the scan and the CPU do not matter. -/
theorem steady_of_eq (hp : k'.proc = k.proc) (hn : k'.nextpid = k.nextpid)
    (hi : k'.initproc = k.initproc) (hc : k'.cont = k.cont) : Steady k k' := by
  refine ⟨⟨hn, fun _ => ?_, fun _ => ?_, fun _ => ?_, fun _ => ?_⟩, fun _ => ?_, hi, fun _ => ?_,
    fun _ => ?_, fun _ _ => ?_⟩
  all_goals simp [hp, hc]

theorem Steady.refl (k : Kernel) : Steady k k := steady_of_eq rfl rfl rfl rfl

theorem Steady.trans {k'' : Kernel} (h : Steady k k') (h' : Steady k' k'') : Steady k k'' :=
  ⟨h.toSimilar.trans h'.toSimilar, fun j hz => h.zombie j (h'.zombie j hz),
    h'.initproc.trans h.initproc, fun j => (h'.ppid j).trans (h.ppid j),
    fun j => (h'.parent j).trans (h.parent j), fun j m => (h'.commit j m).trans (h.commit j m)⟩

/-- States of a process that was made and has not exited. -/
def ProcState.Active (s : ProcState) : Prop := s = .sleeping ∨ s = .runnable ∨ s = .running

theorem steady_modify {f : Proc → Proc} (hp : (f (k.proc i)).pid = (k.proc i).pid)
    (hpp : (f (k.proc i)).ppid = (k.proc i).ppid)
    (hpar : (f (k.proc i)).parent = (k.proc i).parent)
    (hs : (f (k.proc i)).state = (k.proc i).state ∨
      (f (k.proc i)).state.Active ∧ (k.proc i).state.Active) : Steady k (k.modify i f) := by
  have hsim : Similar k (k.modify i f) := by
    apply similar_modify hp
    · rcases hs with hs | ⟨hs' | hs' | hs', hs | hs | hs⟩ <;> simp_all
    · rcases hs with hs | ⟨hs' | hs' | hs', hs | hs | hs⟩ <;> simp_all
  refine ⟨hsim, fun j => ?_, rfl, fun j => ?_, fun j => ?_, fun j m => Iff.rfl⟩
  all_goals
    rw [modify_proc]
    split_ifs with hj
    · subst hj
      first
        | assumption
        | rcases hs with hs | ⟨hs' | hs' | hs', -⟩ <;> simp_all
    · first
        | rfl
        | exact id

theorem steady_setCont {c : Cont} (h : c.child = (k.cont i).child)
    (hm : ∀ m, c = .commit m ↔ k.cont i = .commit m) : Steady k (k.setCont i c) := by
  refine ⟨similar_setCont h, fun _ => id, rfl, fun _ => rfl, fun _ => rfl, fun j m => ?_⟩
  rw [setCont_cont]
  split_ifs with hj
  · rw [hj]
    exact hm m
  · rfl

theorem steady_sched (i : Fin nProc) (k : Kernel) : Steady k (k.sched i) := by
  have h : Steady k (k.modify i (fun p => { p with nswitch := Lib.wrap32 (p.nswitch + 1) })) :=
    steady_modify rfl rfl rfl (Or.inl rfl)
  exact h.trans (steady_of_eq rfl rfl rfl rfl)

theorem steady_wakeup1 (c : Chan) (k : Kernel) : Steady k (k.wakeup1 c) := by
  have h := passedOn_wakeup1 0 c k
  refine ⟨h.toSimilar, h.zombie, rfl, h.ppid, fun j => ?_, fun _ _ => .rfl⟩
  rw [h.parent]
  simp

theorem wakeup1_running (c : Chan) (k : Kernel) (j : Fin nProc) :
    ((k.wakeup1 c).proc j).state = .running ↔ (k.proc j).state = .running := by
  simp only [wakeup1]
  split_ifs with hs
  · simp [hs.1]
  · rfl

/-- Updating an entry that neither is nor becomes running leaves the CPU alone. -/
theorem ForkInv.running_iff_of_modify {f : Proc → Proc} (hf : ForkInv k)
    (hp : k'.proc = (k.modify i f).proc) (hc : k'.cur = k.cur)
    (h : (f (k.proc i)).state = .running ↔ (k.proc i).state = .running) (j : Fin nProc) :
    (k'.proc j).state = .running ↔ k'.cur = some j := by
  apply hf.running_iff_of_stay hc
  intro l
  rw [hp, modify_proc]
  split_ifs with hl
  · rw [hl]
    exact h
  · rfl

theorem goToSleep_steady (c : Chan) (how : Cont) (hf : ForkInv k) (hc : k.cur = some i)
    (hu : k.cont i = .user) (hhow : how.child = none) :
    Steady k (k.goToSleep c how i) ∧ ∀ j, ((k.goToSleep c how i).proc j).state = .running ↔
      (k.goToSleep c how i).cur = some j := by
  have hrun := hf.cur_running hc
  constructor
  · have h₁ : Steady k (k.modify i (fun p => { p with chan := c, state := .sleeping })) :=
      steady_modify rfl rfl rfl (Or.inr ⟨Or.inl rfl, Or.inr (Or.inr hrun)⟩)
    refine h₁.trans (Steady.trans (steady_setCont ?_ fun m => ?_) (steady_sched i _))
    · rw [modify_cont, hu, hhow]
      rfl
    · rw [modify_cont, hu]
      apply iff_of_false
      · rintro rfl
        simp [Cont.child] at hhow
      · simp
  · apply hf.running_iff_of_leave hc (sched_cur i _)
    · simp [sched_state]
    · intro j hj
      simp [sched_state, hj]

theorem waitsIn_steady {k₀ : Kernel} (hf : ForkInv k) (hc : k.cur = some i)
    (h : WaitsIn k i k₀) :
    Steady k k₀ ∧ ForkInv k₀ ∧ k₀.cur = some i ∧ k₀.cont i = .user := by
  cases h with
  | entered hu => exact ⟨Steady.refl k, hf, hc, hu⟩
  | woken hu =>
    have h₁ : Steady k (k.modify i (fun p => { p with chan := .null })) :=
      steady_modify rfl rfl rfl (Or.inl rfl)
    have h₂ : Steady k ((k.modify i (fun p => { p with chan := .null })).setCont i .user) := by
      apply h₁.trans (steady_setCont _ fun m => _)
      · rw [modify_cont, hu]
        rfl
      · intro m
        simp [hu]
    refine ⟨h₂, hf.of_similar h₂.toSimilar (fun j hz => ?_) ?_, hc, by simp⟩
    · rw [h₂.child]
      exact hf.no_child j (Or.inr (Or.inr (h₂.zombie j hz)))
    · exact hf.running_iff_of_modify (setCont_proc _ _ _) rfl .rfl

end

/-- A `kalloc` or `copyuvm` inside `fork` that finds no memory. -/
def Step.OutOfMemory (a : Step) : Prop := a = .kalloc false ∨ a = .copyuvm false

instance (a : Step) : Decidable a.OutOfMemory := inferInstanceAs (Decidable (_ ∨ _))

def Ret.creations : Ret → ℕ
  | .created _ => 1
  | _ => 0

/-- What a step does to the entries and to the forks in progress: nothing, or one of the things
that `fork`, `exit` and `wait` are for. -/
inductive Effect (k : Kernel) : Step → Ret → Kernel → Prop
  | steady {a : Step} {r : Ret} {k' : Kernel} (h : Steady k k')
      (hrun : ∀ j, (k'.proc j).state = .running ↔ k'.cur = some j) (hr : r.creations = 0)
      (ha : ¬a.OutOfMemory) (hx : a ≠ .exit) : Effect k a r k'
  | allocate (i np : Fin nProc) (hc : k.cur = some i) (hu : k.cont i = .user)
      (hnp : (k.proc np).state = .unused) :
      Effect k .allocproc (.created np) (setCont { k.modify np (fun p => { p with
        state := .embryo, pid := k.nextpid, ppid := 0, nswitch := 0, priority := 500 }) with
        nextpid := Lib.wrap32 (k.nextpid + 1) } i (.kalloc np))
  | failFork {a : Step} (i np : Fin nProc) (hc : k.cur = some i)
      (hu : k.cont i = .kalloc np ∨ k.cont i = .copyuvm np) (ha : a.OutOfMemory) :
      Effect k a (.int (-1))
        ((k.modify np (fun p => { p with state := .unused })).setCont i .user)
  | copyuvmOk (i np : Fin nProc) (hc : k.cur = some i) (hu : k.cont i = .copyuvm np) :
      Effect k (.copyuvm true) .none ((k.modify np (fun p => { p with
        sz := (k.proc i).sz, parent := some i, ppid := (k.proc i).pid })).setCont i (.commit np))
  | commit (i np : Fin nProc) (hc : k.cur = some i) (hu : k.cont i = .commit np) :
      Effect k .commit (.int (k.proc np).pid)
        ((k.modify np (fun p => { p with state := .runnable })).setCont i .user)
  | exit (i : Fin nProc) (hc : k.cur = some i) (hu : k.cont i = .user) (hi : i ≠ k.initproc) :
      Effect k .exit .none (k.exitProc i)
  | reap (i j : Fin nProc) {k₀ : Kernel} (hc : k.cur = some i) (h₀ : Steady k k₀)
      (hf₀ : ForkInv k₀) (hj : (k₀.proc j).parent = some i ∧ (k₀.proc j).state = .zombie) :
      Effect k .wait (.int (k₀.proc j).pid) (k₀.modify j (fun p => { p with
        pid := 0, parent := none, killed := false, state := .unused }))

theorem highest_runnable {k : Kernel} {p : Fin nProc} (hp : (k.proc p).state = .runnable) :
    (k.proc (k.highest p)).state = .runnable := by
  unfold highest highestOf
  induction List.finRange nProc generalizing p with
  | nil => exact hp
  | cons np l ih =>
    rw [List.foldl_cons]
    apply ih
    split_ifs with hs hlt
    · exact hp
    · exact not_not.mp hs
    · exact hp

section

variable {k k' : Kernel} {a : Step} {r : Ret}

theorem Effect.of_modify {i : Fin nProc} {f : Proc → Proc} (hf : ForkInv k)
    (h : Steady k (k.modify i f))
    (hrun : (f (k.proc i)).state = .running ↔ (k.proc i).state = .running)
    (hr : r.creations = 0) (ha : ¬a.OutOfMemory) (hx : a ≠ .exit) : Effect k a r (k.modify i f) :=
  .steady h (hf.running_iff_of_modify rfl rfl hrun) hr ha hx

theorem Trans.effect (h : Trans k a r k') (hf : ForkInv k) : Effect k a r k' := by
  cases h with
  | advance =>
    exact .steady (steady_of_eq rfl rfl rfl rfl) hf.running_iff rfl (by decide) (by simp)
  | dispatch hc h hs =>
    have hr := highest_runnable hs
    generalize k.highest ⟨k.cursor, h⟩ = hp at hr ⊢
    have hm : Steady k (k.modify hp (fun p => { p with state := .running })) :=
      steady_modify rfl rfl rfl (Or.inr ⟨Or.inr (Or.inr rfl), Or.inr (Or.inl hr)⟩)
    refine .steady (hm.trans (steady_of_eq rfl rfl rfl rfl)) (fun j => ?_) rfl (by decide) (by simp)
    have hj := hf.not_running hc j
    simp only [modify_proc, Option.some.injEq]
    split_ifs with he
    · simp [he]
    · simp [hj, Ne.symm he]
  | nextPass =>
    exact .steady (steady_of_eq rfl rfl rfl rfl) hf.running_iff rfl (by decide) (by simp)
  | wakeup c =>
    exact .steady (steady_wakeup1 c k) (hf.running_iff_of_stay rfl (wakeup1_running c k)) rfl
      (by simp [Step.OutOfMemory]) (by simp)
  | tableFull => exact .steady (Steady.refl k) hf.running_iff rfl (by decide) (by simp)
  | allocate i np hc hu hnp => exact .allocate i np hc hu hnp
  | kallocOk i np hc hu =>
    have hs : Steady k (k.setCont i (.copyuvm np)) := by
      apply steady_setCont
      · rw [hu]
        rfl
      · intro m
        simp [hu]
    exact .steady hs hf.running_iff rfl (by decide) (by simp)
  | kallocFail i np hc hu => exact .failFork i np hc (Or.inl hu) (by decide)
  | copyuvmOk i np hc hu => exact .copyuvmOk i np hc hu
  | copyuvmFail i np hc hu => exact .failFork i np hc (Or.inr hu) (by decide)
  | commit i np hc hu => exact .commit i np hc hu
  | exit i hc hu hi => exact .exit i hc hu hi
  | reap i j hc hw hj =>
    obtain ⟨hs, hf₀, -, -⟩ := waitsIn_steady hf hc hw
    exact .reap i j hc hs hf₀ hj
  | waitFail i hc hw =>
    obtain ⟨hs, hf₀, -, -⟩ := waitsIn_steady hf hc hw
    exact .steady hs hf₀.running_iff rfl (by decide) (by simp)
  | waitSleep i hc hw =>
    obtain ⟨hs, hf₀, hc₀, hu₀⟩ := waitsIn_steady hf hc hw
    obtain ⟨hs', hrun⟩ := goToSleep_steady (.proc i) .wait hf₀ hc₀ hu₀ rfl
    exact .steady (hs.trans hs') hrun rfl (by decide) (by simp)
  | killed i j hc hj =>
    apply Effect.of_modify hf (steady_modify rfl rfl rfl _) _ rfl (by simp [Step.OutOfMemory])
      (by simp)
    · dsimp only
      split_ifs with hs
      · exact Or.inr ⟨Or.inr (Or.inl rfl), Or.inl hs⟩
      · exact Or.inl rfl
    · dsimp only
      split_ifs with hs
      · simp [hs]
      · rfl
  | killMiss =>
    exact .steady (Steady.refl k) hf.running_iff rfl (by simp [Step.OutOfMemory]) (by simp)
  | sleep i c hc hu =>
    obtain ⟨hs, hrun⟩ := goToSleep_steady c .sleep hf hc hu rfl
    exact .steady hs hrun rfl (by simp [Step.OutOfMemory]) (by simp)
  | wake i hc hu =>
    have hm : Steady k (k.modify i (fun p => { p with chan := .null })) :=
      steady_modify rfl rfl rfl (Or.inl rfl)
    have hs : Steady k ((k.modify i (fun p => { p with chan := .null })).setCont i .user) := by
      apply hm.trans (steady_setCont _ _)
      · rw [modify_cont, hu]
        rfl
      · intro m
        simp [hu]
    exact .steady hs (hf.running_iff_of_modify (setCont_proc _ _ _) rfl .rfl) rfl (by decide)
      (by simp)
  | yield i hc h =>
    have hrun := hf.cur_running hc
    have hm : Steady k (k.modify i (fun p => { p with state := .runnable })) :=
      steady_modify rfl rfl rfl (Or.inr ⟨Or.inr (Or.inl rfl), Or.inr (Or.inr hrun)⟩)
    refine .steady (hm.trans (steady_sched i _)) ?_ rfl (by decide) (by simp)
    apply hf.running_iff_of_leave hc (sched_cur i _)
    · simp [sched_state]
    · intro j hj
      simp [sched_state, hj]
  | setPrioFail =>
    exact .steady (Steady.refl k) hf.running_iff rfl (by simp [Step.OutOfMemory]) (by simp)
  | setPrio =>
    exact .of_modify hf (steady_modify rfl rfl rfl (Or.inl rfl)) .rfl rfl
      (by simp [Step.OutOfMemory]) (by simp)
  | resize =>
    exact .of_modify hf (steady_modify rfl rfl rfl (Or.inl rfl)) .rfl rfl
      (by simp [Step.OutOfMemory]) (by simp)

end

section

variable {k k' : Kernel} {i np : Fin nProc}

theorem ForkInv.finishFork {s : ProcState} (hf : ForkInv k) (hu : (k.cont i).child = some np)
    (hs : s ≠ .running) :
    ForkInv ((k.modify np (fun p => { p with state := s })).setCont i .user) := by
  have hemb := hf.child_embryo i np hu
  have hstate : ∀ j, j ≠ np →
      (((k.modify np (fun p => { p with state := s })).setCont i .user).proc j).state =
        (k.proc j).state := by
    intro j hj
    rw [setCont_proc, modify_proc, if_neg hj]
  have hchild : ∀ j m,
      (((k.modify np (fun p => { p with state := s })).setCont i .user).cont j).child = some m →
        j ≠ i ∧ (k.cont j).child = some m := by
    intro j m hj
    rw [setCont_cont, modify_cont] at hj
    split_ifs at hj with hji
    · simp [Cont.child] at hj
    · exact ⟨hji, hj⟩
  constructor
  · exact hf.running_iff_of_modify (setCont_proc _ _ _) rfl (by simp [hemb, hs])
  · intro j m hj
    obtain ⟨hji, hjm⟩ := hchild j m hj
    rw [hstate m (fun hm => hji (hf.child_inj j i np (hm ▸ hjm) hu))]
    exact hf.child_embryo j m hjm
  · intro j l m hj hl
    exact hf.child_inj j l m (hchild j m hj).2 (hchild l m hl).2
  · intro j hj
    rw [setCont_cont, modify_cont]
    split_ifs with hji
    · rfl
    · by_cases hjn : j = np
      · exact hf.no_child j (by rw [hjn, hemb]; simp)
      · rw [hstate j hjn] at hj
        exact hf.no_child j hj

theorem ForkInv.allocate {n : ℤ} {f : Proc → Proc} (hf : ForkInv k) (hc : k.cur = some i)
    (hu : k.cont i = .user) (hnp : (k.proc np).state = .unused)
    (he : ∀ p, (f p).state = .embryo) :
    ForkInv (Kernel.setCont { k.modify np f with nextpid := n } i (.kalloc np)) := by
  have hin : i ≠ np := by
    rintro rfl
    rw [hf.cur_running hc] at hnp
    simp at hnp
  have hother : ∀ j, (k.cont j).child ≠ some np := by
    intro j hj
    rw [hf.child_embryo j np hj] at hnp
    simp at hnp
  constructor
  · exact hf.running_iff_of_modify rfl rfl (by simp [he, hnp])
  · intro j m hj
    simp only [setCont_proc, modify_proc, setCont_cont, modify_cont] at hj ⊢
    split_ifs at hj with hji
    · rw [if_pos (Option.some.inj hj).symm, he]
    · rw [if_neg (fun hm : m = np => hother j (hm ▸ hj))]
      exact hf.child_embryo j m hj
  · intro j l m hj hl
    simp only [setCont_cont, modify_cont] at hj hl
    split_ifs at hj hl with hji hli hli
    · rw [hji, hli]
    · exact absurd ((Option.some.inj hj).symm ▸ hl) (hother l)
    · exact absurd ((Option.some.inj hl).symm ▸ hj) (hother j)
    · exact hf.child_inj j l m hj hl
  · intro j hj
    simp only [setCont_proc, modify_proc, setCont_cont, modify_cont] at hj ⊢
    by_cases hjn : j = np
    · rw [if_neg (fun hji => hin (hji.symm.trans hjn)), hjn]
      exact hf.no_child np (Or.inl hnp)
    · rw [if_neg hjn] at hj
      have hji : j ≠ i := by
        rintro rfl
        rw [hf.cur_running hc] at hj
        simp at hj
      rw [if_neg hji]
      exact hf.no_child j hj

theorem ForkInv.reap {j : Fin nProc} {f : Proc → Proc} (hf : ForkInv k)
    (hz : (k.proc j).state = .zombie) (hu : (f (k.proc j)).state = .unused) :
    ForkInv (k.modify j f) := by
  constructor
  · exact hf.running_iff_of_modify rfl rfl (by simp [hu, hz])
  · intro l m hl
    have he := hf.child_embryo l m hl
    rw [modify_proc, if_neg (fun hm => by rw [hm, hz] at he; simp at he)]
    exact he
  · exact hf.child_inj
  · intro l hl
    rw [modify_proc] at hl
    split_ifs at hl with hlj
    · exact hf.no_child l (by rw [hlj, hz]; simp)
    · exact hf.no_child l hl

theorem exitProc_eq (i : Fin nProc) (k : Kernel) : ∃ k₁, PassedOn i (List.finRange nProc) k k₁ ∧
    k.exitProc i = (k₁.modify i (fun p => { p with state := .zombie })).sched i :=
  ⟨_, (passedOn_wakeup1 i _ k).trans (passedOn_abandonChildren i _), rfl⟩

theorem exitProc_similar (hf : ForkInv k) (hc : k.cur = some i) : Similar k (k.exitProc i) := by
  have hrun := hf.cur_running hc
  obtain ⟨k₁, hq, hexit⟩ := exitProc_eq i k
  have hmod : Similar k₁ (k₁.modify i (fun p => { p with state := .zombie })) := by
    apply similar_modify rfl
    · rw [hq.unused, hrun]
      simp
    · rw [hq.embryo, hrun]
      simp
  rw [hexit]
  exact hq.toSimilar.trans (hmod.trans (steady_sched i _).toSimilar)

theorem ForkInv.exitProc (hf : ForkInv k) (hc : k.cur = some i) (hu : k.cont i = .user) :
    ForkInv (k.exitProc i) := by
  have hsim := exitProc_similar hf hc
  apply hf.of_similar hsim
  · intro j hz
    rw [hsim.child]
    by_cases hj : j = i
    · rw [hj, hu]
      rfl
    · obtain ⟨k₁, hq, hexit⟩ := exitProc_eq i k
      rw [hexit, sched_state, modify_proc, if_neg hj] at hz
      exact hf.no_child j (Or.inr (Or.inr (hq.zombie j hz)))
  · obtain ⟨k₁, hq, hexit⟩ := exitProc_eq i k
    rw [hexit]
    apply hf.running_iff_of_leave hc (sched_cur i _)
    · simp [sched_state]
    · intro j hj
      rw [sched_state, modify_proc, if_neg hj]
      exact hq.running j

theorem copyuvmOk_similar (hu : k.cont i = .copyuvm np) :
    Similar k ((k.modify np (fun p => { p with
      sz := (k.proc i).sz, parent := some i, ppid := (k.proc i).pid })).setCont i
        (.commit np)) := by
  apply Similar.trans (similar_modify rfl .rfl .rfl) (similar_setCont _)
  rw [modify_cont, hu]
  rfl

theorem Effect.forkInv {a : Step} {r : Ret} (h : Effect k a r k') (hf : ForkInv k) :
    ForkInv k' := by
  cases h with
  | steady h hrun =>
    refine hf.of_similar h.toSimilar (fun j hz => ?_) hrun
    rw [h.child]
    exact hf.no_child j (Or.inr (Or.inr (h.zombie j hz)))
  | allocate i np hc hu hnp => exact hf.allocate hc hu hnp (fun _ => rfl)
  | failFork i np hc hu =>
    apply hf.finishFork _ (by decide)
    rcases hu with hu | hu <;> rw [hu] <;> rfl
  | copyuvmOk i np hc hu =>
    have hs := copyuvmOk_similar hu
    apply hf.of_similar hs
    · intro j hz
      rw [hs.child]
      apply hf.no_child j
      rw [setCont_proc, modify_proc] at hz
      split_ifs at hz with hj
      · exact Or.inr (Or.inr (hj ▸ hz))
      · exact Or.inr (Or.inr hz)
    · exact hf.running_iff_of_modify (setCont_proc _ _ _) rfl .rfl
  | commit i np hc hu => exact hf.finishFork (by rw [hu]; rfl) (by decide)
  | exit i hc hu => exact hf.exitProc hc hu
  | reap i j hc h₀ hf₀ hj => exact hf₀.reap hj.2 rfl

end

theorem userinit_proc_of_ne {i : Fin nProc} (hi : i ≠ 0) : userinit.proc i = Proc.zero := by
  simp [userinit, hi]

theorem forkInv_userinit : ForkInv userinit := by
  refine ⟨fun i => iff_of_false ?_ (by simp [userinit]), fun i np hc => ?_, fun i j np hc => ?_,
    fun i _ => rfl⟩
  · by_cases hi : i = 0
    · rw [hi]
      decide
    · rw [userinit_proc_of_ne hi]
      decide
  · cases hc
  · cases hc

theorem forkInv_of_run {tr : List (Lib.Event Kernel Step Ret)} {k : Kernel}
    (h : KernelRun tr k) : ForkInv k := by
  apply h.invariant
  · rintro _ rfl
    exact forkInv_userinit
  · intro k a r k' hf _ he
    exact ((exec_trans he).effect hf).forkInv hf

end SsuOs.Xv6
