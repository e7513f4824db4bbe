import SsuOs.Xv6.Dispatch

/-! How often the scheduler has switched to a process. It increments `nswitch` when control comes
back to it, so the counter lags behind while the process runs. -/
namespace SsuOs.Xv6
open Kernel Lib

/-- How often the scheduler has switched to the process in entry `i` since its `allocproc`. -/
def switches (i : Fin nProc) : List (Event Kernel Step Ret) → ℕ
  | [] => 0
  | e :: tr =>
    if e.ret = .created i then 0
    else if switchesTo e = some i then switches i tr + 1 else switches i tr

/-- The switches a process has come back from: all but the one it is running on. -/
def completed (tr : List (Event Kernel Step Ret)) (k : Kernel) (i : Fin nProc) : ℤ :=
  switches i tr - if k.cur = some i then 1 else 0

/-- Every counter in use is exact. -/
def ExactSwitches (tr : List (Event Kernel Step Ret)) (k : Kernel) : Prop :=
  ∀ i, (k.proc i).state ≠ .unused → (k.proc i).nswitch = completed tr k i

/-! ### What a step does to one counter -/

/-- The counters and the CPU stay as they are, and no entry is allocated. -/
structure Uncounted (k k' : Kernel) : Prop where
  nswitch : ∀ j, (k'.proc j).nswitch = (k.proc j).nswitch
  live : ∀ j, (k'.proc j).state ≠ .unused → (k.proc j).state ≠ .unused
  cur : k'.cur = k.cur

section Uncounted

variable {k k₁ k' : Kernel} {i : Fin nProc}

theorem uncounted_of_eq (hp : k'.proc = k.proc) (hc : k'.cur = k.cur) : Uncounted k k' :=
  ⟨fun j => by rw [hp], fun j => by rw [hp]; exact id, hc⟩

theorem Uncounted.trans (h : Uncounted k k₁) (h' : Uncounted k₁ k') : Uncounted k k' :=
  ⟨fun j => (h'.nswitch j).trans (h.nswitch j), fun j hj => h.live j (h'.live j hj),
    h'.cur.trans h.cur⟩

theorem Uncounted.modify {f : Proc → Proc} (h : Uncounted k k₁)
    (hn : ∀ p, (f p).nswitch = p.nswitch)
    (hlive : (f (k₁.proc i)).state ≠ .unused → (k.proc i).state ≠ .unused) :
    Uncounted k (k₁.modify i f) := by
  refine ⟨fun j => ?_, fun j => ?_, h.cur⟩
  · rw [modify_proc]
    split_ifs with hj
    · rw [hn, h.nswitch, hj]
    · exact h.nswitch j
  · rw [modify_proc]
    split_ifs with hj
    · rw [hj]
      exact hlive
    · exact h.live j

theorem Uncounted.setCont {c : Cont} (h : Uncounted k k₁) : Uncounted k (k₁.setCont i c) :=
  h.trans (uncounted_of_eq rfl rfl)

theorem uncounted_wakeup1 (c : Chan) (k : Kernel) : Uncounted k (k.wakeup1 c) := by
  refine ⟨fun j => ?_, fun j hj => ?_, rfl⟩
  · simp only [wakeup1]
    split_ifs <;> rfl
  · exact fun hu => hj (((similar_wakeup1 c k).unused j).mpr hu)

theorem uncounted_adopt (i j : Fin nProc) (k : Kernel) : Uncounted k (k.adopt i j) := by
  have hmod : Uncounted k (k.modify j (fun p => { p with parent := some k.initproc })) :=
    (uncounted_of_eq rfl rfl).modify (fun _ => rfl) id
  unfold adopt
  split_ifs
  · dsimp only
    split_ifs
    · exact hmod.trans (uncounted_wakeup1 _ _)
    · exact hmod
  · exact uncounted_of_eq rfl rfl

theorem uncounted_abandonChildren (i : Fin nProc) (k : Kernel) :
    Uncounted k (k.abandonChildren i) := by
  unfold abandonChildren
  induction List.finRange nProc generalizing k with
  | nil => exact uncounted_of_eq rfl rfl
  | cons j l ih => exact (uncounted_adopt i j k).trans (ih _)

theorem WaitsIn.uncounted (h : WaitsIn k i k₁) : Uncounted k k₁ := by
  cases h with
  | entered => exact uncounted_of_eq rfl rfl
  | woken =>
    have hself : Uncounted k k := uncounted_of_eq rfl rfl
    exact (hself.modify (f := fun p => { p with chan := .null }) (fun _ => rfl) id).setCont

end Uncounted

/-- The ways in which a step can concern the process in the entry `j`, which is in use behind
it. -/
inductive CountStep (e : Event Kernel Step Ret) (k' : Kernel) (j : Fin nProc) : Prop
  | fresh (hr : e.ret = .created j) (hn : (k'.proc j).nswitch = 0) (hc : k'.cur ≠ some j)
  | stays (hr : e.ret ≠ .created j) (hlive : (e.pre.proc j).state ≠ .unused)
      (hn : (k'.proc j).nswitch = (e.pre.proc j).nswitch)
      (hc : k'.cur = some j ↔ e.pre.cur = some j) (hs : switchesTo e ≠ some j)
  | enters (hr : e.ret ≠ .created j) (hlive : (e.pre.proc j).state ≠ .unused)
      (hn : (k'.proc j).nswitch = (e.pre.proc j).nswitch) (hc : e.pre.cur ≠ some j)
      (hc' : k'.cur = some j) (hs : switchesTo e = some j)
  | leaves (hr : e.ret ≠ .created j) (hlive : (e.pre.proc j).state ≠ .unused)
      (hn : (k'.proc j).nswitch = wrap32 ((e.pre.proc j).nswitch + 1))
      (hc : e.pre.cur = some j) (hc' : k'.cur ≠ some j) (hs : switchesTo e ≠ some j)

section CountStep

variable {k k₁ k' : Kernel} {a : Step} {r : Ret} {i j : Fin nProc}

theorem switchesTo_of_ne (ha : a ≠ .scheduler) : switchesTo ⟨k, a, r⟩ ≠ some j := by
  simp [switchesTo, ha]

theorem Uncounted.countStep (h : Uncounted k k') (hr : r.creations = 0)
    (hs : switchesTo ⟨k, a, r⟩ ≠ some j) (hlive : (k'.proc j).state ≠ .unused) :
    CountStep ⟨k, a, r⟩ k' j := by
  refine .stays ?_ (h.live j hlive) (h.nswitch j) (by rw [h.cur]) hs
  rintro rfl
  cases hr

theorem Uncounted.countStep_sched (h : Uncounted k k₁) (hcur : k.cur = some i)
    (hr : r = .none) (ha : a ≠ .scheduler) (hlive : ((k₁.sched i).proc j).state ≠ .unused) :
    CountStep ⟨k, a, r⟩ (k₁.sched i) j := by
  have hs := switchesTo_of_ne (k := k) (r := r) (j := j) ha
  have hnew : r ≠ .created j := by
    rw [hr]
    simp
  rw [sched_state] at hlive
  by_cases hj : j = i
  · subst hj
    refine .leaves hnew (h.live j hlive) ?_ hcur (by simp [sched_cur]) hs
    simp [sched, h.nswitch]
  · refine .stays hnew (h.live j hlive) ?_ (iff_of_false (by simp [sched_cur]) ?_) hs
    · simp [sched, hj, h.nswitch]
    · change ¬k.cur = some j
      rw [hcur]
      exact fun he => hj (Option.some.inj he).symm

theorem countStep_dispatch {c : Fin nProc} (hc : k.cur = none) (hrun : Runnable k c)
    (hs : switchesTo ⟨k, a, r⟩ = some (k.highest c)) (hr : r = .none)
    (hlive : ((k.modify (k.highest c) (fun p => { p with state := .running })).proc j).state ≠
      .unused) :
    CountStep ⟨k, a, r⟩ { k.modify (k.highest c) (fun p => { p with state := .running }) with
      cur := some (k.highest c) } j := by
  have hhp := highest_runnable hrun
  generalize k.highest c = hp at hhp hs hlive ⊢
  have hnew : r ≠ .created j := by
    rw [hr]
    simp
  have hnone : k.cur ≠ some j := by
    rw [hc]
    simp
  by_cases hj : j = hp
  · subst hj
    refine .enters hnew ?_ ?_ hnone rfl hs
    · rw [hhp]
      simp
    · simp
  · have hne : some hp ≠ some j := fun he => hj (Option.some.inj he).symm
    rw [modify_proc, if_neg hj] at hlive
    refine .stays hnew hlive ?_ (iff_of_false hne hnone) (hs ▸ hne)
    simp [hj]

theorem countStep_allocate {np : Fin nProc} (hf : ForkInv k)
    (hnp : (k.proc np).state = .unused) {n : ℤ} {f : Proc → Proc} {c : Cont}
    (hn : (f (k.proc np)).nswitch = 0) (ha : a ≠ .scheduler)
    (hlive : ((k.modify np f).proc j).state ≠ .unused) :
    CountStep ⟨k, a, .created np⟩ (Kernel.setCont { k.modify np f with nextpid := n } i c) j := by
  by_cases hj : j = np
  · subst hj
    refine .fresh rfl (by simpa using hn) fun hcur => ?_
    have hrun := hf.cur_running (i := j) hcur
    rw [hnp] at hrun
    cases hrun
  · rw [modify_proc, if_neg hj] at hlive
    refine .stays ?_ hlive ?_ Iff.rfl (switchesTo_of_ne ha)
    · exact fun he => hj (Ret.created.inj he).symm
    · simp [hj]

theorem countStep_of_exec (hf : ForkInv k) (he : exec a k = .ok (r, k'))
    (hlive : (k'.proc j).state ≠ .unused) : CountStep ⟨k, a, r⟩ k' j := by
  have hself : Uncounted k k := uncounted_of_eq rfl rfl
  -- what the scheduler switches to is on the CPU behind the step
  have hsched : a = .scheduler → switchesTo ⟨k, a, r⟩ = k'.cur := by
    rintro rfl
    rw [(exec_scheduler he).2]
    rfl
  cases exec_trans he with
  | advance hc | nextPass hc =>
    refine Uncounted.countStep (uncounted_of_eq rfl rfl) rfl ?_ hlive
    rw [hsched rfl]
    simp [hc]
  | dispatch hc h hs => exact countStep_dispatch hc hs (hsched rfl) rfl hlive
  | wakeup c =>
    exact (uncounted_wakeup1 c k).countStep rfl (switchesTo_of_ne (by simp)) hlive
  | tableFull | killMiss | setPrioFail =>
    exact hself.countStep rfl (switchesTo_of_ne (by simp)) hlive
  | allocate i np hc hu hnp =>
    exact countStep_allocate hf hnp rfl (by simp) hlive
  | kallocOk i np hc hu =>
    exact hself.setCont.countStep rfl (switchesTo_of_ne (by simp)) hlive
  | kallocFail i np hc hu | copyuvmFail i np hc hu =>
    have hunc := hself.modify (i := np) (f := fun p => { p with state := .unused }) (fun _ => rfl)
      (fun h => absurd rfl h)
    exact hunc.setCont.countStep rfl (switchesTo_of_ne (by simp)) hlive
  | copyuvmOk i np hc hu =>
    have hunc := hself.modify (i := np)
      (f := fun p => { p with sz := (k.proc i).sz, parent := some i, ppid := (k.proc i).pid })
      (fun _ => rfl) id
    exact hunc.setCont.countStep rfl (switchesTo_of_ne (by simp)) hlive
  | commit i np hc hu =>
    have hemb := hf.child_embryo i np (by rw [hu]; rfl)
    have hunc := hself.modify (i := np) (f := fun p => { p with state := .runnable }) (fun _ => rfl)
      (fun _ => by simp [hemb])
    exact hunc.setCont.countStep rfl (switchesTo_of_ne (by simp)) hlive
  | exit i hc hu hi =>
    have hrun := hf.cur_running hc
    have hpassed : Uncounted k ((k.wakeup1 (chanOf (k.proc i).parent)).abandonChildren i) :=
      (uncounted_wakeup1 _ k).trans (uncounted_abandonChildren i _)
    have hunc := hpassed.modify (i := i) (f := fun p => { p with state := .zombie }) (fun _ => rfl)
      (fun _ => by simp [hrun])
    exact hunc.countStep_sched hc rfl (by simp) hlive
  | reap i l hc hw hl =>
    have hunc := hw.uncounted.modify (i := l)
      (f := fun p => { p with pid := 0, parent := none, killed := false, state := .unused })
      (fun _ => rfl)
      (fun h => absurd rfl h)
    exact hunc.countStep rfl (switchesTo_of_ne (by simp)) hlive
  | waitFail i hc hw => exact hw.uncounted.countStep rfl (switchesTo_of_ne (by simp)) hlive
  | waitSleep i hc hw =>
    have hrun := hf.cur_running hc
    have hunc := hw.uncounted.modify (i := i)
      (f := fun p => { p with chan := .proc i, state := .sleeping }) (fun _ => rfl)
      (fun _ => by simp [hrun])
    exact hunc.setCont.countStep_sched hc rfl (by simp) hlive
  | killed i l hc hl =>
    have hunc := hself.modify (i := l)
      (f := fun p => { p with
        killed := true, state := if p.state = .sleeping then .runnable else p.state })
      (fun _ => rfl)
      (fun h hu => h (by simp [hu]))
    exact hunc.countStep rfl (switchesTo_of_ne (by simp)) hlive
  | sleep i c hc hu =>
    have hrun := hf.cur_running hc
    have hunc := hself.modify (i := i) (f := fun p => { p with chan := c, state := .sleeping })
      (fun _ => rfl) (fun _ => by simp [hrun])
    exact hunc.setCont.countStep_sched hc rfl (by simp) hlive
  | wake i hc hu =>
    have hunc := hself.modify (i := i) (f := fun p => { p with chan := .null }) (fun _ => rfl) id
    exact hunc.setCont.countStep rfl (switchesTo_of_ne (by simp)) hlive
  | yield i hc h =>
    have hrun := hf.cur_running hc
    have hunc := hself.modify (i := i) (f := fun p => { p with state := .runnable }) (fun _ => rfl)
      (fun _ => by simp [hrun])
    exact hunc.countStep_sched hc rfl (by simp) hlive
  | @setPrio i n hc hn =>
    have hunc := hself.modify (i := i) (f := fun p => { p with priority := n }) (fun _ => rfl) id
    exact hunc.countStep rfl (switchesTo_of_ne (by simp)) hlive
  | resize i sz hc =>
    have hunc := hself.modify (i := i) (f := fun p => { p with sz := sz }) (fun _ => rfl) id
    exact hunc.countStep rfl (switchesTo_of_ne (by simp)) hlive

end CountStep

/-! ### The counters along a run -/

section Run

variable {tr : List (Event Kernel Step Ret)} {e : Event Kernel Step Ret} {k k' : Kernel}
  {j : Fin nProc}

theorem CountStep.completed (h : CountStep e k' j)
    (hpre : (e.pre.proc j).state ≠ .unused →
      (e.pre.proc j).nswitch = wrap32 (completed tr e.pre j)) :
    (k'.proc j).nswitch = wrap32 (completed (e :: tr) k' j) := by
  simp only [Xv6.completed] at hpre ⊢
  cases h with
  | fresh hr hn hc =>
    rw [hn, switches, if_pos hr, if_neg hc]
    rfl
  | stays hr hlive hn hc hs =>
    rw [hn, hpre hlive, switches, if_neg hr, if_neg hs, if_congr hc rfl rfl]
  | enters hr hlive hn hc hc' hs =>
    rw [hn, hpre hlive, switches, if_neg hr, if_pos hs, if_neg hc, if_pos hc']
    congr 1
    push_cast
    omega
  | leaves hr hlive hn hc hc' hs =>
    rw [hn, hpre hlive, switches, if_neg hr, if_neg hs, if_pos hc, if_neg hc', wrap32_add]
    congr 1
    omega

theorem nswitch_of_run (h : KernelRun tr k) (j : Fin nProc)
    (hlive : (k.proc j).state ≠ .unused) : (k.proc j).nswitch = wrap32 (completed tr k j) := by
  induction h with
  | start h₀ =>
    subst h₀
    by_cases hj : j = 0
    · subst hj
      rfl
    · rw [userinit_proc_of_ne hj] at hlive
      exact absurd rfl hlive
  | step hrun _ he ih => exact (countStep_of_exec (forkInv_of_run hrun) he hlive).completed ih

/-- The switch on which a process runs has been counted in the history. -/
theorem switches_pos_of_cur (h : KernelRun tr k) (hcur : k.cur = some j) : 1 ≤ switches j tr := by
  induction h with
  | start h₀ =>
    subst h₀
    cases hcur
  | @step tr k k' a r hrun _ he ih =>
    have hlive : (k'.proc j).state ≠ .unused := by
      rw [(forkInv_of_run (hrun.step trivial he)).cur_running hcur]
      simp
    cases countStep_of_exec (forkInv_of_run hrun) he hlive with
    | fresh hr hn hc => exact absurd hcur hc
    | stays hr hl hn hc hs =>
      rw [switches, if_neg hr, if_neg hs]
      exact ih (hc.mp hcur)
    | enters hr hl hn hc hc' hs =>
      rw [switches, if_neg hr, if_pos hs]
      omega
    | leaves hr hl hn hc hc' hs => exact absurd hcur hc'

theorem completed_nonneg (h : KernelRun tr k) (j : Fin nProc) : 0 ≤ completed tr k j := by
  unfold completed
  split_ifs with hcur
  · have hpos := switches_pos_of_cur h hcur
    omega
  · omega

end Run

/-- In every run the counter of a process is the number of switches to it since its `allocproc`,
without the one it is running on, as long as that number is an `int`, and wraps around beyond.
Neither the reuse of an entry nor a switch back from a zombie disturbs it. -/
theorem nswitch_counts_switches {tr : List (Event Kernel Step Ret)} {k : Kernel}
    (h : KernelRun tr k) (i : Fin nProc) (hlive : (k.proc i).state ≠ .unused) :
    (k.proc i).nswitch = wrap32 (completed tr k i) ∧
      ((k.proc i).nswitch = completed tr k i ↔ completed tr k i ≤ intMax) := by
  have hwrap := nswitch_of_run h i hlive
  have hnonneg := completed_nonneg h i
  refine ⟨hwrap, ⟨fun heq => ?_, fun hle => ?_⟩⟩
  · rw [← heq, hwrap]
    exact (inInt_wrap32 _).2
  · rw [hwrap, wrap32_eq ⟨by unfold intMin; omega, hle⟩]

/-- The child of `init` runs for the second time; the counter knows of its first time only. -/
theorem nswitch_twoPeers : ∃ tr k, KernelRun tr k ∧ k.cur = some 1 ∧ switches 1 tr = 2 ∧
    (k.proc 1).nswitch = 1 ∧ (k.proc 0).nswitch = switches 0 tr := by
  have h : ∃ tr k, KernelRun tr k ∧ decide (k.cur = some 1 ∧ switches 1 tr = 2 ∧
      switches 0 tr = 2 ∧ (k.proc 0).state ≠ .unused ∧ (k.proc 1).state ≠ .unused) = true :=
    Run.exists_of_replayCheck twoPeers rfl (by decide +kernel)
  obtain ⟨tr, k, hrun, hp⟩ := h
  obtain ⟨hcur, hone, hzero, hlive₀, hlive₁⟩ := of_decide_eq_true hp
  have hc₁ : completed tr k 1 = 1 := by
    rw [completed, hone, if_pos hcur]
    rfl
  have hc₀ : completed tr k 0 = 2 := by
    rw [completed, hzero, if_neg (by simp [hcur])]
    rfl
  have h₁ := (nswitch_counts_switches hrun 1 hlive₁).2.mpr (by rw [hc₁]; decide)
  have h₀ := (nswitch_counts_switches hrun 0 hlive₀).2.mpr (by rw [hc₀]; decide)
  exact ⟨tr, k, hrun, hcur, hone, by rw [h₁, hc₁], by rw [h₀, hc₀, hzero]; rfl⟩

/-! ### A counter that wraps around -/

/-- `init` is alone in the table and waits for the CPU. -/
structure Alone (k : Kernel) : Prop where
  cur : k.cur = none
  ready : Runnable k 0
  user : k.cont 0 = .user
  empty : ∀ j ≠ 0, (k.proc j).state = .unused

section Alone

variable {tr : List (Event Kernel Step Ret)} {k : Kernel}

theorem alone_userinit : Alone userinit :=
  ⟨rfl, rfl, rfl, fun j hj => by rw [userinit_proc_of_ne hj]; rfl⟩

theorem KernelRun.move_cursor (h : KernelRun tr k) (hc : k.cur = none) {n : ℕ}
    (hnext : k.scheduler = { k with cursor := n }) :
    ∃ tr', KernelRun tr' { k with cursor := n } ∧ switches 0 tr' = switches 0 tr := by
  have hexec : exec .scheduler k = .ok (.none, { k with cursor := n }) := by
    simp [exec, hc, hnext]
  refine ⟨⟨k, .scheduler, .none⟩ :: tr, h.step trivial hexec, ?_⟩
  simp [switches, switchesTo, hnext, hc]

theorem Alone.move_cursor (ha : Alone k) (n : ℕ) : Alone { k with cursor := n } :=
  ⟨ha.cur, ha.ready, ha.user, ha.empty⟩

theorem Alone.scan (ha : Alone k) (h : KernelRun tr k) :
    ∃ tr' k', KernelRun tr' k' ∧ Alone k' ∧ k'.cursor = 0 ∧ switches 0 tr' = switches 0 tr := by
  -- induction on how far the scan is from the end of the table
  induction hd : nProc - k.cursor generalizing tr k with
  | zero =>
    have hnext : k.scheduler = { k with cursor := 0 } := by
      rw [Kernel.scheduler, dif_neg (by omega)]
    obtain ⟨tr', hrun, hsame⟩ := h.move_cursor ha.cur hnext
    exact ⟨tr', _, hrun, ha.move_cursor 0, rfl, hsame⟩
  | succ d ih =>
    by_cases h₀ : k.cursor = 0
    · exact ⟨tr, k, h, ha, h₀, rfl⟩
    have hlt : k.cursor < nProc := by omega
    have hidle : (k.proc ⟨k.cursor, hlt⟩).state ≠ .runnable := by
      rw [ha.empty _ (fun heq => h₀ (congrArg Fin.val heq))]
      simp
    have hnext : k.scheduler = { k with cursor := k.cursor + 1 } := by
      rw [Kernel.scheduler, dif_pos hlt, if_pos hidle]
    obtain ⟨tr₁, hrun₁, hsame₁⟩ := h.move_cursor ha.cur hnext
    obtain ⟨tr', k', hrun, halone, hcursor, hsame⟩ :=
      ih (ha.move_cursor (k.cursor + 1)) hrun₁ (by dsimp only; omega)
    exact ⟨tr', k', hrun, halone, hcursor, hsame.trans hsame₁⟩

theorem Alone.turn (ha : Alone k) (h : KernelRun tr k) (h₀ : k.cursor = 0) :
    ∃ tr' k', KernelRun tr' k' ∧ Alone k' ∧ switches 0 tr' = switches 0 tr + 1 := by
  have hlt : k.cursor < nProc := by
    rw [h₀]
    decide
  have hzero : (⟨k.cursor, hlt⟩ : Fin nProc) = 0 := Fin.ext h₀
  have htop : TopRunnable k 0 := by
    refine ⟨ha.ready, fun j hj => ?_⟩
    by_cases hj₀ : j = 0
    · rw [hj₀]
    · rw [Runnable, ha.empty j hj₀] at hj
      cases hj
  have hnext : k.scheduler =
      { k.modify 0 (fun p => { p with state := .running }) with cur := some 0 } := by
    have hready : ¬(k.proc 0).state ≠ .runnable := not_not.mpr ha.ready
    rw [Kernel.scheduler, dif_pos hlt, hzero, if_neg hready, highest_of_top htop]
  have hdispatch : exec .scheduler k = .ok (.none, k.scheduler) := by simp [exec, ha.cur]
  have hint : k.scheduler.Interruptible := by
    rw [hnext]
    simp [Interruptible, ha.user]
  have hyield : exec .yield k.scheduler = .ok (.none, (k.scheduler.modify 0
      (fun p => { p with state := .runnable })).sched 0) := by
    have hcur : k.scheduler.cur = some 0 := by rw [hnext]
    simp only [exec, hcur]
    rw [if_pos hint]
  have hrun := (h.step trivial hdispatch).step trivial hyield
  refine ⟨_, _, hrun, ⟨rfl, ?_, ?_, fun j hj => ?_⟩, ?_⟩
  · rw [Runnable, sched_state]
    simp
  · rw [hnext]
    exact ha.user
  · rw [sched_state, hnext]
    simpa [hj] using ha.empty j hj
  · simp [switches, switchesTo, hnext]

theorem exists_alone (n : ℕ) : ∃ tr k, KernelRun tr k ∧ Alone k ∧ switches 0 tr = n := by
  induction n with
  | zero => exact ⟨[], userinit, .start rfl, alone_userinit, rfl⟩
  | succ n ih =>
    obtain ⟨tr, k, h, ha, hn⟩ := ih
    obtain ⟨tr₁, k₁, h₁, ha₁, hcursor, hn₁⟩ := ha.scan h
    obtain ⟨tr₂, k₂, h₂, ha₂, hn₂⟩ := ha₁.turn h₁ hcursor
    exact ⟨tr₂, k₂, h₂, ha₂, by rw [hn₂, hn₁, hn]⟩

end Alone

/-- After `2 ^ 31` switches to `init` its counter is negative. -/
theorem nswitch_wraps_around : ∃ tr k, KernelRun tr k ∧ (k.proc 0).state = .runnable ∧
    completed tr k 0 = 2 ^ 31 ∧ (k.proc 0).nswitch = -2 ^ 31 ∧ ¬ExactSwitches tr k := by
  obtain ⟨tr, k, h, ha, hn⟩ := exists_alone (2 ^ 31)
  have hlive : (k.proc 0).state ≠ .unused := by
    rw [ha.ready]
    simp
  have hcompleted : completed tr k 0 = 2 ^ 31 := by
    rw [completed, hn, if_neg (by simp [ha.cur])]
    norm_num
  have hneg : (k.proc 0).nswitch = -2 ^ 31 := by
    rw [nswitch_of_run h 0 hlive, hcompleted]
    decide
  refine ⟨tr, k, h, ha.ready, hcompleted, hneg, fun hexact => ?_⟩
  have heq := hexact 0 hlive
  rw [hcompleted, hneg] at heq
  omega

end SsuOs.Xv6
