import Mathlib.Data.Finset.Card
import Mathlib.Tactic.SplitIfs
import SsuOs.Xv6.Parentage

/-! `exit`, `wait` and `kill` as one protocol between a process and its parent: nobody sleeps in
`wait` over a child that has exited, and every exit is reported by exactly one `wait`. -/
namespace SsuOs.Xv6
open Kernel Lib

/-- Asleep inside `wait`. -/
def Waiting (k : Kernel) (i : Fin nProc) : Prop :=
  (k.proc i).state = .sleeping ∧ k.cont i = .wait

instance (k : Kernel) (i : Fin nProc) : Decidable (Waiting k i) :=
  inferInstanceAs (Decidable (_ ∧ _))

/-- Nothing has happened that `i` waits for. -/
structure Justified (k : Kernel) (i : Fin nProc) : Prop where
  chan : (k.proc i).chan = .proc i
  not_killed : (k.proc i).killed = false
  child : ∃ j, (k.proc j).parent = some i
  no_zombie : ∀ j, (k.proc j).parent = some i → (k.proc j).state ≠ .zombie

/-- A step during which `i` waits on: it keeps its children, and none of them exits. -/
structure Undisturbed (k k' : Kernel) (i : Fin nProc) : Prop where
  waiting : Waiting k i
  chan : (k'.proc i).chan = (k.proc i).chan
  killed : (k'.proc i).killed = (k.proc i).killed
  parent : ∀ j, (k'.proc j).parent = some i ↔ (k.proc j).parent = some i
  zombie : ∀ j, (k'.proc j).state = .zombie → (k.proc j).state = .zombie

section

variable {k k' : Kernel} {i j l m : Fin nProc}

theorem Undisturbed.justified (h : Undisturbed k k' i) (hj : Justified k i) : Justified k' i := by
  refine ⟨h.chan.trans hj.chan, h.killed.trans hj.not_killed, ?_, fun j hp hz => ?_⟩
  · obtain ⟨j, hp⟩ := hj.child
    exact ⟨j, (h.parent j).mpr hp⟩
  · exact hj.no_zombie j ((h.parent j).mp hp) (h.zombie j hz)

theorem undisturbed_of_eq (hproc : k'.proc = k.proc) (hcont : k'.cont = k.cont)
    (hw : Waiting k' l) : Undisturbed k k' l := by
  rw [Waiting, hproc, hcont] at hw
  refine ⟨hw, ?_, ?_, fun j => ?_, fun j => ?_⟩ <;> rw [hproc]
  exact id

theorem undisturbed_wakeup1 {c : Chan} (hw : Waiting (k.wakeup1 c) l) :
    Undisturbed k (k.wakeup1 c) l := by
  have hsteady := steady_wakeup1 c k
  have hl : (k.wakeup1 c).proc l = k.proc l := by
    have hs := hw.1
    by_cases hc : (k.proc l).state = .sleeping ∧ (k.proc l).chan = c
    · simp [wakeup1, hc] at hs
    · simp only [wakeup1, if_neg hc]
  refine ⟨⟨hl ▸ hw.1, hw.2⟩, by rw [hl], by rw [hl], fun j => ?_, hsteady.zombie⟩
  rw [hsteady.parent]

theorem ForkInv.ne_of_sleeping (hf : ForkInv k) (hc : k.cur = some i)
    (hs : (k.proc l).state = .sleeping) : l ≠ i := by
  rintro rfl
  simp [hf.cur_running hc] at hs

theorem Undisturbed.trans {k'' : Kernel} (h : Undisturbed k k' l) (h' : Undisturbed k' k'' l) :
    Undisturbed k k'' l :=
  ⟨h.waiting, h'.chan.trans h.chan, h'.killed.trans h.killed,
    fun j => (h'.parent j).trans (h.parent j), fun j hz => h.zombie j (h'.zombie j hz)⟩

theorem undisturbed_setCont {c : Cont} (hc : c ≠ .wait) (hw : Waiting (k.setCont i c) l) :
    Undisturbed k (k.setCont i c) l := by
  have hl : l ≠ i := by
    rintro rfl
    exact hc (by simpa using hw.2)
  refine ⟨⟨hw.1, ?_⟩, rfl, rfl, fun _ => .rfl, fun _ => id⟩
  simpa [hl] using hw.2

theorem undisturbed_modify {f : Proc → Proc} (hk : k'.proc = (k.modify m f).proc)
    (hcont : k'.cont = k.cont) (hs : (f (k.proc m)).state ≠ .sleeping)
    (hpar : (f (k.proc m)).parent = some l ↔ (k.proc m).parent = some l)
    (hz : (f (k.proc m)).state = .zombie → (k.proc m).state = .zombie)
    (hw : Waiting k' l) : Undisturbed k k' l := by
  rw [Waiting, hk, hcont, modify_proc] at hw
  have hl : l ≠ m := by
    rintro rfl
    exact hs (by simpa using hw.1)
  rw [if_neg hl] at hw
  refine ⟨hw, ?_, ?_, fun j => ?_, fun j => ?_⟩
  · rw [hk, modify_proc, if_neg hl]
  · rw [hk, modify_proc, if_neg hl]
  all_goals
    rw [hk, modify_proc]
    split_ifs with hj
    · rw [hj]
      assumption
  · rfl
  · exact id

theorem undisturbed_sched (hw : Waiting (k.sched i) l) : Undisturbed k (k.sched i) l := by
  have hsteady := steady_sched i k
  refine ⟨⟨sched_state i l k ▸ hw.1, hw.2⟩, ?_, ?_, fun j => by rw [hsteady.parent],
    hsteady.zombie⟩
  all_goals by_cases hl : l = i <;> simp [sched, hl]

theorem undisturbed_goToSleep {c : Chan} {how : Cont} (hl : l ≠ i)
    (hw : Waiting (k.goToSleep c how i) l) : Undisturbed k (k.goToSleep c how i) l := by
  have hsched := undisturbed_sched hw
  have hproc : ∀ j, j ≠ i → ((k.modify i (fun p => { p with
      chan := c, state := .sleeping })).setCont i how).proc j = k.proc j := by
    intro j hj
    simp [hj]
  refine Undisturbed.trans ⟨?_, ?_, ?_, fun j => ?_, fun j => ?_⟩ hsched
  · simpa [Waiting, hl] using hsched.waiting
  · rw [hproc l hl]
  · rw [hproc l hl]
  · by_cases hj : j = i <;> simp [hj]
  · by_cases hj : j = i <;> simp [hj]

/-- `wait` has cleared the channel of the running process at most. -/
theorem undisturbed_waitsIn {k₀ : Kernel} (hf : ForkInv k) (hc : k.cur = some i)
    (h : WaitsIn k i k₀) (hw : Waiting k₀ l) : Undisturbed k k₀ l := by
  have hrun := hf.cur_running hc
  cases h with
  | entered hu => exact undisturbed_of_eq rfl rfl hw
  | woken hu =>
    have h := undisturbed_setCont (by simp) hw
    exact (undisturbed_modify rfl rfl (by simp [hrun]) .rfl id h.waiting).trans h

/-- Whoever sleeps in `wait` after a step that is no `exit` has slept on during it, or has just
gone to sleep. -/
theorem Trans.waiting {a : Step} {r : Ret} (h : Trans k a r k') (hi : FamilyInv k)
    (hx : a ≠ .exit) (hw : Waiting k' l) :
    Undisturbed k k' l ∨ a = .wait ∧ k.cur = some l := by
  have hf := hi.toForkInv
  cases h with
  | advance => exact .inl (undisturbed_of_eq rfl rfl hw)
  | dispatch hc h hs =>
    exact .inl (undisturbed_modify (m := k.highest ⟨k.cursor, h⟩)
      (f := fun p => { p with state := .running }) rfl rfl (by simp) .rfl (by simp) hw)
  | nextPass => exact .inl (undisturbed_of_eq rfl rfl hw)
  | wakeup c => exact .inl (undisturbed_wakeup1 hw)
  | tableFull => exact .inl (undisturbed_of_eq rfl rfl hw)
  | allocate i np hc hu hnp =>
    have h := undisturbed_setCont (by simp) hw
    refine .inl (Undisturbed.trans ?_ h)
    exact undisturbed_modify (m := np) (f := fun p => { p with
      state := .embryo, pid := k.nextpid, ppid := 0, nswitch := 0, priority := 500 })
      rfl rfl (by simp) .rfl (by simp) h.waiting
  | kallocOk i np hc hu => exact .inl (undisturbed_setCont (by simp) hw)
  | kallocFail i np hc hu | copyuvmFail i np hc hu | commit i np hc hu =>
    have h := undisturbed_setCont (by simp) hw
    exact .inl ((undisturbed_modify rfl rfl (by simp) .rfl (by simp) h.waiting).trans h)
  | copyuvmOk i np hc hu =>
    have h := undisturbed_setCont (by simp) hw
    have hemb := hi.child_embryo i np (by rw [hu]; rfl)
    have hchild : (k.cont i).child = some np := by rw [hu]; rfl
    have hnone := hi.parent_none hchild (by simp [hu])
    have hli : (k.proc l).state = .sleeping := by
      have hs := h.waiting.1
      rw [modify_proc] at hs
      split_ifs at hs with hl
      · exact hl ▸ hs
      · exact hs
    have hne := hf.ne_of_sleeping hc hli
    exact .inl ((undisturbed_modify rfl rfl (by simp [hemb]) (by simp [hnone, hne.symm]) id
      h.waiting).trans h)
  | exit => exact absurd rfl hx
  | reap i j hc hw₀ hj =>
    obtain ⟨-, hf₀, hc₀, -⟩ := waitsIn_steady hf hc hw₀
    have hl := hf₀.ne_of_sleeping hc₀ (l := l) (by
      have hs := hw.1
      rw [modify_proc] at hs
      split_ifs at hs
      exact hs)
    have h := undisturbed_modify rfl rfl (by simp) (by simp [hj.1, hl.symm]) (by simp) hw
    exact .inl ((undisturbed_waitsIn hf hc hw₀ h.waiting).trans h)
  | waitFail i hc hw₀ => exact .inl (undisturbed_waitsIn hf hc hw₀ hw)
  | waitSleep i hc hw₀ =>
    by_cases hl : l = i
    · exact .inr ⟨rfl, hl ▸ hc⟩
    · have h := undisturbed_goToSleep hl hw
      exact .inl ((undisturbed_waitsIn hf hc hw₀ h.waiting).trans h)
  | killed i j hc hj =>
    refine .inl (undisturbed_modify rfl rfl ?_ .rfl ?_ hw)
    · dsimp only
      split_ifs with hs
      · simp
      · exact hs
    · dsimp only
      split_ifs with hs
      · simp
      · exact id
  | killMiss => exact .inl (undisturbed_of_eq rfl rfl hw)
  | sleep i c hc hu =>
    refine .inl (undisturbed_goToSleep ?_ hw)
    rintro rfl
    simp [Waiting, goToSleep, sched] at hw
  | wake i hc hu =>
    have h := undisturbed_setCont (by simp) hw
    have hrun := hf.cur_running hc
    exact .inl ((undisturbed_modify rfl rfl (by simp [hrun]) .rfl id h.waiting).trans h)
  | yield i hc h =>
    have h := undisturbed_sched hw
    exact .inl ((undisturbed_modify rfl rfl (by simp) .rfl (by simp) h.waiting).trans h)
  | setPrioFail => exact .inl (undisturbed_of_eq rfl rfl hw)
  | setPrio i hc hn | resize i sz hc =>
    have hrun := hf.cur_running hc
    exact .inl (undisturbed_modify rfl rfl (by simp [hrun]) .rfl id hw)

/-- `wait` goes to sleep only over children that are all alive. -/
theorem waitScan_justified (hs : (k.waitScan i).1 = none) :
    Justified (k.waitScan i).2 i := by
  unfold waitScan at hs ⊢
  split at hs
  · simp at hs
  · rename_i hj
    split_ifs at hs ⊢ with hstop
    rw [not_or] at hstop
    simp only [not_forall, not_not] at hstop
    have hproc : ∀ j, ((k.goToSleep (.proc i) .wait i).proc j).parent = (k.proc j).parent := by
      intro j
      by_cases hj : j = i <;> simp [goToSleep, sched, hj]
    refine ⟨by simp [goToSleep, sched], by simpa [goToSleep, sched] using hstop.2, ?_,
      fun j hp hz => ?_⟩
    · obtain ⟨j, hp⟩ := hstop.1
      exact ⟨j, by rw [hproc, hp]⟩
    · rw [hproc] at hp
      have hnone := List.find?_eq_none.mp hj j (List.mem_finRange j)
      by_cases hji : j = i
      · simp [goToSleep, sched, hji] at hz
      · have hz' : (k.proc j).state = .zombie := by simpa [goToSleep, sched, hji] using hz
        simp [hp, hz'] at hnone

theorem waitScan_running (hrun : (k.proc i).state = .running) (hs : (k.waitScan i).1 ≠ none) :
    ((k.waitScan i).2.proc i).state ≠ .sleeping := by
  unfold waitScan at hs ⊢
  split
  · rw [modify_proc]
    split_ifs <;> simp [hrun]
  · rename_i hj
    simp only [hj] at hs
    split_ifs at hs ⊢
    · simp [hrun]
    · simp at hs

/-- The running process sleeps after `wait` only when the scan of its children said so. -/
theorem wait_justified {r : Ret} (hf : ForkInv k) (hc : k.cur = some i)
    (he : exec .wait k = .ok (r, k')) (hw : Waiting k' i) : Justified k' i := by
  have hscan : ∀ k₀, k₀.cur = some i → ForkInv k₀ → (k₀.waitScan i).2 = k' → Justified k' i := by
    rintro k₀ hc₀ hf₀ rfl
    apply waitScan_justified
    by_contra hne
    exact waitScan_running (hf₀.cur_running hc₀) hne hw.1
  simp only [exec, hc] at he
  split at he
  · rename_i hu
    obtain ⟨-, hk⟩ := ok_pair_inj he
    exact hscan k hc hf hk
  · rename_i hu
    obtain ⟨-, hk⟩ := ok_pair_inj he
    obtain ⟨-, hf₀, hc₀, -⟩ := waitsIn_steady hf hc (.woken hu)
    exact hscan _ hc₀ hf₀ hk
  · simp at he

/-- Whoever sleeps on over `wakeup1` sleeps on another channel. -/
theorem waiting_wakeup1_ne {c : Chan} (hw : Waiting (k.wakeup1 c) l) :
    (k.proc l).chan ≠ c := by
  intro hc
  have hl := undisturbed_wakeup1 hw
  have hs := hw.1
  simp [wakeup1, hl.waiting.1, hc] at hs

/-- `init` sleeps on only if the child passed on to it is alive. -/
theorem adopt_waiting (hw : Waiting (k.adopt i j) l) :
    Waiting k l ∧ ((k.adopt i j).proc l).chan = (k.proc l).chan ∧
      ((k.adopt i j).proc l).killed = (k.proc l).killed ∧
      ((k.proc l).chan = .proc k.initproc → (k.proc j).parent = some i →
        (k.proc j).state ≠ .zombie) := by
  unfold adopt at hw ⊢
  split_ifs at hw ⊢ with hp
  · dsimp only at hw ⊢
    have hm : ∀ k₁, k₁ = k.modify j (fun p => { p with parent := some k.initproc }) →
        Waiting k₁ l → Waiting k l ∧ (k₁.proc l).chan = (k.proc l).chan ∧
          (k₁.proc l).killed = (k.proc l).killed := by
      rintro _ rfl hw₁
      by_cases hl : l = j <;> simp_all [Waiting]
    split_ifs at hw ⊢ with hz
    · have h := undisturbed_wakeup1 hw
      obtain ⟨hwk, hch, hk⟩ := hm _ rfl h.waiting
      have hne := waiting_wakeup1_ne hw
      refine ⟨hwk, h.chan.trans hch, h.killed.trans hk, fun hcl => ?_⟩
      rw [hch] at hne
      exact absurd hcl hne
    · obtain ⟨hwk, hch, hk⟩ := hm _ rfl hw
      refine ⟨hwk, hch, hk, fun _ _ hzj => hz ?_⟩
      simpa using hzj
  · exact ⟨hw, rfl, rfl, fun _ hpar => absurd hpar hp⟩

theorem wakeup1_zombie (c : Chan) : ((k.wakeup1 c).proc j).state = .zombie ↔
    (k.proc j).state = .zombie := by
  simp only [wakeup1]
  split_ifs with hs
  · simp [hs.1]
  · rfl

theorem adopt_zombie : ((k.adopt i j).proc m).state = .zombie ↔ (k.proc m).state = .zombie := by
  have hm : ((k.modify j (fun p => { p with parent := some k.initproc })).proc m).state =
      (k.proc m).state := by
    by_cases hj : m = j <;> simp [hj]
  unfold adopt
  split_ifs
  · dsimp only
    split_ifs
    · rw [wakeup1_zombie, hm]
    · rw [hm]
  · rfl

theorem foldl_adopt_zombie (js : List (Fin nProc)) :
    ((js.foldl (adopt i) k).proc m).state = .zombie ↔ (k.proc m).state = .zombie := by
  induction js generalizing k with
  | nil => rfl
  | cons j js ih => rw [List.foldl_cons, ih, adopt_zombie]

/-- What a process asleep in `wait` can rely on when `exit` of `i` has looked at the entries `js`
on its way from `k` to `k'`. -/
structure Survives (i : Fin nProc) (js : List (Fin nProc)) (k k' : Kernel) (l : Fin nProc) :
    Prop where
  waiting : Waiting k l
  chan : (k'.proc l).chan = (k.proc l).chan
  killed : (k'.proc l).killed = (k.proc l).killed
  no_zombie : (k.proc l).chan = .proc k.initproc → ∀ j ∈ js, (k.proc j).parent = some i →
    (k.proc j).state ≠ .zombie

theorem foldl_adopt_survives (js : List (Fin nProc)) (hnodup : js.Nodup)
    (hw : Waiting (js.foldl (adopt i) k) l) : Survives i js k (js.foldl (adopt i) k) l := by
  induction js generalizing k with
  | nil => exact ⟨hw, rfl, rfl, by simp⟩
  | cons j js ih =>
    rw [List.foldl_cons] at hw ⊢
    obtain ⟨hj, hjs⟩ := List.nodup_cons.mp hnodup
    have hs := ih hjs hw
    obtain ⟨hwk, hch, hk, hz⟩ := adopt_waiting hs.waiting
    have hq := passedOn_adopt i j k
    refine ⟨hwk, hs.chan.trans hch, hs.killed.trans hk, fun hc m hm hp hzm => ?_⟩
    rcases List.mem_cons.mp hm with rfl | hm
    · exact hz hc hp hzm
    · have hmj : m ≠ j := fun h => hj (h ▸ hm)
      refine hs.no_zombie (by rw [hch, hc, hq.initproc]) m hm ?_ (adopt_zombie.mpr hzm)
      rw [hq.parent, if_neg (by simp [hmj]), hp]

theorem abandonChildren_survives (hw : Waiting (k.abandonChildren i) l) :
    Survives i (List.finRange nProc) k (k.abandonChildren i) l := by
  unfold abandonChildren at hw ⊢
  exact foldl_adopt_survives _ (List.nodup_finRange nProc) hw

theorem abandonChildren_zombie : ((k.abandonChildren i).proc m).state = .zombie ↔
    (k.proc m).state = .zombie := by
  unfold abandonChildren
  exact foldl_adopt_zombie _

theorem exitProc_zombie : ((k.exitProc i).proc j).state = .zombie ↔
    j = i ∨ (k.proc j).state = .zombie := by
  unfold exitProc
  rw [sched_state, modify_proc]
  split_ifs with hj
  · simp [hj]
  · rw [abandonChildren_zombie, wakeup1_zombie]
    simp [hj]

/-- Asleep after an `exit` means asleep before, and not on a channel that `exit` has woken. -/
theorem exitProc_survives (hw : Waiting (k.exitProc i) l) :
    Survives i (List.finRange nProc) k (k.exitProc i) l ∧
      (k.proc l).chan ≠ chanOf (k.proc i).parent := by
  have hli : l ≠ i := by
    rintro rfl
    simp [Waiting, exitProc_zombie.mpr (Or.inl rfl)] at hw
  unfold exitProc at hw ⊢
  generalize hk₁ : k.wakeup1 (chanOf (k.proc i).parent) = k₁ at hw ⊢
  have hsched := undisturbed_sched hw
  have hw₂ : Waiting (k₁.abandonChildren i) l := by
    simpa [Waiting, hli] using hsched.waiting
  have hs := abandonChildren_survives hw₂
  have hwake := undisturbed_wakeup1 (hk₁ ▸ hs.waiting)
  rw [hk₁] at hwake
  have hst := steady_wakeup1 (chanOf (k.proc i).parent) k
  rw [hk₁] at hst
  refine ⟨⟨hwake.waiting, ?_, ?_, fun hc j hj hp hz => ?_⟩, waiting_wakeup1_ne (hk₁ ▸ hs.waiting)⟩
  · rw [hsched.chan]
    simp only [modify_proc, if_neg hli]
    exact hs.chan.trans hwake.chan
  · rw [hsched.killed]
    simp only [modify_proc, if_neg hli]
    exact hs.killed.trans hwake.killed
  · refine hs.no_zombie ?_ j hj ?_ ?_
    · rw [hwake.chan, hc, hst.initproc]
    · rw [hst.parent, hp]
    · rw [← hk₁]
      exact (wakeup1_zombie _).mpr hz

end

/-- Everybody but `init` has a parent, and nobody is their own. -/
structure LineageInv (k : Kernel) : Prop extends FamilyInv k where
  init_parent : (k.proc k.initproc).parent = none
  made_parent : ∀ j, (k.proc j).state.Made → j ≠ k.initproc → (k.proc j).parent ≠ none
  not_own : ∀ j, (k.proc j).parent ≠ some j

section

variable {k k' : Kernel} {i j l m : Fin nProc}

/-- A zombie has woken its parent before it is one, and so has a zombie that is passed on to
`init`. -/
theorem exitProc_justified (hi : LineageInv k) (hj : ∀ l, Waiting k l → Justified k l)
    (hw : Waiting (k.exitProc i) l) : Justified (k.exitProc i) l := by
  obtain ⟨hs, hne⟩ := exitProc_survives hw
  have hjl := hj l hs.waiting
  have hli : l ≠ i := by
    rintro rfl
    simp [Waiting, exitProc_zombie.mpr (Or.inl rfl)] at hw
  have hil : (k.proc i).parent ≠ some l := by
    intro hp
    rw [hp] at hne
    exact hne hjl.chan
  refine ⟨hs.chan.trans hjl.chan, hs.killed.trans hjl.not_killed, ?_, fun m hp hz => ?_⟩
  · obtain ⟨m, hp⟩ := hjl.child
    refine ⟨m, ?_⟩
    rw [(exitProc_parent k i m).2, hp, if_neg (by simpa using hli)]
  · rw [(exitProc_parent k i m).2] at hp
    rw [exitProc_zombie] at hz
    split_ifs at hp with hpm
    · have hmi : m ≠ i := fun h => hi.not_own m (h ▸ hpm)
      obtain rfl := Option.some.inj hp
      exact hs.no_zombie hjl.chan m (List.mem_finRange m) hpm (hz.resolve_left hmi)
    · rcases hz with rfl | hz
      · exact hil hp
      · exact hjl.no_zombie m hp hz

theorem LineageInv.steady (hi : LineageInv k) (h : Steady k k') (hfam : FamilyInv k') :
    LineageInv k' := by
  refine ⟨hfam, ?_, fun j hm hj => ?_, fun j => ?_⟩
  · rw [h.initproc, h.parent]
    exact hi.init_parent
  · rw [h.parent]
    exact hi.made_parent j (h.made.mp hm) (h.initproc ▸ hj)
  · rw [h.parent]
    exact hi.not_own j

theorem LineageInv.of_modify {f : Proc → Proc} (hi : LineageInv k) (hfam : FamilyInv k')
    (hinit : k'.initproc = k.initproc) (hk : k'.proc = (k.modify m f).proc)
    (hm : ¬(k.proc m).state.Active)
    (hmade : (f (k.proc m)).state.Made → (f (k.proc m)).parent ≠ none)
    (hown : (f (k.proc m)).parent ≠ some m) : LineageInv k' := by
  have hne : k.initproc ≠ m := fun h => hm (h ▸ hi.init_active)
  refine ⟨hfam, ?_, fun j hs hj => ?_, fun j => ?_⟩
  · rw [hinit, hk, modify_proc, if_neg hne]
    exact hi.init_parent
  · rw [hinit] at hj
    rw [hk, modify_proc] at hs ⊢
    split_ifs at hs ⊢
    · exact hmade hs
    · exact hi.made_parent j hs hj
  · rw [hk, modify_proc]
    split_ifs with hj
    · rw [hj]
      exact hown
    · exact hi.not_own j

theorem LineageInv.exitProc (hi : LineageInv k) (hfam : FamilyInv (k.exitProc i))
    (hc : k.cur = some i) : LineageInv (k.exitProc i) := by
  have hsim := exitProc_similar hi.toForkInv hc
  have hinit' : (k.exitProc i).initproc = k.initproc := by
    obtain ⟨k₁, hq, hexit⟩ := exitProc_eq i k
    rw [hexit]
    exact hq.initproc
  refine ⟨hfam, ?_, fun j hm hj => ?_, fun j => ?_⟩
  · rw [hinit', (exitProc_parent k i _).2, hi.init_parent]
    simp
  · rw [(exitProc_parent k i j).2]
    split_ifs
    · simp
    · exact hi.made_parent j (hsim.made.mp hm) (hinit' ▸ hj)
  · rw [(exitProc_parent k i j).2]
    split_ifs with hp
    · -- a child of `i` is not `init`, which has no parent
      intro hj
      rw [← Option.some.inj hj, hi.init_parent] at hp
      simp at hp
    · exact hi.not_own j

theorem Effect.lineageInv {a : Step} {r : Ret} (h : Effect k a r k') (hi : LineageInv k) :
    LineageInv k' := by
  have hfam := h.familyInv hi.toFamilyInv
  cases h with
  | steady h => exact hi.steady h hfam
  | allocate i np hc hu hnp =>
    exact hi.of_modify (m := np) (f := fun p => { p with
      state := .embryo, pid := k.nextpid, ppid := 0, nswitch := 0, priority := 500 }) hfam rfl rfl
      (by simp [hnp, ProcState.Active]) (by simp [ProcState.Made]) (hi.not_own np)
  | failFork i np hc hu =>
    have hemb : (k.proc np).state = .embryo := by
      apply hi.child_embryo i np
      rcases hu with hu | hu <;> rw [hu] <;> rfl
    exact hi.of_modify hfam rfl (setCont_proc _ _ _) (by simp [hemb, ProcState.Active])
      (by simp [ProcState.Made]) (hi.not_own np)
  | copyuvmOk i np hc hu =>
    have hchild : (k.cont i).child = some np := by rw [hu]; rfl
    have hemb := hi.child_embryo i np hchild
    have hne : i ≠ np := hi.active_ne hchild (Or.inr (Or.inr (hi.cur_running hc)))
    exact hi.of_modify hfam rfl (setCont_proc _ _ _) (by simp [hemb, ProcState.Active])
      (by simp) (by simpa using hne)
  | commit i np hc hu =>
    have hemb := hi.child_embryo i np (by rw [hu]; rfl)
    have hpar := (hi.commit_parent i np hu).1
    exact hi.of_modify hfam rfl (setCont_proc _ _ _) (by simp [hemb, ProcState.Active])
      (by simp [hpar]) (hi.not_own np)
  | exit i hc hu => exact hi.exitProc hfam hc
  | reap i j hc h₀ hf₀ hj =>
    have hi₀ := hi.steady h₀ (hi.toFamilyInv.steady h₀ hf₀)
    exact hi₀.of_modify hfam rfl rfl (by simp [hj.2, ProcState.Active])
      (by simp [ProcState.Made]) (by simp)

/-- What a step does to the zombies: nothing, one more by `exit` or one less by `wait`. -/
inductive Turnover (k : Kernel) : Step → Ret → Kernel → Prop
  | same {a : Step} {r : Ret} {k' : Kernel} (ha : a ≠ .exit)
      (hr : a = .wait → r = .none ∨ r = .int (-1))
      (hz : ∀ j, (k'.proc j).state = .zombie ↔ (k.proc j).state = .zombie) : Turnover k a r k'
  | exited {k' : Kernel} (i : Fin nProc) (hc : k.cur = some i)
      (hz : ∀ j, (k'.proc j).state = .zombie ↔ j = i ∨ (k.proc j).state = .zombie) :
      Turnover k .exit .none k'
  | reported {k' : Kernel} (i : Fin nProc) (hi : (k.proc i).state = .zombie)
      (hi' : (k'.proc i).state = .unused)
      (hz : ∀ j, (k'.proc j).state = .zombie ↔ j ≠ i ∧ (k.proc j).state = .zombie) :
      Turnover k .wait (.int (k.proc i).pid) k'

theorem zombie_modify {f : Proc → Proc} (hk : k'.proc = (k.modify m f).proc)
    (hs : (f (k.proc m)).state = .zombie ↔ (k.proc m).state = .zombie) (j : Fin nProc) :
    (k'.proc j).state = .zombie ↔ (k.proc j).state = .zombie := by
  rw [hk, modify_proc]
  split_ifs with hj
  · rw [hj]
    exact hs
  · rfl

theorem goToSleep_zombie {c : Chan} {how : Cont} (hrun : (k.proc i).state = .running)
    (j : Fin nProc) :
    ((k.goToSleep c how i).proc j).state = .zombie ↔ (k.proc j).state = .zombie := by
  unfold goToSleep
  rw [sched_state]
  exact zombie_modify (setCont_proc _ _ _) (by simp [hrun]) j

theorem waitsIn_zombie {k₀ : Kernel} (h : WaitsIn k i k₀) (j : Fin nProc) :
    (k₀.proc j).state = .zombie ↔ (k.proc j).state = .zombie := by
  cases h with
  | entered => rfl
  | woken => exact zombie_modify (setCont_proc _ _ _) .rfl j

theorem Trans.turnover {a : Step} {r : Ret} (h : Trans k a r k') (hf : ForkInv k) :
    Turnover k a r k' := by
  cases h with
  | advance | nextPass | tableFull | killMiss | setPrioFail | kallocOk =>
    exact .same (by simp) (by simp) fun _ => .rfl
  | dispatch hc h hs =>
    have hr := highest_runnable hs
    refine .same (by simp) (by simp) (zombie_modify (m := k.highest ⟨k.cursor, h⟩)
      (f := fun p => { p with state := .running }) rfl ?_)
    simp [hr]
  | wakeup c => exact .same (by simp) (by simp) fun j => wakeup1_zombie c
  | allocate i np hc hu hnp =>
    refine .same (by simp) (by simp) (zombie_modify (m := np) (f := fun p => { p with
      state := .embryo, pid := k.nextpid, ppid := 0, nswitch := 0, priority := 500 }) rfl ?_)
    simp [hnp]
  | kallocFail i np hc hu | copyuvmFail i np hc hu | commit i np hc hu =>
    have hemb := hf.child_embryo i np (by rw [hu]; rfl)
    exact .same (by simp) (by simp) (zombie_modify (setCont_proc _ _ _) (by simp [hemb]))
  | copyuvmOk i np hc hu =>
    exact .same (by simp) (by simp) (zombie_modify (setCont_proc _ _ _) .rfl)
  | exit i hc hu hi => exact .exited i hc fun j => exitProc_zombie
  | reap i j hc hw hj =>
    obtain ⟨hst, -⟩ := waitsIn_steady hf hc hw
    rw [hst.pid]
    refine .reported j ((waitsIn_zombie hw j).mp hj.2) (by simp) fun m => ?_
    rw [modify_proc]
    split_ifs with hm
    · simp [hm]
    · simp [hm, waitsIn_zombie hw]
  | waitFail i hc hw => exact .same (by simp) (by simp) (waitsIn_zombie hw)
  | waitSleep i hc hw =>
    obtain ⟨-, hf₀, hc₀, -⟩ := waitsIn_steady hf hc hw
    refine .same (by simp) (by simp) fun j => ?_
    rw [goToSleep_zombie (hf₀.cur_running hc₀), waitsIn_zombie hw]
  | killed i j hc hj =>
    refine .same (by simp) (by simp) (zombie_modify rfl ?_)
    dsimp only
    split_ifs with hs
    · simp [hs]
    · rfl
  | sleep i c hc hu =>
    exact .same (by simp) (by simp) (goToSleep_zombie (hf.cur_running hc))
  | wake i hc hu => exact .same (by simp) (by simp) (zombie_modify (setCont_proc _ _ _) .rfl)
  | yield i hc h =>
    refine .same (by simp) (by simp) fun j => ?_
    rw [sched_state]
    exact zombie_modify rfl (by simp [hf.cur_running hc]) j
  | setPrio | resize => exact .same (by simp) (by simp) (zombie_modify rfl .rfl)

end

theorem lineageInv_userinit : LineageInv userinit := by
  have hnone : ∀ j, (userinit.proc j).parent = none := by
    intro j
    by_cases hj : j = 0
    · rw [hj]
      rfl
    · rw [userinit_proc_of_ne hj]
      rfl
  refine ⟨familyInv_userinit, hnone _, fun j hm hj => ?_, fun j => by simp [hnone]⟩
  rw [userinit_proc_of_ne hj] at hm
  simp [Proc.zero, ProcState.Made] at hm

theorem justified_of_run {tr : List (Event Kernel Step Ret)} {k : Kernel} (h : KernelRun tr k) :
    LineageInv k ∧ ∀ i, Waiting k i → Justified k i := by
  apply h.invariant
  · rintro _ rfl
    exact ⟨lineageInv_userinit, fun i hw => by simp [Waiting, userinit] at hw⟩
  · rintro k a r k' ⟨hi, hj⟩ _ he
    have ht := exec_trans he
    refine ⟨(ht.effect hi.toForkInv).lineageInv hi, fun l hw => ?_⟩
    by_cases hx : a = .exit
    · subst hx
      cases ht with
      | exit i hc hu hinit => exact exitProc_justified hi hj hw
    · rcases ht.waiting hi.toFamilyInv hx hw with h | ⟨rfl, hc⟩
      · exact h.justified (hj l h.waiting)
      · exact wait_justified hi.toForkInv hc he hw

/-- In every reachable state, a process asleep in `wait` has a child, none of its children has
exited and nobody has killed it; and every process that has exited has a parent that is up and
not asleep in `wait`. -/
theorem wait_misses_no_exit {tr : List (Event Kernel Step Ret)} {k : Kernel}
    (h : KernelRun tr k) :
    (∀ i, Waiting k i → (k.proc i).killed = false ∧ (∃ j, (k.proc j).parent = some i) ∧
      ∀ j, (k.proc j).parent = some i → (k.proc j).state ≠ .zombie) ∧
    ∀ j, (k.proc j).state = .zombie →
      ∃ i, (k.proc j).parent = some i ∧ (k.proc i).state.Active ∧ ¬Waiting k i := by
  obtain ⟨hi, hj⟩ := justified_of_run h
  refine ⟨fun i hw => ⟨(hj i hw).not_killed, (hj i hw).child, (hj i hw).no_zombie⟩,
    fun j hz => ?_⟩
  have hinit : j ≠ k.initproc := by
    rintro rfl
    have hact := hi.init_active
    simp [hz, ProcState.Active] at hact
  obtain ⟨i, hp⟩ := Option.ne_none_iff_exists'.mp
    (hi.made_parent j (Or.inr (Or.inr (Or.inr hz))) hinit)
  exact ⟨i, hp, hi.parent_active j i hp, fun hw => (hj i hw).no_zombie j hp hz⟩

/-- `init` forks a child and waits for it. -/
def initWaits : List Step :=
  [.scheduler, .scheduler, .allocproc, .kalloc true, .copyuvm true, .commit, .wait]

theorem wait_misses_no_exit_initWaits : ∃ tr k, KernelRun tr k ∧ Waiting k 0 ∧
    ∀ j, (k.proc j).parent = some 0 → (k.proc j).state ≠ .zombie := by
  have h : ∃ tr k, KernelRun tr k ∧ decide (Waiting k 0) = true :=
    Run.exists_of_replayCheck initWaits rfl (by decide +kernel)
  obtain ⟨tr, k, hrun, hp⟩ := h
  have hw := of_decide_eq_true hp
  exact ⟨tr, k, hrun, hw, ((wait_misses_no_exit hrun).1 0 hw).2.2⟩

/-- The pid of the process that an event ends. -/
def exitedPid (e : Event Kernel Step Ret) : Option ℤ :=
  if e.call = .exit then e.pre.cur.map fun i => (e.pre.proc i).pid else none

/-- The pid that a `wait` returns, which is not its error value. -/
def reportedPid (e : Event Kernel Step Ret) : Option ℤ :=
  match e.call, e.ret with
  | .wait, .int r => if r = -1 then none else some r
  | _, _ => none

/-- The pids of the processes that have exited and were not waited for yet. -/
def zombiePids (k : Kernel) : List ℤ :=
  ((List.finRange nProc).filter fun j => (k.proc j).state = .zombie).map fun j => (k.proc j).pid

section

variable {k k' : Kernel} {i j l m : Fin nProc} {a : Step} {r : Ret}

theorem zombiePids_perm_cons (hi : (k.proc i).state ≠ .zombie)
    (hz : ∀ j, (k'.proc j).state = .zombie ↔ j = i ∨ (k.proc j).state = .zombie)
    (hpid : ∀ j, (k.proc j).state = .zombie → (k'.proc j).pid = (k.proc j).pid) :
    (zombiePids k').Perm ((k'.proc i).pid :: zombiePids k) := by
  have hperm : ((List.finRange nProc).filter fun j => (k'.proc j).state = .zombie).Perm
      (i :: (List.finRange nProc).filter fun j => (k.proc j).state = .zombie) := by
    apply (List.perm_ext_iff_of_nodup _ _).mpr
    · intro j
      simp [hz]
    · exact (List.nodup_finRange nProc).filter _
    · refine List.nodup_cons.mpr ⟨?_, (List.nodup_finRange nProc).filter _⟩
      simp [hi]
  refine (hperm.map _).trans ?_
  rw [List.map_cons]
  refine List.Perm.cons _ (List.Perm.of_eq (List.map_congr_left fun j hj => ?_))
  exact hpid j (by simpa using hj)

theorem Effect.zombie_pid (h : Effect k a r k') (hf : ForkInv k)
    (hz : (k.proc j).state = .zombie) (hz' : (k'.proc j).state = .zombie) :
    (k'.proc j).pid = (k.proc j).pid := by
  cases h with
  | steady h => exact h.pid j
  | allocate i np hc hu hnp =>
    have hj : j ≠ np := by
      rintro rfl
      simp [hnp] at hz
    simp [hj]
  | failFork i np hc hu => by_cases hj : j = np <;> simp [hj]
  | copyuvmOk i np hc hu => exact (copyuvmOk_similar hu).pid j
  | commit i np hc hu => by_cases hj : j = np <;> simp [hj]
  | exit i hc hu => exact (exitProc_similar hf hc).pid j
  | reap i l hc h₀ hf₀ hl =>
    have hj : j ≠ l := by
      rintro rfl
      simp at hz'
    simp [hj, h₀.pid]

/-- A process that is up after a step that is no `exit` either was so before or is new. -/
theorem Effect.up (h : Effect k a r k') (hf : ForkInv k) (hx : a ≠ .exit)
    (hu : (k'.proc j).state ≠ .unused) :
    (k'.proc j).pid = (k.proc j).pid ∧ (k.proc j).state ≠ .unused ∨
      r = .created j ∧ (k'.proc j).pid = k.nextpid := by
  cases h with
  | steady h => exact .inl ⟨h.pid j, mt (h.unused j).mpr hu⟩
  | allocate i np hc hcont hnp =>
    by_cases hj : j = np
    · exact .inr (by simp [hj])
    · exact .inl (by simpa [hj] using hu)
  | failFork i np hc hcont =>
    by_cases hj : j = np
    · simp [hj] at hu
    · exact .inl (by simpa [hj] using hu)
  | copyuvmOk i np hc hcont =>
    have hs := copyuvmOk_similar hcont
    exact .inl ⟨hs.pid j, mt (hs.unused j).mpr hu⟩
  | commit i np hc hcont =>
    have hemb := hf.child_embryo i np (by rw [hcont]; rfl)
    by_cases hj : j = np
    · exact .inl (by simp [hj, hemb])
    · exact .inl (by simpa [hj] using hu)
  | exit => exact absurd rfl hx
  | reap i l hc h₀ hf₀ hl =>
    by_cases hj : j = l
    · simp [hj] at hu
    · refine .inl ⟨by simp [hj, h₀.pid], ?_⟩
      rw [modify_proc, if_neg hj, Ne, h₀.unused] at hu
      exact hu

/-- The books of `exit` and `wait`: every exit is reported or waits to be, no pid exits twice, and
none that has exited is in use. -/
structure Account (tr : List (Event Kernel Step Ret)) (k : Kernel) : Prop where
  perm : (tr.filterMap exitedPid).Perm (tr.filterMap reportedPid ++ zombiePids k)
  nodup : (tr.filterMap exitedPid).Nodup
  old : 1 ≤ k.nextpid → ∀ p ∈ tr.filterMap exitedPid, p < k.nextpid
  gone : ∀ j, (k.proc j).state ≠ .unused → (k.proc j).state ≠ .zombie →
    (k.proc j).pid ∉ tr.filterMap exitedPid

/-- As long as it has not wrapped around, `nextpid` does not fall. -/
theorem Keeps.nextpid_le (hk : Keeps k a r k') (hi : TableInv k)
    (hroom : ∀ np, r = .created np → 1 ≤ k.nextpid) (hn : 1 ≤ k'.nextpid) :
    1 ≤ k.nextpid ∧ k.nextpid ≤ k'.nextpid := by
  have hin := hi.nextpid_inInt
  have hnext := hk.nextpid k.nextpid (wrap32_eq hin).symm
  cases r with
  | created np =>
    have h1 := hroom np rfl
    simp only [Ret.creations, wrap32] at hnext
    unfold InInt intMin intMax at hin
    omega
  | int n =>
    simp only [Ret.creations, Nat.cast_zero, add_zero, wrap32_eq hin] at hnext
    omega
  | none =>
    simp only [Ret.creations, Nat.cast_zero, add_zero, wrap32_eq hin] at hnext
    omega

theorem exitedPid_none {e : Event Kernel Step Ret} (h : e.call ≠ .exit) : exitedPid e = none :=
  if_neg h

theorem Account.same {tr : List (Event Kernel Step Ret)} (h : Account tr k) (hf : ForkInv k)
    (hi : TableInv k) (he : Effect k a r k') (hroom : ∀ np, r = .created np → 1 ≤ k.nextpid)
    (ha : a ≠ .exit) (hr : a = .wait → r = .none ∨ r = .int (-1))
    (hz : ∀ j, (k'.proc j).state = .zombie ↔ (k.proc j).state = .zombie) :
    Account (⟨k, a, r⟩ :: tr) k' := by
  have hex : (⟨k, a, r⟩ :: tr).filterMap exitedPid = tr.filterMap exitedPid :=
    List.filterMap_cons_none (exitedPid_none ha)
  have hrep : (⟨k, a, r⟩ :: tr).filterMap reportedPid = tr.filterMap reportedPid := by
    apply List.filterMap_cons_none
    unfold reportedPid
    split
    · rename_i n hcall hret
      rcases hr hcall with h | h <;> simp_all
    · rfl
  have hpids : zombiePids k' = zombiePids k := by
    unfold zombiePids
    simp only [hz]
    refine List.map_congr_left fun j hj => ?_
    have hzj : (k.proc j).state = .zombie := by simpa using hj
    exact he.zombie_pid hf hzj ((hz j).mpr hzj)
  have hk := he.keeps hf hi hroom
  refine ⟨?_, ?_, fun hn p hp => ?_, fun j hu hnz hp => ?_⟩
  · rw [hex, hrep, hpids]
    exact h.perm
  · rw [hex]
    exact h.nodup
  · rw [hex] at hp
    obtain ⟨h1, hle⟩ := hk.nextpid_le hi hroom hn
    exact (h.old h1 p hp).trans_le hle
  · rw [hex] at hp
    rcases he.up hf ha hu with ⟨hpid, hu₀⟩ | ⟨rfl, hpid⟩
    · rw [hpid] at hp
      exact h.gone j hu₀ (mt (hz j).mpr hnz) hp
    · rw [hpid] at hp
      exact absurd (h.old (hroom j rfl) _ hp) (lt_irrefl _)

theorem Effect.exit_similar (he : Effect k .exit r k') (hf : ForkInv k) : Similar k k' := by
  cases he with
  | steady h => exact h.toSimilar
  | failFork i np hc hu ha => simp [Step.OutOfMemory] at ha
  | exit i hc hu => exact exitProc_similar hf hc

theorem Account.exited {tr : List (Event Kernel Step Ret)} (h : Account tr k) (hf : ForkInv k)
    (hi : TableInv k) (he : Effect k .exit .none k') (hc : k.cur = some i)
    (hz : ∀ j, (k'.proc j).state = .zombie ↔ j = i ∨ (k.proc j).state = .zombie) :
    Account (⟨k, .exit, .none⟩ :: tr) k' := by
  have hsim := he.exit_similar hf
  have hrun := hf.cur_running hc
  have hup : (k.proc i).state ≠ .unused ∧ (k.proc i).state ≠ .zombie := by simp [hrun]
  have hex : (⟨k, .exit, .none⟩ :: tr).filterMap exitedPid =
      (k.proc i).pid :: tr.filterMap exitedPid :=
    List.filterMap_cons_some (by simp [exitedPid, hc])
  have hrep : (⟨k, .exit, .none⟩ :: tr).filterMap reportedPid = tr.filterMap reportedPid :=
    List.filterMap_cons_none rfl
  have hpids := zombiePids_perm_cons hup.2 hz fun j _ => hsim.pid j
  rw [hsim.pid] at hpids
  refine ⟨?_, ?_, fun hn p hp => ?_, fun j hu hnz hp => ?_⟩
  · rw [hex, hrep]
    have hmiddle := (h.perm.cons (k.proc i).pid).trans List.perm_middle.symm
    exact hmiddle.trans (hpids.symm.append_left _)
  · rw [hex]
    exact List.nodup_cons.mpr ⟨h.gone i hup.1 hup.2, h.nodup⟩
  · rw [hsim.nextpid] at hn ⊢
    rw [hex] at hp
    rcases List.mem_cons.mp hp with rfl | hp
    · exact hi.pid_lt hn i
    · exact h.old hn p hp
  · rw [hsim.pid, hex] at hp
    rw [Ne, hz, not_or] at hnz
    have hu₀ := mt (hsim.unused j).mpr hu
    rcases List.mem_cons.mp hp with hpid | hp
    · exact hnz.1 (hi.pid_inj j i hpid (hi.pid_of_live j hu₀))
    · exact h.gone j hu₀ hnz.2 hp

theorem Account.reported {tr : List (Event Kernel Step Ret)} (h : Account tr k) (hf : ForkInv k)
    (hi : TableInv k) (he : Effect k .wait (.int (k.proc i).pid) k')
    (hzi : (k.proc i).state = .zombie) (hui : (k'.proc i).state = .unused)
    (hz : ∀ j, (k'.proc j).state = .zombie ↔ j ≠ i ∧ (k.proc j).state = .zombie) :
    Account (⟨k, .wait, .int (k.proc i).pid⟩ :: tr) k' := by
  have hk := he.keeps hf hi (by simp)
  have hpos := hi.pid_nonneg i
  have hex : (⟨k, .wait, .int (k.proc i).pid⟩ :: tr).filterMap exitedPid =
      tr.filterMap exitedPid := List.filterMap_cons_none rfl
  have hrep : (⟨k, .wait, .int (k.proc i).pid⟩ :: tr).filterMap reportedPid =
      (k.proc i).pid :: tr.filterMap reportedPid := by
    apply List.filterMap_cons_some
    have hne : (k.proc i).pid ≠ -1 := by omega
    simp [reportedPid, hne]
  have hpids : (zombiePids k).Perm ((k.proc i).pid :: zombiePids k') := by
    apply zombiePids_perm_cons
    · simp [hz]
    · intro j
      by_cases hj : j = i <;> simp [hz, hj, hzi]
    · intro j hzj
      exact (he.zombie_pid hf ((hz j).mp hzj).2 hzj).symm
  refine ⟨?_, ?_, fun hn p hp => ?_, fun j hu hnz hp => ?_⟩
  · rw [hex, hrep]
    exact (h.perm.trans (hpids.append_left _)).trans List.perm_middle
  · rw [hex]
    exact h.nodup
  · rw [hex] at hp
    obtain ⟨h1, hle⟩ := hk.nextpid_le hi (by simp) hn
    exact (h.old h1 p hp).trans_le hle
  · rw [hex] at hp
    rcases he.up hf (by simp) hu with ⟨hpid, hu₀⟩ | ⟨hr, -⟩
    · rw [hpid] at hp
      refine h.gone j hu₀ (fun hzj => hnz ((hz j).mpr ⟨?_, hzj⟩)) hp
      rintro rfl
      exact hu hui
    · simp at hr

end

theorem account_of_run {tr : List (Event Kernel Step Ret)} {k : Kernel}
    (h : Run exec Room (· = userinit) tr k) : (ForkInv k ∧ TableInv k) ∧ Account tr k := by
  apply h.invariant_history (fun tr k => (ForkInv k ∧ TableInv k) ∧ Account tr k)
  · rintro _ rfl
    refine ⟨⟨forkInv_userinit, tableInv_userinit⟩, ⟨?_, .nil, by simp, by simp⟩⟩
    have hnone : zombiePids userinit = [] := by decide
    rw [hnone]
    exact .nil
  · rintro tr k a r k' ⟨⟨hf, hi⟩, hacc⟩ ha he
    have htrans := exec_trans he
    have heff := htrans.effect hf
    obtain ⟨hf', hk⟩ := keeps_of_room hf hi ha he
    refine ⟨⟨hf', hk.inv⟩, ?_⟩
    cases htrans.turnover hf with
    | same hx hr hz => exact hacc.same hf hi heff (fun np hnp => ha np k' (hnp ▸ he)) hx hr hz
    | exited i hc hz => exact hacc.exited hf hi heff hc hz
    | reported i hzi hui hz => exact hacc.reported hf hi heff hzi hui hz

/-- In every run in which no pid wraps around, the processes that have exited are those that some
`wait` has reported and those that are zombies, each of them once. -/
theorem exits_are_reported_once {tr : List (Event Kernel Step Ret)} {k : Kernel}
    (h : KernelRun tr k) (hc : creations tr < 2 ^ 31 - 1) :
    (tr.filterMap exitedPid).Perm (tr.filterMap reportedPid ++ zombiePids k) ∧
      (tr.filterMap exitedPid).Nodup := by
  obtain ⟨-, hacc⟩ := account_of_run (run_room h hc).1
  exact ⟨hacc.perm, hacc.nodup⟩

theorem exits_are_reported_once_childReported : ∃ tr k, KernelRun tr k ∧
    tr.filterMap exitedPid = [2] ∧ (tr.filterMap reportedPid ++ zombiePids k).Perm [2] := by
  have h : ∃ tr k, KernelRun tr k ∧ decide (creations tr < 2 ^ 31 - 1 ∧
      tr.filterMap exitedPid = [2]) = true :=
    Run.exists_of_replayCheck childReported rfl (by decide +kernel)
  obtain ⟨tr, k, hrun, hp⟩ := h
  obtain ⟨hc, hex⟩ := of_decide_eq_true hp
  have hperm := (exits_are_reported_once hrun hc).1
  rw [hex] at hperm
  exact ⟨tr, k, hrun, hex, hperm.symm⟩

end SsuOs.Xv6
