import SsuOs.Lib.Places
import SsuOs.Threads.Sem

/-! `SSU_Sem` as a counting semaphore: how many calls of `SSU_Sem_down` may pass. -/
namespace SsuOs.Sem
open SsuOs.Lib

variable {T : Type} {v : ℤ} {tr : List (Event (State T) (T × Op) Unit)} {s s' : State T} {t : T}

/-- The calls of `SSU_Sem_down` that have returned. -/
def passed (tr : List (Event (State T) (T × Op) Unit)) : ℕ :=
  tr.countP fun e => (e.pre.pc e.call.1).endsDown

def ups (tr : List (Event (State T) (T × Op) Unit)) : ℕ :=
  tr.countP fun e => e.call.2 = .up

/-- The history of a counting semaphore of initial value `v`. -/
def Counts (v : ℤ) (tr : List (Event (State T) (T × Op) Unit)) (s : State T) : Prop :=
  passed tr ≤ v + ups tr ∧ ((∀ t, s.pc t = .ret) → s.sem.key = v + ups tr - passed tr)

/-- While a thread stores `key`, no other one is between its load of `key` and its store. While it
stores a decrement, no other one is between its test of `key` and its store either. An increment
finds a value that can be increased. -/
def Undisturbed (c : T × Op) (s : State T) : Prop :=
  (s.pc c.1).loaded ≠ none →
    (∀ u ≠ c.1, (s.pc u).loaded = none ∧
      ((s.pc c.1).phase = .sees → (s.pc u).phase ≠ .sees)) ∧
    ((s.pc c.1).phase = .adds → s.sem.key < intMax)

instance [Fintype T] [DecidableEq T] (c : T × Op) (s : State T) : Decidable (Undisturbed c s) :=
  inferInstanceAs (Decidable (_ → _ ∧ _))

/-- What the threads have found in `key` still holds. -/
structure Current (s : State T) : Prop where
  seen : ∀ t, (s.pc t).phase = .sees → 0 < s.sem.key
  loaded : ∀ t r, (s.pc t).loaded = some r → r = s.sem.key

/-- `key` accounts for all calls: those that have passed but not returned, and those that add but
have not stored, are counted by their threads. -/
structure Balance (v : ℤ) (tr : List (Event (State T) (T × Op) Unit)) (s : State T) : Prop where
  nonneg : 0 ≤ s.sem.key
  le : s.sem.key ≤ intMax
  finite : ∀ p, p ≠ .outside → (threadsAt (·.phase = p) s.pc).Finite
  key : s.sem.key + passed tr + (threadsAt (·.phase = .passed) s.pc).ncard +
    (threadsAt (·.phase = .adds) s.pc).ncard = v + ups tr

variable [DecidableEq T]

theorem endsDown_eq_false {pc : Pc} (h : pc.phase ≠ .passed) : pc.endsDown = false := by
  by_contra he
  exact h (phase_of_endsDown (Bool.eq_true_of_not_eq_false he))

omit [DecidableEq T] in
theorem balance_initial (hv : 0 ≤ v) (hmax : v ≤ intMax) (h : Initial v s) : Balance v [] s := by
  obtain ⟨hsem, -, hpc⟩ := h
  have hnone : ∀ p, p ≠ .outside → threadsAt (·.phase = p) s.pc = ∅ := by
    intro p hp
    ext t
    simp [hpc t, Pc.phase, hp.symm]
  refine ⟨by rw [hsem]; exact hv, by rw [hsem]; exact hmax, fun p hp => ?_, ?_⟩
  · rw [hnone p hp]
    exact Set.finite_empty
  · rw [hnone _ (by decide), hnone _ (by decide), hsem]
    simp [ssuSemInit, passed, ups]

omit [DecidableEq T] in
theorem current_initial (h : Initial v s) : Current s := by
  obtain ⟨-, -, hpc⟩ := h
  exact ⟨fun t ht => by simp [hpc t] at ht, fun t r hr => by simp [hpc t, Pc.loaded] at hr⟩

/-- What a step has to keep for its own thread and for the others. -/
theorem Current.update {pc' : Pc} (hpc : s'.pc = Function.update s.pc t pc')
    (hseen : pc'.phase = .sees → 0 < s'.sem.key)
    (hloaded : ∀ r, pc'.loaded = some r → r = s'.sem.key)
    (hseen' : ∀ u ≠ t, (s.pc u).phase = .sees → 0 < s'.sem.key)
    (hloaded' : ∀ u ≠ t, ∀ r, (s.pc u).loaded = some r → r = s'.sem.key) : Current s' := by
  constructor
  · intro u hu
    by_cases hut : u = t
    · subst hut
      rw [hpc, Function.update_self] at hu
      exact hseen hu
    · rw [hpc, Function.update_of_ne hut] at hu
      exact hseen' u hut hu
  · intro u r hr
    by_cases hut : u = t
    · subst hut
      rw [hpc, Function.update_self] at hr
      exact hloaded r hr
    · rw [hpc, Function.update_of_ne hut] at hr
      exact hloaded' u hut r hr

theorem Current.same (h : Current s) {pc' : Pc} (hpc : s'.pc = Function.update s.pc t pc')
    (hk : s'.sem.key = s.sem.key) (hseen : pc'.phase = .sees → 0 < s.sem.key)
    (hloaded : ∀ r, pc'.loaded = some r → r = s.sem.key) : Current s' := by
  apply Current.update hpc
  · rwa [hk]
  · rwa [hk]
  · intro u _ hu
    rw [hk]
    exact h.seen u hu
  · intro u _ r hr
    rw [hk]
    exact h.loaded u r hr

theorem Current.act (h : Current s) {c : T × Op} {pc' : Pc}
    (hpc : s'.pc = Function.update s.pc c.1 pc') (hgood : Undisturbed c s)
    (hstep : KeyStep s.sem.key (s.pc c.1) pc' s'.sem.key) : Current s' := by
  cases hstep with
  | stay hk hp he hl => exact h.same hpc hk (fun hs => h.seen c.1 (hp ▸ hs)) hl
  | see hk hp hp' hpos hl => exact h.same hpc hk (fun _ => hpos) (by simp [hl])
  | retry hk hp hp' hl => exact h.same hpc hk (by simp [hp']) (by simp [hl])
  | leave hk he hp' => exact h.same hpc hk (by simp [hp']) (by simp [hp', Pc.loaded])
  | pass hp hr hp' hl hk =>
    obtain ⟨hothers, -⟩ := hgood (by simp [hr])
    apply Current.update hpc
    · simp [hp']
    · simp [hl]
    · intro u hu hs
      exact absurd hs ((hothers u hu).2 hp)
    · intro u hu r hr'
      simp [(hothers u hu).1] at hr'
  | @add r hp hr hp' hk =>
    obtain ⟨hothers, hlt⟩ := hgood (by simp [hr])
    have hloaded := h.loaded c.1 r hr
    have hlt := hlt hp
    apply Current.update hpc
    · simp [hp']
    · simp [hp', Pc.loaded]
    · intro u _ hu
      have hpos := h.seen u hu
      rw [wrap32_eq ⟨by unfold intMin; omega, by omega⟩] at hk
      omega
    · intro u hu r' hr'
      simp [(hothers u hu).1] at hr'

theorem Current.exec (h : Current s) {c : T × Op} {u : Unit} (hgood : Undisturbed c s)
    (he : exec c s = .ok (u, s')) : Current s' := by
  obtain ⟨t, op⟩ := c
  cases exec_trans he with
  | down hret | up hret => exact h.same rfl rfl (by simp [Pc.phase]) (by simp [Pc.loaded])
  | act hadv => exact h.act rfl hgood (advance_keyStep hadv)

/-- What a step has to add up to when it moves its thread between the phases. -/
theorem Balance.step (h : Balance v tr s) {c : T × Op}
    (hpc : s'.pc = Function.update s.pc c.1 (s'.pc c.1)) (h₀ : 0 ≤ s'.sem.key)
    (hle : s'.sem.key ≤ intMax)
    (hkey : s'.sem.key + (if (s.pc c.1).endsDown = true then 1 else 0) +
        (if (s'.pc c.1).phase = .passed then 1 else 0) +
        (if (s'.pc c.1).phase = .adds then 1 else 0) =
      s.sem.key + (if (s.pc c.1).phase = .passed then 1 else 0) +
        (if (s.pc c.1).phase = .adds then 1 else 0) + (if c.2 = .up then 1 else 0)) :
    Balance v (⟨s, c, ()⟩ :: tr) s' := by
  refine ⟨h₀, hle, fun p hp => ?_, ?_⟩
  · rw [hpc]
    exact finite_threadsAt_update (h.finite p hp)
  · have hpassed := ncard_threadsAt_update (t := c.1) (p := s'.pc c.1)
      (h.finite .passed (by decide))
    have hadds := ncard_threadsAt_update (t := c.1) (p := s'.pc c.1) (h.finite .adds (by decide))
    rw [← hpc] at hpassed hadds
    have hbal := h.key
    simp only [passed, ups, List.countP_cons, decide_eq_true_eq] at hbal ⊢
    push_cast
    zify at hpassed hadds
    linarith

theorem Balance.act (h : Balance v tr s) (hcur : Current s) {c : T × Op} (hc : c.2 ≠ .up)
    (hpc : s'.pc = Function.update s.pc c.1 (s'.pc c.1)) (hgood : Undisturbed c s)
    (hstep : KeyStep s.sem.key (s.pc c.1) (s'.pc c.1) s'.sem.key) :
    Balance v (⟨s, c, ()⟩ :: tr) s' := by
  have h₀ := h.nonneg
  have hle := h.le
  cases hstep with
  | stay hk hp he =>
    apply h.step hpc (by omega) (by omega)
    simp [hk, hp, he, hc]
  | see hk hp hp' =>
    apply h.step hpc (by omega) (by omega)
    simp [hk, hp, hp', hc, endsDown_eq_false]
  | retry hk hp hp' =>
    apply h.step hpc (by omega) (by omega)
    simp [hk, hp, hp', hc, endsDown_eq_false]
  | pass hp hr hp' _ hk =>
    have hpos := hcur.seen c.1 hp
    rw [hcur.loaded c.1 _ hr, wrap32_eq ⟨by unfold intMin; omega, by omega⟩] at hk
    apply h.step hpc (by omega) (by omega)
    simp [hk, hp, hp', hc, endsDown_eq_false]
  | leave hk he hp' =>
    apply h.step hpc (by omega) (by omega)
    simp [hk, he, hp', hc, phase_of_endsDown he]
  | add hp hr hp' hk =>
    have hlt := (hgood (by simp [hr])).2 hp
    rw [hcur.loaded c.1 _ hr, wrap32_eq ⟨by unfold intMin; omega, by omega⟩] at hk
    apply h.step hpc (by omega) (by omega)
    simp [hk, hp, hp', hc, endsDown_eq_false]

theorem Balance.call (h : Balance v tr s) {op : Op} (hret : s.pc t = .ret) {pc' : Pc}
    (hp : pc'.phase ≠ .passed) (hup : pc'.phase = .adds ↔ op = .up) :
    Balance v (⟨s, (t, op), ()⟩ :: tr) (s.goto t pc') := by
  have hpc : (s.goto t pc').pc t = pc' := Function.update_self _ _ _
  refine h.step ?_ h.nonneg h.le ?_
  · rw [hpc]
    rfl
  · simp only [hpc, hret]
    simp [hp, hup, State.goto, Pc.endsDown]

theorem Balance.exec (h : Balance v tr s) (hcur : Current s) {c : T × Op} {u : Unit}
    (hgood : Undisturbed c s)
    (he : exec c s = .ok (u, s')) : Balance v (⟨s, c, u⟩ :: tr) s' := by
  obtain ⟨t, op⟩ := c
  cases exec_trans he with
  | down hret | up hret => exact h.call hret (by decide) (by decide)
  | @act a pc sem heap hadv =>
    have hpc : Function.update s.pc t pc t = pc := Function.update_self _ _ _
    apply h.act hcur (by simp) _ hgood
    · dsimp only
      rw [hpc]
      exact advance_keyStep hadv
    · dsimp only
      rw [hpc]

theorem balance_of_run (hv : 0 ≤ v) (hmax : v ≤ intMax) (hr : Interleaving v tr s)
    (hgood : ∀ e ∈ tr, Undisturbed e.call e.pre) : Balance v tr s := by
  have h : Current s ∧ Balance v tr s := by
    apply (hr.of_good hgood).invariant_history fun tr s => Current s ∧ Balance v tr s
    · exact fun s hs => ⟨current_initial hs, balance_initial hv hmax hs⟩
    · exact fun tr s c u s' h hc he => ⟨h.1.exec hc he, h.2.exec h.1 hc he⟩
  exact h.2

/-- As long as no store comes between the test of another thread and its store, no more calls of
`SSU_Sem_down` pass than the initial value and the calls of `SSU_Sem_up` allow, and `key` is the
difference whenever no call is in progress. -/
theorem counts_of_undisturbed (hv : 0 ≤ v) (hmax : v ≤ intMax) (hr : Interleaving v tr s)
    (hgood : ∀ e ∈ tr, Undisturbed e.call e.pre) : Counts v tr s := by
  have h := balance_of_run hv hmax hr hgood
  have h₀ := h.nonneg
  have hkey := h.key
  refine ⟨by omega, fun hidle => ?_⟩
  have hnone : ∀ p, p ≠ .outside → (threadsAt (·.phase = p) s.pc).ncard = 0 := by
    intro p hp
    have hempty : threadsAt (·.phase = p) s.pc = ∅ := by
      ext t
      simp [hidle t, hp.symm]
    rw [hempty, Set.ncard_empty]
  rw [hnone _ (by decide), hnone _ (by decide)] at hkey
  omega

/-- The thread `0` waits until the thread `1` calls `SSU_Sem_up`. -/
theorem counts_waiter : ∃ (tr : List (Event (State (Fin 2)) (Fin 2 × Op) Unit))
    (s : State (Fin 2)), Interleaving 0 tr s ∧ passed tr = 1 ∧ ups tr = 1 ∧ s.sem.key = 0 := by
  have h : ∃ (tr : List (Event (State (Fin 2)) (Fin 2 × Op) Unit)) (s : State (Fin 2)),
      Interleaving 0 tr s ∧ decide ((∀ e ∈ tr, Undisturbed e.call e.pre) ∧ passed tr = 1 ∧
        ups tr = 1 ∧ ∀ t, s.pc t = .ret) = true :=
    Run.exists_of_replayCheck (s := start 0 0) (List.flatten [[(0, .down)], runs 0 3,
      [(0, .act (.malloc 1))], runs 0 5, [(1, .up)], runs 1 2, runs 0 13]) (initial_start 0 0)
      (by decide +kernel)
  obtain ⟨tr, s, hr, hp⟩ := h
  obtain ⟨hgood, hpassed, hups, hidle⟩ := of_decide_eq_true hp
  have hkey := (counts_of_undisturbed le_rfl (by decide) hr hgood).2 hidle
  rw [hpassed, hups] at hkey
  exact ⟨tr, s, hr, hpassed, hups, hkey⟩

/-- The thread `0` waits, `2` calls `SSU_Sem_up`, and before `0` stores the decrement, `1` passes
on the fast path with the same key. -/
theorem two_pass_on_one_up : ∃ (tr : List (Event (State (Fin 3)) (Fin 3 × Op) Unit))
    (s : State (Fin 3)), Interleaving 0 tr s ∧ passed tr = 2 ∧ ups tr = 1 ∧ ¬Counts 0 tr s := by
  have h : ∃ (tr : List (Event (State (Fin 3)) (Fin 3 × Op) Unit)) (s : State (Fin 3)),
      Interleaving 0 tr s ∧ decide (passed tr = 2 ∧ ups tr = 1) = true :=
    Run.exists_of_replayCheck (s := start 0 0) (List.flatten [[(0, .down)], runs 0 3,
      [(0, .act (.malloc 1))], runs 0 5, [(2, .up)], runs 2 2, runs 0 6, [(1, .down)], runs 1 5,
      runs 0 7]) (initial_start 0 0) (by decide +kernel)
  obtain ⟨tr, s, hr, hp⟩ := h
  obtain ⟨hpassed, hups⟩ := of_decide_eq_true hp
  refine ⟨tr, s, hr, hpassed, hups, fun hcounts => ?_⟩
  have hle := hcounts.1
  rw [hpassed, hups] at hle
  omega

end SsuOs.Sem
