import SsuOs.Lib.Except
import SsuOs.Lib.Places
import SsuOs.Lib.Run

/-! The reader-writer lock of `rw_lock-w-test.c`, which prefers writers. Threads interleave at
every access to `w_request` and at every pthread call. -/
namespace SsuOs.RwLock
open SsuOs.Lib

/-- The two updates `w_request++` and `w_request--`. -/
inductive Update
  | inc
  | dec
  deriving DecidableEq

def Update.apply : Update → ℤ → ℤ
  | .inc, v => v + 1
  | .dec, v => v - 1

/-- Where a thread is. The spinlock sections of `w_lock` differ in the update only. -/
inductive Pc
  | idle
  | rTest
  | rAcquire
  | reading
  | wSpin (u : Update)
  | wLoad (u : Update)
  | wStore (u : Update) (v : ℤ)
  | wUnspin (u : Update)
  | wAcquire
  | writing
  deriving DecidableEq

/-- The atomic operations; `rLock` and `wLock` are the calls of `r_lock` and `w_lock`. -/
inductive Op
  | rLock
  | test
  | rdlock
  | rUnlock
  | wLock
  | spinLock
  | load
  | store (u : Update)
  | spinUnlock
  | wrlock
  | wUnlock
  deriving DecidableEq

/-- `struct rw_lock` and the threads. `busy` is the holder of the spinlock, `readers` and
`writer` are those of the `pthread_rwlock_t`. `w_request` counts threads, so it stays an `int`. -/
structure State (T : Type) where
  wRequest : ℤ
  busy : Option T
  readers : List T
  writer : Option T
  pc : T → Pc

inductive Fault
  | disabled
  | blocked

variable {T : Type}

def initRwlock : State T := ⟨0, none, [], none, fun _ => .idle⟩

variable [DecidableEq T]

def State.goto (s : State T) (t : T) (p : Pc) : State T :=
  { s with pc := Function.update s.pc t p }

/-- One atomic operation of the thread `t`. -/
def step (t : T) (op : Op) (s : State T) : Except Fault (State T) :=
  match op, s.pc t with
  | .rLock, .idle => .ok (s.goto t .rTest)
  | .test, .rTest => .ok (s.goto t (if s.wRequest = 0 then .rAcquire else .rTest))
  | .rdlock, .rAcquire =>
    if s.writer = none then .ok ({ s with readers := t :: s.readers }.goto t .reading)
    else .error .blocked
  | .rUnlock, .reading => .ok ({ s with readers := s.readers.erase t }.goto t .idle)
  | .wLock, .idle => .ok (s.goto t (.wSpin .inc))
  | .spinLock, .wSpin u =>
    if s.busy = none then .ok ({ s with busy := some t }.goto t (.wLoad u))
    else .error .blocked
  | .load, .wLoad u => .ok (s.goto t (.wStore u s.wRequest))
  | .store u', .wStore u v =>
    if u' = u then .ok ({ s with wRequest := u.apply v }.goto t (.wUnspin u))
    else .error .disabled
  | .spinUnlock, .wUnspin .inc => .ok ({ s with busy := none }.goto t .wAcquire)
  | .spinUnlock, .wUnspin .dec => .ok ({ s with busy := none }.goto t .writing)
  | .wrlock, .wAcquire =>
    if s.writer = none ∧ s.readers = [] then
      .ok ({ s with writer := some t }.goto t (.wSpin .dec))
    else .error .blocked
  | .wUnlock, .writing => .ok ({ s with writer := none }.goto t .idle)
  | _, _ => .error .disabled

def exec (c : T × Op) (s : State T) : Except Fault (Unit × State T) :=
  (step c.1 c.2 s).map ((), ·)

/-- Every interleaving of any number of threads, each of which reads and writes as it likes. -/
abbrev Interleaving : List (Event (State T) (T × Op) Unit) → State T → Prop :=
  Run exec (fun _ _ => True) (· = initRwlock)

inductive Trans (t : T) (s : State T) : Op → State T → Prop
  | rLock (h : s.pc t = .idle) : Trans t s .rLock (s.goto t .rTest)
  | testZero (h : s.pc t = .rTest) (h₀ : s.wRequest = 0) : Trans t s .test (s.goto t .rAcquire)
  | testBusy (h : s.pc t = .rTest) : Trans t s .test (s.goto t .rTest)
  | rdlock (h : s.pc t = .rAcquire) (hw : s.writer = none) :
      Trans t s .rdlock ({ s with readers := t :: s.readers }.goto t .reading)
  | rUnlock (h : s.pc t = .reading) :
      Trans t s .rUnlock ({ s with readers := s.readers.erase t }.goto t .idle)
  | wLock (h : s.pc t = .idle) : Trans t s .wLock (s.goto t (.wSpin .inc))
  | spinLock {u : Update} (h : s.pc t = .wSpin u) (hb : s.busy = none) :
      Trans t s .spinLock ({ s with busy := some t }.goto t (.wLoad u))
  | load {u : Update} (h : s.pc t = .wLoad u) :
      Trans t s .load (s.goto t (.wStore u s.wRequest))
  | store {u : Update} {v : ℤ} (h : s.pc t = .wStore u v) :
      Trans t s (.store u) ({ s with wRequest := u.apply v }.goto t (.wUnspin u))
  | spinUnlockInc (h : s.pc t = .wUnspin .inc) :
      Trans t s .spinUnlock ({ s with busy := none }.goto t .wAcquire)
  | spinUnlockDec (h : s.pc t = .wUnspin .dec) :
      Trans t s .spinUnlock ({ s with busy := none }.goto t .writing)
  | wrlock (h : s.pc t = .wAcquire) (hw : s.writer = none) (hr : s.readers = []) :
      Trans t s .wrlock ({ s with writer := some t }.goto t (.wSpin .dec))
  | wUnlock (h : s.pc t = .writing) : Trans t s .wUnlock ({ s with writer := none }.goto t .idle)

theorem step_trans {t : T} {op : Op} {s s' : State T} (hstep : step t op s = .ok s') :
    Trans t s op s' := by
  unfold step at hstep
  split at hstep
  case h_1 h => exact Except.ok.inj hstep ▸ .rLock h
  case h_2 h =>
    obtain rfl := Except.ok.inj hstep
    split_ifs with h₀
    · exact .testZero h h₀
    · exact .testBusy h
  case h_3 h =>
    split_ifs at hstep with hw
    exact Except.ok.inj hstep ▸ .rdlock h hw
  case h_4 h => exact Except.ok.inj hstep ▸ .rUnlock h
  case h_5 h => exact Except.ok.inj hstep ▸ .wLock h
  case h_6 u h =>
    split_ifs at hstep with hb
    exact Except.ok.inj hstep ▸ .spinLock h hb
  case h_7 u h => exact Except.ok.inj hstep ▸ .load h
  case h_8 u' u v h =>
    split_ifs at hstep with hu
    subst hu
    exact Except.ok.inj hstep ▸ .store h
  case h_9 h => exact Except.ok.inj hstep ▸ .spinUnlockInc h
  case h_10 h => exact Except.ok.inj hstep ▸ .spinUnlockDec h
  case h_11 h =>
    split_ifs at hstep with hw
    exact Except.ok.inj hstep ▸ .wrlock h hw.1 hw.2
  case h_12 h => exact Except.ok.inj hstep ▸ .wUnlock h
  case h_13 => cases hstep

theorem exec_trans {c : T × Op} {s s' : State T} {u : Unit} (h : exec c s = .ok (u, s')) :
    Trans c.1 s c.2 s' := by
  obtain ⟨s₁, hstep, heq⟩ := map_eq_ok.mp h
  obtain ⟨-, rfl⟩ := Prod.mk.inj heq
  exact step_trans hstep

/-- Between `pthread_spin_lock` and `pthread_spin_unlock`. -/
def Pc.HoldsSpin : Pc → Prop
  | .wLoad _ | .wStore _ _ | .wUnspin _ => True
  | _ => False

/-- Between `pthread_rwlock_wrlock` and `pthread_rwlock_unlock` of a writer. -/
def Pc.HoldsLock : Pc → Prop
  | .wSpin .dec | .wLoad .dec | .wStore .dec _ | .wUnspin .dec | .writing => True
  | _ => False

/-- After `w_request++` and before `w_request--`. -/
def Pc.Requesting : Pc → Prop
  | .wUnspin .inc | .wAcquire | .wSpin .dec | .wLoad .dec | .wStore .dec _ => True
  | _ => False

/-- Where a thread neither holds a lock, readers apart, nor requests to write. -/
def Pc.Passive : Pc → Prop
  | .idle | .rTest | .rAcquire | .reading | .wSpin .inc => True
  | _ => False

/-- What every interleaving keeps: who holds the two locks, and that `w_request` is the number of
writers that have executed `w_request++` but not yet `w_request--`. -/
structure Inv (s : State T) : Prop where
  spin : HeldAt Pc.HoldsSpin s.pc s.busy
  lock : HeldAt Pc.HoldsLock s.pc s.writer
  loaded : ∀ t u v, s.pc t = .wStore u v → v = s.wRequest
  finite : (threadsAt Pc.Requesting s.pc).Finite
  counted : s.wRequest = (threadsAt Pc.Requesting s.pc).ncard

omit [DecidableEq T] in
theorem inv_initRwlock : Inv (initRwlock : State T) := by
  have hnone : threadsAt Pc.Requesting (initRwlock : State T).pc = ∅ := by
    ext t
    simp [initRwlock, Pc.Requesting]
  refine ⟨fun t => ?_, fun t => ?_, fun t u v h => ?_, ?_, ?_⟩
  · simp [initRwlock, Pc.HoldsSpin]
  · simp [initRwlock, Pc.HoldsLock]
  · cases h
  · rw [hnone]
    exact Set.finite_empty
  · rw [hnone, Set.ncard_empty]
    rfl

section Steps

variable {s : State T} {t : T}

theorem Inv.move (h : Inv s) {p : Pc} {b w : Option T} {l : List T}
    (hspin : HeldAt Pc.HoldsSpin (Function.update s.pc t p) b)
    (hlock : HeldAt Pc.HoldsLock (Function.update s.pc t p) w)
    (hreq : p.Requesting ↔ (s.pc t).Requesting)
    (hload : ∀ u v, p = .wStore u v → v = s.wRequest) :
    Inv ({ s with busy := b, readers := l, writer := w }.goto t p) := by
  refine ⟨hspin, hlock, ?_, finite_threadsAt_update h.finite, ?_⟩
  · exact (Function.forall_update_iff s.pc fun _ q => ∀ u v, q = .wStore u v → v = s.wRequest).mpr
      ⟨hload, fun t' _ => h.loaded t'⟩
  · change s.wRequest = (threadsAt Pc.Requesting (Function.update s.pc t p)).ncard
    rw [ncard_threadsAt_move hreq]
    exact h.counted

/-- `w_request` is updated under the spinlock, so the value loaded is still there. -/
theorem Inv.store (h : Inv s) {u : Update} {v : ℤ} (ht : s.pc t = .wStore u v) :
    Inv ({ s with wRequest := u.apply v }.goto t (.wUnspin u)) := by
  obtain rfl := h.loaded t u v ht
  refine ⟨h.spin.move (by simp [ht, Pc.HoldsSpin]), h.lock.move ?_, fun t' u' v' hv => ?_,
    finite_threadsAt_update h.finite, ?_⟩
  · cases u <;> simp [ht, Pc.HoldsLock]
  · change Function.update s.pc t (.wUnspin u) t' = _ at hv
    rw [Function.update_apply] at hv
    split_ifs at hv with hne
    have hspin' : (s.pc t').HoldsSpin := by simp [hv, Pc.HoldsSpin]
    have hspin : (s.pc t).HoldsSpin := by simp [ht, Pc.HoldsSpin]
    exact absurd (h.spin.unique hspin' hspin) hne
  · change u.apply s.wRequest =
      (threadsAt Pc.Requesting (Function.update s.pc t (.wUnspin u))).ncard
    rw [h.counted]
    cases u with
    | inc =>
      have hout : ¬(s.pc t).Requesting := by simp [ht, Pc.Requesting]
      rw [ncard_threadsAt_enter (p := Pc.wUnspin .inc) h.finite hout trivial]
      rfl
    | dec =>
      have hin : (s.pc t).Requesting := by simp [ht, Pc.Requesting]
      rw [← ncard_threadsAt_leave (p := Pc.wUnspin .dec) h.finite hin id, Nat.cast_succ]
      exact add_sub_cancel_right _ _

theorem Inv.passive (h : Inv s) {p : Pc} {l : List T} (hq : (s.pc t).Passive) (hp : p.Passive) :
    Inv ({ s with readers := l }.goto t p) := by
  have hout : ∀ {q : Pc}, q.Passive → ¬q.HoldsSpin ∧ ¬q.HoldsLock ∧ ¬q.Requesting ∧
      ∀ u v, q ≠ .wStore u v := by
    intro q hq
    unfold Pc.Passive at hq
    split at hq
    all_goals simp_all [Pc.HoldsSpin, Pc.HoldsLock, Pc.Requesting]
  obtain ⟨hs, hl, hr, hst⟩ := hout hp
  obtain ⟨hs', hl', hr', -⟩ := hout hq
  exact h.move (h.spin.move (iff_of_false hs hs')) (h.lock.move (iff_of_false hl hl'))
    (iff_of_false hr hr') fun u v hv => absurd hv (hst u v)

theorem Trans.inv {op : Op} {s' : State T} (h : Inv s) (htr : Trans t s op s') : Inv s' := by
  cases htr with
  | rLock ht | testZero ht _ | testBusy ht | rdlock ht _ | rUnlock ht | wLock ht =>
    exact h.passive (by simp [ht, Pc.Passive]) trivial
  | @spinLock u ht hb =>
    refine h.move (p := .wLoad u) (HeldAt.acquire (hb ▸ h.spin) trivial) (h.lock.move ?_) ?_
      (by simp)
    · cases u <;> simp [ht, Pc.HoldsLock]
    · cases u <;> simp [ht, Pc.Requesting]
  | @load u ht =>
    apply h.move (h.spin.move (by simp [ht, Pc.HoldsSpin])) (h.lock.move _)
    · cases u <;> simp [ht, Pc.Requesting]
    · intro u' v' hv
      exact (Pc.wStore.inj hv).2.symm
    · cases u <;> simp [ht, Pc.HoldsLock]
  | store ht => exact h.store ht
  | spinUnlockInc ht | spinUnlockDec ht =>
    exact h.move (h.spin.release (by simp [ht, Pc.HoldsSpin]) (by simp [Pc.HoldsSpin]))
      (h.lock.move (by simp [ht, Pc.HoldsLock])) (by simp [ht, Pc.Requesting]) (by simp)
  | wrlock ht hw hr =>
    exact h.move (h.spin.move (by simp [ht, Pc.HoldsSpin]))
      (HeldAt.acquire (hw ▸ h.lock) trivial) (by simp [ht, Pc.Requesting]) (by simp)
  | wUnlock ht =>
    exact h.move (h.spin.move (by simp [ht, Pc.HoldsSpin]))
      (h.lock.release (by simp [ht, Pc.HoldsLock]) (by simp [Pc.HoldsLock]))
      (by simp [ht, Pc.Requesting]) (by simp)

end Steps

theorem interleaving_inv {tr : List (Event (State T) (T × Op) Unit)} {s : State T}
    (h : Interleaving tr s) : Inv s := by
  apply h.invariant
  · rintro _ rfl
    exact inv_initRwlock
  · intro s c u s' hs _ he
    exact (exec_trans he).inv hs

/-- From `w_request++` to `w_unlock`. -/
def Pc.Claims (p : Pc) : Prop := p.Requesting ∨ p.HoldsLock

section Preference

variable {s s' : State T} {t W R : T} {op : Op}

theorem Trans.pc_of_ne (h : Trans t s op s') {t' : T} (hne : t' ≠ t) : s'.pc t' = s.pc t' := by
  cases h <;> exact Function.update_of_ne hne _ _

/-- A writer keeps its claim until `w_unlock`, and withdraws its request once. -/
theorem Trans.claims (h : Trans t s op s') (hW : (s.pc W).Claims)
    (hno : (t, op) ≠ (W, .wUnlock)) :
    (s'.pc W).Claims ∧ (¬(s.pc W).Requesting → ¬(s'.pc W).Requesting) := by
  by_cases ht : W = t
  · subst ht
    unfold Pc.Claims at hW ⊢
    cases h with
    | wUnlock => exact absurd rfl hno
    | @spinLock u ht _ | @load u ht | @store u _ ht =>
      cases u <;> simp_all [State.goto, Pc.Requesting, Pc.HoldsLock]
    | _ => simp_all [State.goto, Pc.Requesting, Pc.HoldsLock]
  · rw [h.pc_of_ne ht]
    exact ⟨hW, id⟩

/-- While `W` claims the lock, the reader `R` has not seen `w_request = 0` before `W` withdrew
its request. -/
def Waits (W R : T) (s : State T) : Prop :=
  (s.pc W).Claims ∧ (s.pc R = .rTest ∨ s.pc R = .rAcquire ∧ ¬(s.pc W).Requesting)

omit [DecidableEq T] in
theorem Inv.not_requesting (h : Inv s) (h₀ : s.wRequest = 0) (t : T) : ¬(s.pc t).Requesting := by
  intro ht
  have hcard : (threadsAt Pc.Requesting s.pc).ncard = 0 := by
    have := h.counted
    omega
  rw [Set.ncard_eq_zero h.finite] at hcard
  exact Set.notMem_empty t (hcard ▸ ht)

theorem Waits.not_rdlock (hR : Waits W R s) (hs : Inv s) (h : Trans R s .rdlock s') : False := by
  cases h with
  | rdlock ht hw =>
    obtain ⟨hW, hR | ⟨-, hreq⟩⟩ := hR
    · rw [hR] at ht
      cases ht
    · have hlock := (hs.lock W).mp (hW.resolve_left hreq)
      rw [hw] at hlock
      cases hlock

theorem Trans.waits (h : Trans t s op s') (hs : Inv s) (hR : Waits W R s)
    (hno : (t, op) ≠ (W, .wUnlock)) : Waits W R s' := by
  obtain ⟨hclaims, hwithdrawn⟩ := h.claims hR.1 hno
  refine ⟨hclaims, ?_⟩
  by_cases htR : R = t
  · subst htR
    cases h with
    | testZero ht h₀ =>
      exact Or.inr ⟨Function.update_self _ _ _, hwithdrawn (hs.not_requesting h₀ W)⟩
    | testBusy ht => exact Or.inl (Function.update_self _ _ _)
    | rdlock ht hw => exact (hR.not_rdlock hs (.rdlock ht hw)).elim
    | _ => simp_all [Waits]
  · rw [h.pc_of_ne htR]
    exact hR.2.imp_right fun hR => ⟨hR.1, hwithdrawn hR.2⟩

end Preference

/-- Writers are preferred: `w_request` counts the writers that wait for the lock, and a reader
that calls `r_lock` after the request of a writer gets the lock only after its `w_unlock`. -/
theorem writers_preferred {tr : List (Event (State T) (T × Op) Unit)} {s : State T}
    (h : Interleaving tr s) :
    ((threadsAt Pc.Requesting s.pc).Finite ∧
      s.wRequest = (threadsAt Pc.Requesting s.pc).ncard) ∧
    ∀ (W R : T) (pre mid mid' post : List (Event (State T) (T × Op) Unit))
      (inc call ret : Event (State T) (T × Op) Unit),
      tr = post ++ ret :: (mid' ++ call :: (mid ++ inc :: pre)) →
      inc.call = (W, .store .inc) → call.call = (R, .rLock) → ret.call = (R, .rdlock) →
      ∃ e ∈ mid' ++ mid, e.call = (W, .wUnlock) := by
  have hs := interleaving_inv h
  refine ⟨⟨hs.finite, hs.counted⟩, ?_⟩
  rintro W R pre mid mid' post inc call ret rfl hinc hcall hret
  by_contra hno
  push Not at hno
  obtain ⟨s₁, h₁⟩ := h.of_append
  obtain ⟨hr, -, hlast⟩ := h₁.of_cons
  have hwaits : Waits W R ret.pre := by
    apply hr.since
    · intro s' hr' he
      have hclaims : (call.pre.pc W).Claims := by
        apply hr'.since (P := fun s => (s.pc W).Claims)
        · intro s₀ _ he₀
          have htr := exec_trans he₀
          rw [hinc] at htr
          cases htr with
          | store ht => exact Or.inl (by simp [State.goto, Pc.Requesting])
        · intro x hx _ s₀ _ hW he₀
          exact ((exec_trans he₀).claims hW (hno x (List.mem_append_right _ hx))).1
      have htr := exec_trans he
      refine ⟨(htr.claims hclaims (by rw [hcall]; simp)).1, Or.inl ?_⟩
      rw [hcall] at htr
      cases htr with
      | rLock ht => exact Function.update_self _ _ _
    · intro x hx _ s' hr' hw he
      exact (exec_trans he).waits (interleaving_inv hr') hw (hno x (List.mem_append_left _ hx))
  have htr := exec_trans hlast
  rw [hret] at htr
  exact hwaits.not_rdlock (interleaving_inv hr) htr

/-- The reader `1` calls `r_lock` between the `w_request++` and the `w_unlock` of the writer `0`. -/
theorem writers_preferred_waits : ∃ (tr : List (Event (State (Fin 2)) (Fin 2 × Op) Unit))
    (s : State (Fin 2)), Interleaving tr s ∧ s.pc 1 = .reading ∧
      s.wRequest = (threadsAt Pc.Requesting s.pc).ncard ∧
      ∃ e ∈ tr.tail.take 8, e.call = (0, .wUnlock) := by
  have h : ∃ (tr : List (Event (State (Fin 2)) (Fin 2 × Op) Unit)) (s : State (Fin 2)),
      Interleaving tr s ∧ decide (s.pc 1 = .reading ∧ tr.map (·.call) =
        [(1, .rdlock), (1, .test), (0, .wUnlock), (0, .spinUnlock), (0, .store .dec), (0, .load),
          (0, .spinLock), (0, .wrlock), (0, .spinUnlock), (1, .rLock), (0, .store .inc),
          (0, .load), (0, .spinLock), (0, .wLock)]) = true :=
    Run.exists_of_replayCheck [(0, .wLock), (0, .spinLock), (0, .load), (0, .store .inc),
      (1, .rLock), (0, .spinUnlock), (0, .wrlock), (0, .spinLock), (0, .load), (0, .store .dec),
      (0, .spinUnlock), (0, .wUnlock), (1, .test), (1, .rdlock)] rfl (by decide +kernel)
  obtain ⟨tr, s, hr, hp⟩ := h
  obtain ⟨hpc, hcalls⟩ := of_decide_eq_true hp
  obtain ⟨ret, l, rfl, hret, hl⟩ := List.map_eq_cons_iff.mp hcalls
  -- Eight steps lie between the call of `r_lock` and its return.
  obtain ⟨mid', l, rfl, hlen⟩ : ∃ mid' l', l = mid' ++ l' ∧ mid'.length = 8 := by
    have hl' : l.length = 13 := by simpa using congrArg List.length hl
    exact ⟨l.take 8, l.drop 8, (List.take_append_drop 8 l).symm, by simp [hl']⟩
  rw [List.map_append] at hl
  have hmid := congrArg (List.drop 8) hl
  rw [List.drop_left' (by simpa using hlen)] at hmid
  obtain ⟨call, l, rfl, hcall, hl⟩ := List.map_eq_cons_iff.mp hmid
  obtain ⟨inc, pre, rfl, hinc, -⟩ := List.map_eq_cons_iff.mp hl
  obtain ⟨⟨-, hcount⟩, hpref⟩ := writers_preferred hr
  obtain ⟨e, he, hunlock⟩ := hpref 0 1 pre [] mid' [] inc call ret rfl hinc hcall hret
  refine ⟨_, s, hr, hpc, hcount, e, ?_, hunlock⟩
  rw [List.append_nil] at he
  simpa [← hlen] using he

end SsuOs.RwLock
