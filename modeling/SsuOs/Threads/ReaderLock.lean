import Mathlib.Data.Fintype.Basic
import Mathlib.Data.Int.Notation
import Mathlib.Logic.Function.Basic
import Mathlib.Tactic.SplitIfs
import SsuOs.Lib.Except
import SsuOs.Lib.Run

/-! The reader-writer lock of `rw_lock-r-test.c`, which prefers readers. Threads interleave at
every access to `r_flag` and at every pthread call. -/
namespace SsuOs.ReaderLock
open SsuOs.Lib

inductive Pc
  | idle
  | rTest
  | rSet
  | rAcquire
  | reading
  | wSpin
  | wAcquire
  | writing
  deriving DecidableEq

/-- The atomic operations; `rLock` and `wLock` are the calls of `r_lock` and `w_lock`, which
return with `rdlock` and `wrlock`. `test` and `spin` read `r_flag`. -/
inductive Op
  | rLock
  | test
  | set
  | rdlock
  | rUnlock
  | wLock
  | spin
  | wrlock
  | wUnlock
  deriving DecidableEq

/-- `struct rw_lock` and the threads. `readers` and `writer` hold the `pthread_rwlock_t`. -/
structure State (T : Type) where
  rFlag : ℤ
  readers : List T
  writer : Option T
  pc : T → Pc

inductive Fault
  | disabled
  | blocked

variable {T : Type}

def initRwlock : State T := ⟨0, [], none, fun _ => .idle⟩

variable [DecidableEq T]

def State.goto (s : State T) (t : T) (p : Pc) : State T :=
  { s with pc := Function.update s.pc t p }

/-- One atomic operation of the thread `t`. -/
def step (t : T) (op : Op) (s : State T) : Except Fault (State T) :=
  match op, s.pc t with
  | .rLock, .idle => .ok (s.goto t .rTest)
  | .test, .rTest => .ok (s.goto t (if s.rFlag = 0 then .rSet else .rAcquire))
  | .set, .rSet => .ok ({ s with rFlag := 1 }.goto t .rAcquire)
  | .rdlock, .rAcquire =>
    if s.writer = none then .ok ({ s with readers := t :: s.readers }.goto t .reading)
    else .error .blocked
  | .rUnlock, .reading => .ok ({ s with readers := s.readers.erase t }.goto t .idle)
  | .wLock, .idle => .ok (s.goto t .wSpin)
  | .spin, .wSpin => .ok (s.goto t (if s.rFlag = 0 then .wSpin else .wAcquire))
  | .wrlock, .wAcquire =>
    if s.writer = none ∧ s.readers = [] then .ok ({ s with writer := some t }.goto t .writing)
    else .error .blocked
  | .wUnlock, .writing => .ok ({ s with writer := none }.goto t .idle)
  | _, _ => .error .disabled

def exec (c : T × Op) (s : State T) : Except Fault (Unit × State T) :=
  (step c.1 c.2 s).map ((), ·)

abbrev History (T : Type) := List (Event (State T) (T × Op) Unit)

/-- Every interleaving of any number of threads, each of which reads and writes as it likes. -/
abbrev Interleaving : History T → State T → Prop :=
  Run exec (fun _ _ => True) (· = initRwlock)

inductive Trans (t : T) (s : State T) : Op → State T → Prop
  | rLock (h : s.pc t = .idle) : Trans t s .rLock (s.goto t .rTest)
  | testZero (h : s.pc t = .rTest) (hf : s.rFlag = 0) : Trans t s .test (s.goto t .rSet)
  | testSet (h : s.pc t = .rTest) (hf : s.rFlag ≠ 0) : Trans t s .test (s.goto t .rAcquire)
  | set (h : s.pc t = .rSet) : Trans t s .set ({ s with rFlag := 1 }.goto t .rAcquire)
  | rdlock (h : s.pc t = .rAcquire) (hw : s.writer = none) :
      Trans t s .rdlock ({ s with readers := t :: s.readers }.goto t .reading)
  | rUnlock (h : s.pc t = .reading) :
      Trans t s .rUnlock ({ s with readers := s.readers.erase t }.goto t .idle)
  | wLock (h : s.pc t = .idle) : Trans t s .wLock (s.goto t .wSpin)
  | spinZero (h : s.pc t = .wSpin) (hf : s.rFlag = 0) : Trans t s .spin (s.goto t .wSpin)
  | spinSet (h : s.pc t = .wSpin) (hf : s.rFlag ≠ 0) : Trans t s .spin (s.goto t .wAcquire)
  | wrlock (h : s.pc t = .wAcquire) (hw : s.writer = none) (hr : s.readers = []) :
      Trans t s .wrlock ({ s with writer := some t }.goto t .writing)
  | wUnlock (h : s.pc t = .writing) : Trans t s .wUnlock ({ s with writer := none }.goto t .idle)

theorem step_trans {t : T} {op : Op} {s s' : State T} (hstep : step t op s = .ok s') :
    Trans t s op s' := by
  unfold step at hstep
  split at hstep
  case h_1 h => exact Except.ok.inj hstep ▸ .rLock h
  case h_2 h =>
    obtain rfl := Except.ok.inj hstep
    split_ifs with hf
    · exact .testZero h hf
    · exact .testSet h hf
  case h_3 h => exact Except.ok.inj hstep ▸ .set h
  case h_4 h =>
    split_ifs at hstep with hw
    exact Except.ok.inj hstep ▸ .rdlock h hw
  case h_5 h => exact Except.ok.inj hstep ▸ .rUnlock h
  case h_6 h => exact Except.ok.inj hstep ▸ .wLock h
  case h_7 h =>
    obtain rfl := Except.ok.inj hstep
    split_ifs with hf
    · exact .spinZero h hf
    · exact .spinSet h hf
  case h_8 h =>
    split_ifs at hstep with hw
    exact Except.ok.inj hstep ▸ .wrlock h hw.1 hw.2
  case h_9 h => exact Except.ok.inj hstep ▸ .wUnlock h
  case h_10 => cases hstep

theorem exec_trans {c : T × Op} {s s' : State T} {u : Unit} (h : exec c s = .ok (u, s')) :
    Trans c.1 s c.2 s' := by
  obtain ⟨s₁, hstep, heq⟩ := map_eq_ok.mp h
  obtain ⟨-, rfl⟩ := Prod.mk.inj heq
  exact step_trans hstep

def Done (op : Op) (tr : History T) : Prop := ∃ e ∈ tr, e.call.2 = op

/-- Every event of the kind `P` comes after a completed `op`. -/
def Preceded (P : Event (State T) (T × Op) Unit → Prop) (op : Op) (tr : History T) : Prop :=
  ∀ post e pre, tr = post ++ e :: pre → P e → Done op pre

/-- No call of `w_lock` returns before one of `r_lock` has. -/
abbrev ReadersFirst (tr : History T) : Prop := Preceded (fun e => e.call.2 = .wrlock) .rdlock tr

/-- A writer reads `r_flag` as set and leaves its loop. -/
def LeavesLoop (e : Event (State T) (T × Op) Unit) : Prop :=
  e.call.2 = .spin ∧ e.pre.rFlag ≠ 0

instance (e : Event (State T) (T × Op) Unit) : Decidable (LeavesLoop e) :=
  inferInstanceAs (Decidable (_ ∧ _))

instance (op : Op) (tr : History T) : Decidable (Done op tr) :=
  inferInstanceAs (Decidable (∃ e ∈ tr, e.call.2 = op))

section Preceded

variable {P : Event (State T) (T × Op) Unit → Prop} {op : Op} {tr : History T}
  {e : Event (State T) (T × Op) Unit}

omit [DecidableEq T] in
theorem preceded_nil : Preceded P op ([] : History T) := by
  intro post e pre htr
  simp at htr

omit [DecidableEq T] in
theorem preceded_cons : Preceded P op (e :: tr) ↔ (P e → Done op tr) ∧ Preceded P op tr := by
  constructor
  · intro h
    exact ⟨h [] e tr rfl, fun post e' pre htr => h (e :: post) e' pre (by rw [htr]; rfl)⟩
  · rintro ⟨he, htr⟩ post e' pre heq
    cases post with
    | nil =>
      obtain ⟨rfl, rfl⟩ := List.cons.inj heq
      exact he
    | cons x post => exact htr post e' pre (List.cons.inj heq).2

instance decidablePreceded [DecidablePred P] : ∀ tr : History T, Decidable (Preceded P op tr)
  | [] => .isTrue preceded_nil
  | _ :: tr =>
    have := decidablePreceded tr
    decidable_of_iff _ preceded_cons.symm

end Preceded

/-- Some reader is between its access to `r_flag` and the return of its `r_lock`. -/
def Entering (s : State T) : Prop := ∃ R, s.pc R = .rAcquire

instance [Fintype T] (s : State T) : Decidable (Entering s) :=
  inferInstanceAs (Decidable (∃ R, s.pc R = .rAcquire))

section Invariant

variable {tr : History T} {e : Event (State T) (T × Op) Unit} {s s' : State T} {t : T} {op : Op}

omit [DecidableEq T] in
theorem Done.cons (h : Done op tr) : Done op (e :: tr) := by
  obtain ⟨e', he', hop⟩ := h
  exact ⟨e', List.mem_cons_of_mem e he', hop⟩

omit [DecidableEq T] in
theorem done_cons_self (h : e.call.2 = op) : Done op (e :: tr) := ⟨e, List.mem_cons_self, h⟩

/-- What the flag stands for: a reader has set it, and some reader has returned from `r_lock` or
is about to take the lock. A writer behind its loop has read the flag. -/
structure Inv (tr : History T) (s : State T) : Prop where
  set : s.rFlag ≠ 0 → Done .set tr
  reader : s.rFlag ≠ 0 → Done .rdlock tr ∨ Entering s
  writer : ∀ t, s.pc t = .wAcquire → s.rFlag ≠ 0 ∧ ∃ e ∈ tr, LeavesLoop e

omit [DecidableEq T] in
theorem inv_initRwlock : Inv [] (initRwlock : State T) :=
  ⟨fun hf => absurd rfl hf, fun hf => absurd rfl hf, fun _ ht => by cases ht⟩

/-- The flag is never cleared, so the other threads keep what they know of it. -/
theorem Inv.next (h : Inv tr s) {f : ℤ} {l : List T} {w : Option T} {p : Pc}
    (hf : s.rFlag ≠ 0 → f ≠ 0) (hset : f ≠ 0 → Done .set (e :: tr))
    (hreader : f ≠ 0 → Done .rdlock (e :: tr) ∨ Entering ((⟨f, l, w, s.pc⟩ : State T).goto t p))
    (hwriter : p = .wAcquire → f ≠ 0 ∧ LeavesLoop e) :
    Inv (e :: tr) ((⟨f, l, w, s.pc⟩ : State T).goto t p) := by
  refine ⟨hset, hreader, fun t' ht' => ?_⟩
  change Function.update s.pc t p t' = _ at ht'
  rw [Function.update_apply] at ht'
  split_ifs at ht'
  · obtain ⟨hset', hleft⟩ := hwriter ht'
    exact ⟨hset', e, List.mem_cons_self, hleft⟩
  · obtain ⟨hset', e', he', hleft⟩ := h.writer t' ht'
    exact ⟨hf hset', e', List.mem_cons_of_mem e he', hleft⟩

theorem Inv.move (h : Inv tr s) {l : List T} {w : Option T} {p : Pc}
    (hfrom : s.pc t ≠ .rAcquire) (hwriter : p = .wAcquire → s.rFlag ≠ 0 ∧ LeavesLoop e) :
    Inv (e :: tr) ((⟨s.rFlag, l, w, s.pc⟩ : State T).goto t p) := by
  refine h.next id (fun hf => (h.set hf).cons) (fun hf => ?_) hwriter
  rcases h.reader hf with hdone | ⟨R, hR⟩
  · exact .inl hdone.cons
  · have hne : R ≠ t := fun heq => hfrom (heq ▸ hR)
    exact .inr ⟨R, (Function.update_of_ne hne _ _).trans hR⟩

theorem Trans.inv (htr : Trans t s op s') (h : Inv tr s) : Inv (⟨s, (t, op), ()⟩ :: tr) s' := by
  have henters : ∀ f : ℤ, Entering ({ s with rFlag := f }.goto t .rAcquire) :=
    fun f => ⟨t, Function.update_self _ _ _⟩
  cases htr with
  | rLock ht | testZero ht _ | rUnlock ht | wLock ht | spinZero ht _ | wrlock ht | wUnlock ht =>
    exact h.move (by simp [ht]) (by simp)
  | spinSet ht hf => exact h.move (by simp [ht]) fun _ => ⟨hf, rfl, hf⟩
  | testSet ht _ =>
    exact h.next id (fun hf => (h.set hf).cons) (fun _ => .inr (henters s.rFlag)) (by simp)
  | set ht =>
    exact h.next (fun _ => Int.one_ne_zero) (fun _ => done_cons_self rfl)
      (fun _ => .inr (henters 1)) (by simp)
  | rdlock ht hw =>
    exact h.next id (fun hf => (h.set hf).cons) (fun _ => .inl (done_cons_self rfl)) (by simp)

theorem interleaving_inv (h : Interleaving tr s) : Inv tr s := by
  refine Run.invariant_history Inv ?_ ?_ h
  · rintro _ rfl
    exact inv_initRwlock
  · intro tr s c u s' hs _ he
    exact (exec_trans he).inv hs

/-- When a call of `w_lock` returns, the writer has left its loop before, and some reader has set
the flag. -/
theorem wrlock_inv {post pre : History T} (h : Interleaving (post ++ e :: pre) s)
    (hop : e.call.2 = .wrlock) :
    Done .set pre ∧ ∃ e' ∈ pre, LeavesLoop e' := by
  obtain ⟨s', hrun⟩ := h.of_append
  obtain ⟨hpre, -, he⟩ := hrun.of_cons
  have hinv := interleaving_inv hpre
  have htr := exec_trans he
  rw [hop] at htr
  cases htr with
  | wrlock ht =>
    obtain ⟨hf, hleft⟩ := hinv.writer _ ht
    exact ⟨hinv.set hf, hleft⟩

/-- A writer that leaves its loop while no reader is about to take the lock comes second. -/
theorem leavesLoop_inv {post pre : History T} (h : Interleaving (post ++ e :: pre) s)
    (hleft : LeavesLoop e) (hnone : ¬Entering e.pre) : Done .rdlock pre := by
  obtain ⟨s', hrun⟩ := h.of_append
  obtain ⟨hpre, -, -⟩ := hrun.of_cons
  exact ((interleaving_inv hpre).reader hleft.2).resolve_right hnone

end Invariant

/-- `w_lock` returns only after a reader has set `r_flag`. When, until a call of `r_lock` has
returned, no writer finds the flag set while a reader is between its access to the flag and the
return of its `pthread_rwlock_rdlock`, no call of `w_lock` returns before one of `r_lock` has. -/
theorem readersFirst_of_no_window {tr : History T} {s : State T} (h : Interleaving tr s) :
    Preceded (fun e => e.call.2 = .wrlock) .set tr ∧
    (Preceded (fun e => LeavesLoop e ∧ Entering e.pre) .rdlock tr → ReadersFirst tr) := by
  constructor
  · rintro post e pre rfl hop
    exact (wrlock_inv h hop).1
  · rintro hloop post e pre rfl hop
    obtain ⟨-, e', he', hleft⟩ := wrlock_inv h hop
    obtain ⟨mid, pre', rfl⟩ := List.append_of_mem he'
    have hsplit : post ++ e :: (mid ++ e' :: pre') = (post ++ e :: mid) ++ e' :: pre' := by simp
    have hdone : Done .rdlock pre' := by
      by_cases hin : Entering e'.pre
      · exact hloop _ e' pre' hsplit ⟨hleft, hin⟩
      · rw [hsplit] at h
        exact leavesLoop_inv h hleft hin
    obtain ⟨x, hx, hrd⟩ := hdone
    exact ⟨x, by simp [hx], hrd⟩

/-- The reader `0` has the lock before the writer `1` looks at the flag. -/
theorem readersFirst_of_reader_in : ∃ (tr : History (Fin 2)) (s : State (Fin 2)),
    Interleaving tr s ∧ s.pc 1 = .writing ∧ ReadersFirst tr := by
  obtain ⟨tr, s, h, hp⟩ : ∃ (tr : History (Fin 2)) (s : State (Fin 2)), Interleaving tr s ∧
      decide (s.pc 1 = .writing ∧
        Preceded (fun e => LeavesLoop e ∧ Entering e.pre) .rdlock tr) = true :=
    Run.exists_of_replayCheck [(1, .wLock), (0, .rLock), (1, .spin), (0, .test), (0, .set),
      (0, .rdlock), (1, .spin), (0, .rUnlock), (1, .wrlock)] rfl (by decide +kernel)
  obtain ⟨hpc, hloop⟩ := of_decide_eq_true hp
  exact ⟨tr, s, h, hpc, (readersFirst_of_no_window h).2 hloop⟩

/-- The writer `1` gets the lock while the reader `0` has set the flag but not taken the lock. -/
theorem writer_overtakes : ∃ (tr : History (Fin 2)) (s : State (Fin 2)),
    Interleaving tr s ∧ s.pc 1 = .writing ∧ s.pc 0 = .rAcquire ∧ ¬Done .rdlock tr ∧
      ¬ReadersFirst tr := by
  obtain ⟨tr, s, h, hp⟩ : ∃ (tr : History (Fin 2)) (s : State (Fin 2)), Interleaving tr s ∧
      decide (s.pc 1 = .writing ∧ s.pc 0 = .rAcquire ∧ ¬Done .rdlock tr ∧
        ¬ReadersFirst tr) = true :=
    Run.exists_of_replayCheck [(0, .rLock), (0, .test), (0, .set), (1, .wLock), (1, .spin),
      (1, .wrlock)] rfl (by decide +kernel)
  exact ⟨tr, s, h, of_decide_eq_true hp⟩

end SsuOs.ReaderLock
