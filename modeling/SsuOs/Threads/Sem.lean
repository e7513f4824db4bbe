import SsuOs.Lib.CInt
import SsuOs.Lib.Except
import SsuOs.Lib.Run

/-! The semaphore `SSU_Sem`. A call of `SSU_Sem_down` or `SSU_Sem_up` is a sequence of atomic
steps, one for each access to shared memory and for each pthread call. -/
namespace SsuOs.Sem
open SsuOs.Lib

/-- `struct wait_q`. The pointer `status` is to a local variable of a thread in `SSU_Sem_down`,
so it is given by that thread. -/
structure WaitQ (T : Type) where
  status : T
  next : Option ℕ

/-- The nodes by address. Memory keeps its contents after `free` until `malloc` gives it out
again. -/
structure Heap (T : Type) where
  node : ℕ → WaitQ T
  allocated : ℕ → Bool

/-- `struct SSU_Sem`; `lock` is the holder of the mutex. -/
structure SSUSem (T : Type) where
  key : ℤ
  head : Option ℕ
  lock : Option T
  waitLock : ℤ

/-- The next step of a call and the values of its local variables: `tmp`, `thread`, and a value
`r` just loaded from `key`. -/
inductive Pc
  -- `SSU_Sem_down`, lines 24 and 25
  | lock
  | test
  -- lines 57 and 58
  | fastLoad
  | fastStore (r : ℤ)
  | fastUnlock
  -- lines 26 to 38
  | readHead
  | malloc (tmp : Option ℕ)
  | setStatus (tmp : Option ℕ) (thread : ℕ)
  | setNext (tmp : Option ℕ) (thread : ℕ)
  | storeFirst (thread : ℕ)
  | walk (tmp : Option ℕ) (thread : ℕ)
  | walkNext (tmp : ℕ) (thread : ℕ)
  | append (tmp : ℕ) (thread : ℕ)
  | unlock (thread : ℕ)
  -- lines 41 and 42
  | spin (thread : ℕ)
  | spinWait (thread : ℕ)
  | spinHead (thread : ℕ)
  | spinStatus (thread : ℕ) (head : Option ℕ)
  -- lines 43 to 50
  | setWait (thread : ℕ)
  | slowLoad (thread : ℕ)
  | slowStore (thread : ℕ) (r : ℤ)
  | saveHead (thread : ℕ)
  | loadHead (thread : ℕ) (tmp : Option ℕ)
  | loadNext (thread : ℕ) (tmp head : Option ℕ)
  | storeHead (thread : ℕ) (tmp next : Option ℕ)
  | free (tmp : Option ℕ)
  | clearWait
  -- `SSU_Sem_up`, line 63
  | upLoad
  | upStore (r : ℤ)
  -- outside of both functions
  | ret
  deriving DecidableEq

/-- `malloc` may return any address that is not in use. -/
inductive Act
  | run
  | malloc (addr : ℕ)
  deriving DecidableEq

inductive Fault
  | nullDeref
  | blocked
  | disabled

variable {T : Type}

def ssuSemInit (value : ℤ) : SSUSem T := ⟨value, none, none, 0⟩

namespace Heap

def setStatus (h : Heap T) (a : ℕ) (t : T) : Heap T :=
  { h with node := Function.update h.node a { h.node a with status := t } }

def setNext (h : Heap T) (a : ℕ) (next : Option ℕ) : Heap T :=
  { h with node := Function.update h.node a { h.node a with next := next } }

def malloc (h : Heap T) (a : ℕ) : Heap T :=
  { h with allocated := Function.update h.allocated a true }

def free (h : Heap T) : Option ℕ → Heap T
  | none => h
  | some a => { h with allocated := Function.update h.allocated a false }

end Heap

variable [DecidableEq T]

/-- One step of the thread `t` inside a call, `malloc` apart. -/
def run (t : T) (s : SSUSem T) (h : Heap T) : Pc → Except Fault (Pc × SSUSem T × Heap T)
  | .lock =>
    if s.lock = none then .ok (.test, { s with lock := some t }, h) else .error .blocked
  | .test => .ok (if s.key ≤ 0 then .readHead else .fastLoad, s, h)
  | .fastLoad => .ok (.fastStore s.key, s, h)
  | .fastStore r => .ok (.fastUnlock, { s with key := wrap32 (r - 1) }, h)
  | .fastUnlock => .ok (.ret, { s with lock := none }, h)
  | .readHead => .ok (.malloc s.head, s, h)
  | .malloc _ => .error .disabled
  | .setStatus tmp thread => .ok (.setNext tmp thread, s, h.setStatus thread t)
  | .setNext tmp thread =>
    .ok (if tmp = none then .storeFirst thread else .walk tmp thread, s, h.setNext thread none)
  | .storeFirst thread => .ok (.unlock thread, { s with head := some thread }, h)
  | .walk none _ => .error .nullDeref
  | .walk (some tmp) thread =>
    .ok (if (h.node tmp).next = none then .append tmp thread else .walkNext tmp thread, s, h)
  | .walkNext tmp thread => .ok (.walk (h.node tmp).next thread, s, h)
  | .append tmp thread => .ok (.unlock thread, s, h.setNext tmp (some thread))
  | .unlock thread => .ok (.spin thread, { s with lock := none }, h)
  | .spin thread => .ok (if s.key > 0 then .spinWait thread else .spin thread, s, h)
  | .spinWait thread => .ok (if s.waitLock = 0 then .spinHead thread else .spin thread, s, h)
  | .spinHead thread => .ok (.spinStatus thread s.head, s, h)
  | .spinStatus _ none => .error .nullDeref
  | .spinStatus thread (some head) =>
    .ok (if (h.node head).status = t then .setWait thread else .spin thread, s, h)
  | .setWait thread => .ok (.slowLoad thread, { s with waitLock := 1 }, h)
  | .slowLoad thread => .ok (.slowStore thread s.key, s, h)
  | .slowStore thread r => .ok (.saveHead thread, { s with key := wrap32 (r - 1) }, h)
  | .saveHead thread => .ok (.loadHead thread s.head, s, h)
  | .loadHead thread tmp => .ok (.loadNext thread tmp s.head, s, h)
  | .loadNext _ _ none => .error .nullDeref
  | .loadNext thread tmp (some head) => .ok (.storeHead thread tmp (h.node head).next, s, h)
  | .storeHead _ tmp next => .ok (.free tmp, { s with head := next }, h)
  | .free tmp => .ok (.clearWait, s, h.free tmp)
  | .clearWait => .ok (.ret, { s with waitLock := 0 }, h)
  | .upLoad => .ok (.upStore s.key, s, h)
  | .upStore r => .ok (.ret, { s with key := wrap32 (r + 1) }, h)
  | .ret => .error .disabled

/-- One step of the thread `t` inside a call. -/
def advance (t : T) (s : SSUSem T) (h : Heap T) (pc : Pc) :
    Act → Except Fault (Pc × SSUSem T × Heap T)
  | .run => run t s h pc
  | .malloc addr =>
    match pc with
    | .malloc tmp =>
      if h.allocated addr then .error .disabled else .ok (.setStatus tmp addr, s, h.malloc addr)
    | _ => .error .disabled

/-- Where a call stands with the key: before it has seen a positive key in `SSU_Sem_down`, before
the decrement is stored, after that, and inside `SSU_Sem_up`. -/
inductive Phase
  | outside
  | waits
  | sees
  | passed
  | adds
  deriving DecidableEq

def Pc.phase : Pc → Phase
  | .ret => .outside
  | .fastLoad | .fastStore _ => .sees
  | .spinWait _ | .spinHead _ | .spinStatus _ _ | .setWait _ | .slowLoad _ | .slowStore _ _ => .sees
  | .fastUnlock => .passed
  | .saveHead _ | .loadHead _ _ | .loadNext _ _ _ | .storeHead _ _ _ | .free _ => .passed
  | .clearWait => .passed
  | .upLoad | .upStore _ => .adds
  | _ => .waits

/-- The step at `pc` is the last one of a call of `SSU_Sem_down`. -/
def Pc.endsDown : Pc → Bool
  | .fastUnlock | .clearWait => true
  | _ => false

/-- The value of `key` that the call has loaded and is about to store, changed by one. -/
def Pc.loaded : Pc → Option ℤ
  | .fastStore r | .slowStore _ r | .upStore r => some r
  | _ => none

/-- What a step inside a call does to the key. -/
inductive KeyStep (key : ℤ) (pc pc' : Pc) (key' : ℤ) : Prop
  | stay (hk : key' = key) (hp : pc'.phase = pc.phase) (he : pc.endsDown = false)
      (hl : ∀ r, pc'.loaded = some r → r = key)
  | see (hk : key' = key) (hp : pc.phase = .waits) (hp' : pc'.phase = .sees) (hpos : 0 < key)
      (hl : pc'.loaded = none)
  | retry (hk : key' = key) (hp : pc.phase = .sees) (hp' : pc'.phase = .waits)
      (hl : pc'.loaded = none)
  | pass {r : ℤ} (hp : pc.phase = .sees) (hr : pc.loaded = some r) (hp' : pc'.phase = .passed)
      (hl : pc'.loaded = none) (hk : key' = wrap32 (r - 1))
  | leave (hk : key' = key) (he : pc.endsDown = true) (hp' : pc' = .ret)
  | add {r : ℤ} (hp : pc.phase = .adds) (hr : pc.loaded = some r) (hp' : pc' = .ret)
      (hk : key' = wrap32 (r + 1))

@[simp] theorem phase_ret : Pc.ret.phase = .outside := rfl

theorem phase_of_endsDown {pc : Pc} (h : pc.endsDown = true) : pc.phase = .passed := by
  unfold Pc.endsDown at h
  split at h
  · rfl
  · rfl
  · cases h

theorem run_keyStep {t : T} {s s' : SSUSem T} {h h' : Heap T} {pc pc' : Pc}
    (hr : run t s h pc = .ok (pc', s', h')) : KeyStep s.key pc pc' s'.key := by
  cases pc with
  | ret | malloc _ => cases hr
  | lock =>
    simp only [run] at hr
    split_ifs at hr
    cases hr
    exact .stay rfl rfl rfl (by simp [Pc.loaded])
  | test =>
    cases hr
    split_ifs with hk
    · exact .stay rfl rfl rfl (by simp [Pc.loaded])
    · exact .see rfl rfl rfl (by omega) rfl
  | spin thread =>
    cases hr
    split_ifs with hk
    · exact .see rfl rfl rfl hk rfl
    · exact .stay rfl rfl rfl (by simp [Pc.loaded])
  | spinWait thread =>
    cases hr
    split_ifs
    · exact .stay rfl rfl rfl (by simp [Pc.loaded])
    · exact .retry rfl rfl rfl rfl
  | spinStatus thread head =>
    cases head with
    | none => cases hr
    | some head =>
      cases hr
      split_ifs
      · exact .stay rfl rfl rfl (by simp [Pc.loaded])
      · exact .retry rfl rfl rfl rfl
  | fastStore r | slowStore _ r =>
    cases hr
    exact .pass rfl rfl rfl rfl rfl
  | fastUnlock | clearWait =>
    cases hr
    exact .leave rfl rfl rfl
  | upStore r =>
    cases hr
    exact .add rfl rfl rfl rfl
  | setNext tmp thread =>
    cases hr
    split_ifs <;> exact .stay rfl rfl rfl (by simp [Pc.loaded])
  | walk tmp thread =>
    cases tmp with
    | none => cases hr
    | some tmp =>
      cases hr
      split_ifs <;> exact .stay rfl rfl rfl (by simp [Pc.loaded])
  | loadNext thread tmp head =>
    cases head with
    | none => cases hr
    | some head =>
      cases hr
      exact .stay rfl rfl rfl (by simp [Pc.loaded])
  | _ =>
    cases hr
    exact .stay rfl rfl rfl (by simp [Pc.loaded])

theorem advance_malloc {t : T} {s s' : SSUSem T} {h h' : Heap T} {pc pc' : Pc} {a : ℕ}
    (hr : advance t s h pc (.malloc a) = .ok (pc', s', h')) :
    ∃ tmp, pc = .malloc tmp ∧ h.allocated a = false ∧ pc' = .setStatus tmp a ∧ s' = s ∧
      h' = h.malloc a := by
  simp only [advance] at hr
  split at hr
  · split_ifs at hr with ha
    cases hr
    exact ⟨_, rfl, by simpa using ha, rfl, rfl, rfl⟩
  · cases hr

theorem advance_keyStep {t : T} {s s' : SSUSem T} {h h' : Heap T} {pc pc' : Pc} {act : Act}
    (hr : advance t s h pc act = .ok (pc', s', h')) : KeyStep s.key pc pc' s'.key := by
  cases act with
  | run => exact run_keyStep hr
  | malloc a =>
    obtain ⟨tmp, rfl, -, rfl, rfl, -⟩ := advance_malloc hr
    exact .stay rfl rfl rfl (by simp [Pc.loaded])

/-- One semaphore and the threads that use it. -/
structure State (T : Type) where
  sem : SSUSem T
  heap : Heap T
  pc : T → Pc

/-- A thread calls one of the functions, or takes the next step of its call. -/
inductive Op
  | down
  | up
  | act (a : Act)
  deriving DecidableEq

def State.goto (s : State T) (t : T) (pc : Pc) : State T :=
  { s with pc := Function.update s.pc t pc }

def exec (c : T × Op) (s : State T) : Except Fault (Unit × State T) :=
  match c.2 with
  | .down => if s.pc c.1 = .ret then .ok ((), s.goto c.1 .lock) else .error .disabled
  | .up => if s.pc c.1 = .ret then .ok ((), s.goto c.1 .upLoad) else .error .disabled
  | .act a => do
    let (pc, sem, heap) ← advance c.1 s.sem s.heap (s.pc c.1) a
    .ok ((), { sem, heap, pc := Function.update s.pc c.1 pc })

inductive Trans (t : T) (s : State T) : Op → State T → Prop
  | down (hret : s.pc t = .ret) : Trans t s .down (s.goto t .lock)
  | up (hret : s.pc t = .ret) : Trans t s .up (s.goto t .upLoad)
  | act {a : Act} {pc : Pc} {sem : SSUSem T} {heap : Heap T}
      (hadv : advance t s.sem s.heap (s.pc t) a = .ok (pc, sem, heap)) :
      Trans t s (.act a) { sem, heap, pc := Function.update s.pc t pc }

theorem exec_trans {t : T} {op : Op} {s s' : State T} {u : Unit}
    (he : exec (t, op) s = .ok (u, s')) : Trans t s op s' := by
  cases op with
  | down =>
    simp only [exec] at he
    split_ifs at he with hret
    cases he
    exact .down hret
  | up =>
    simp only [exec] at he
    split_ifs at he with hret
    cases he
    exact .up hret
  | act a =>
    obtain ⟨⟨pc, sem, heap⟩, hadv, heq⟩ := bind_eq_ok.mp he
    cases heq
    exact .act hadv

/-- `SSU_Sem_init` has been called, no thread is inside a call. -/
def Initial (v : ℤ) (s : State T) : Prop :=
  s.sem = ssuSemInit v ∧ (∀ a, s.heap.allocated a = false) ∧ ∀ t, s.pc t = .ret

/-- Every interleaving of calls by any number of threads on a semaphore of initial value `v`. -/
abbrev Interleaving (v : ℤ) : List (Event (State T) (T × Op) Unit) → State T → Prop :=
  Run exec (fun _ _ => True) (Initial v)

/-- A program start with the same contents in all of the memory. -/
def start (v : ℤ) (t : T) : State T :=
  ⟨ssuSemInit v, ⟨fun _ => ⟨t, none⟩, fun _ => false⟩, fun _ => .ret⟩

omit [DecidableEq T] in
theorem initial_start (v : ℤ) (t : T) : Initial v (start v t) :=
  ⟨rfl, fun _ => rfl, fun _ => rfl⟩

/-- The next `n` steps of the thread `t`, for the description of schedules. -/
def runs (t : T) (n : ℕ) : List (T × Op) := List.replicate n (t, .act .run)

end SsuOs.Sem
