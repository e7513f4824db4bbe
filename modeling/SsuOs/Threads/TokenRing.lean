import SsuOs.Threads.Sem

/-! The ring of `SSU_Sem_toggle_test.c`: thread `i` waits on `lock[i]`, prints, and wakes the next
thread. Any number of threads, any number of iterations. -/
namespace SsuOs.TokenRing
open SsuOs.Lib SsuOs.Sem

variable {n : ℕ}

/-- Where a thread is in `justprint`. -/
inductive Place
  | top
  | down (pc : Pc)
  | print
  | up (pc : Pc)
  | exited

/-- The semaphores, the nodes of their queues, and the threads with their loop counters;
`printed` has the latest line first. -/
structure State (n : ℕ) where
  lock : Fin n → SSUSem (Fin n)
  heap : Heap (Fin n)
  iter : Fin n → ℕ
  place : Fin n → Place
  printed : List (Fin n)

theorem next_lt (i : Fin n) : (if (i : ℕ) = n - 1 then 0 else (i : ℕ) + 1) < n := by
  split_ifs <;> omega

/-- The thread that is woken by thread `i`. -/
def next (i : Fin n) : Fin n := ⟨if (i : ℕ) = n - 1 then 0 else i + 1, next_lt i⟩

def State.goto (s : State n) (t : Fin n) (p : Place) : State n :=
  { s with place := Function.update s.place t p }

/-- One step of the thread `t` in `justprint` with `NUM_ITER` iterations. -/
def step (numIter : ℕ) (t : Fin n) (a : Act) (s : State n) : Except Fault (State n) :=
  match s.place t with
  | .top =>
    if a ≠ .run then .error .disabled
    else if s.iter t < numIter then .ok (s.goto t (.down .lock))
    else .ok (s.goto t .exited)
  | .down pc => do
    let (pc, sem, heap) ← advance t (s.lock t) s.heap pc a
    .ok ({ s with lock := Function.update s.lock t sem, heap }.goto t
      (if pc = Pc.ret then .print else .down pc))
  | .print =>
    if a ≠ .run then .error .disabled
    else .ok ({ s with printed := t :: s.printed }.goto t (.up .upLoad))
  | .up pc => do
    let (pc, sem, heap) ← advance t (s.lock (next t)) s.heap pc a
    let s := { s with lock := Function.update s.lock (next t) sem, heap }
    if pc = Pc.ret then .ok ({ s with iter := Function.update s.iter t (s.iter t + 1) }.goto t .top)
    else .ok (s.goto t (.up pc))
  | .exited => .error .disabled

def exec (numIter : ℕ) (c : Fin n × Act) (s : State n) : Except Fault (Unit × State n) :=
  (step numIter c.1 c.2 s).map ((), ·)

/-- `main` up to the creation of the threads: all semaphores are initialised to `0`, then
`SSU_Sem_up` is called on the first. -/
def Initial (s : State n) : Prop :=
  (∀ i, s.lock i = if (i : ℕ) = 0 then { ssuSemInit 0 with key := wrap32 (0 + 1) }
    else ssuSemInit 0) ∧
  (∀ a, s.heap.allocated a = false) ∧ (∀ t, s.iter t = 0) ∧ (∀ t, s.place t = .top) ∧
  s.printed = []

abbrev Interleaving (numIter : ℕ) : List (Event (State n) (Fin n × Act) Unit) → State n → Prop :=
  Run (exec numIter) (fun _ _ => True) Initial

/-- From the decrement in `SSU_Sem_down` to the increment in `SSU_Sem_up`. -/
def Place.HasToken : Place → Prop
  | .down pc => pc.phase = .passed
  | .print | .up _ => True
  | _ => False

/-- Has seen a positive key and not yet stored the decrement. -/
def Place.Sees : Place → Prop
  | .down pc => pc.phase = .sees
  | _ => False

/-- The thread that prints next when the token is at thread `i`. -/
def Place.due (i : Fin n) : Place → Fin n
  | .up _ => next i
  | _ => i

/-- A thread inside `SSU_Sem_down` or `SSU_Sem_up` is at a step of that function, and what it has
loaded from the key is the key of a semaphore with, or without, the token. -/
def Place.Ok : Place → Prop
  | .down pc => (pc.phase = .waits ∨ pc.phase = .sees ∨ pc.phase = .passed) ∧
      ∀ r, pc.loaded = some r → r = 1
  | .up pc => pc.phase = .adds ∧ ∀ r, pc.loaded = some r → r = 0
  | _ => True

/-- The token is at thread `i`: in the key of its semaphore, or held by the thread. -/
structure TokenAt (s : State n) (i : Fin n) (held : Bool) : Prop where
  key : ∀ j, (s.lock j).key = if j = i ∧ held = false then 1 else 0
  has : ∀ j, (s.place j).HasToken ↔ j = i ∧ held = true
  sees : ∀ j, (s.place j).Sees → j = i ∧ held = false
  ok : ∀ j, (s.place j).Ok
  due : ((s.place i).due i : ℕ) = s.printed.length % n
  order : s.printed.reverse.map Fin.val = (List.range s.printed.length).map (· % n)

section Step

variable {s s' : State n} {t i : Fin n} {held : Bool} {p : Place}

inductive Trans (t : Fin n) (s : State n) : State n → Prop
  | enter (ht : s.place t = .top) : Trans t s (s.goto t (.down .lock))
  | exit (ht : s.place t = .top) : Trans t s (s.goto t .exited)
  | down {pc pc' : Pc} {sem : SSUSem (Fin n)} (heap : Heap (Fin n)) (ht : s.place t = .down pc)
      (hk : KeyStep (s.lock t).key pc pc' sem.key) :
      Trans t s ({ s with lock := Function.update s.lock t sem, heap }.goto t
        (if pc' = Pc.ret then .print else .down pc'))
  | print (ht : s.place t = .print) :
      Trans t s ({ s with printed := t :: s.printed }.goto t (.up .upLoad))
  | up {pc pc' : Pc} {sem : SSUSem (Fin n)} (heap : Heap (Fin n)) (iter : Fin n → ℕ)
      (ht : s.place t = .up pc) (hk : KeyStep (s.lock (next t)).key pc pc' sem.key) :
      Trans t s ({ s with lock := Function.update s.lock (next t) sem, heap, iter }.goto t
        (if pc' = Pc.ret then .top else .up pc'))

theorem step_trans {numIter : ℕ} {a : Act} (h : step numIter t a s = .ok s') : Trans t s s' := by
  unfold step at h
  split at h
  · rename_i ht
    split_ifs at h
    · cases h
      exact .enter ht
    · cases h
      exact .exit ht
  · rename_i pc ht
    obtain ⟨⟨pc', sem, heap⟩, hadv, heq⟩ := bind_eq_ok.mp h
    cases heq
    exact .down heap ht (advance_keyStep hadv)
  · rename_i ht
    split_ifs at h
    cases h
    exact .print ht
  · rename_i pc ht
    obtain ⟨⟨pc', sem, heap⟩, hadv, heq⟩ := bind_eq_ok.mp h
    have hup := Trans.up heap (if pc' = Pc.ret then Function.update s.iter t (s.iter t + 1)
      else s.iter) ht (advance_keyStep hadv)
    dsimp only at heq
    split_ifs at heq hup with hret
    · cases heq
      exact hup
    · cases heq
      exact hup
  · cases h

/-- What is left to show when the thread `t` moves to the place `p`. -/
theorem TokenAt.update {i' : Fin n} {held' : Bool} (h : TokenAt s i held)
    (hplace : s'.place = Function.update s.place t p)
    (hkey : ∀ j, (s'.lock j).key = if j = i' ∧ held' = false then 1 else 0)
    (hhas : p.HasToken ↔ t = i' ∧ held' = true)
    (hhas' : ∀ j ≠ t, j = i ∧ held = true ↔ j = i' ∧ held' = true)
    (hsees : p.Sees → t = i' ∧ held' = false)
    (hsees' : ∀ j ≠ t, j = i ∧ held = false → j = i' ∧ held' = false) (hok : p.Ok)
    (hdue : ((s'.place i').due i' : ℕ) = s'.printed.length % n)
    (horder : s'.printed.reverse.map Fin.val = (List.range s'.printed.length).map (· % n)) :
    TokenAt s' i' held' := by
  refine ⟨hkey, ?_, ?_, ?_, hdue, horder⟩
  · rw [hplace, Function.forall_update_iff s.place fun j p => p.HasToken ↔ j = i' ∧ held' = true]
    exact ⟨hhas, fun j hj => (h.has j).trans (hhas' j hj)⟩
  · rw [hplace, Function.forall_update_iff s.place fun j p => p.Sees → j = i' ∧ held' = false]
    exact ⟨hsees, fun j hj hs => hsees' j hj (h.sees j hs)⟩
  · rw [hplace, Function.forall_update_iff s.place fun _ p => p.Ok]
    exact ⟨hok, fun j _ => h.ok j⟩

theorem TokenAt.move (h : TokenAt s i held) (hkey : ∀ j, (s'.lock j).key = (s.lock j).key)
    (hplace : s'.place = Function.update s.place t p) (hprinted : s'.printed = s.printed)
    (hhas : p.HasToken ↔ (s.place t).HasToken) (hsees : p.Sees → t = i ∧ held = false)
    (hok : p.Ok) (hdue : p.due t = (s.place t).due t) : TokenAt s' i held := by
  apply h.update hplace (fun j => (hkey j).trans (h.key j)) (hhas.trans (h.has t))
    (fun _ _ => Iff.rfl) hsees (fun _ _ => id) hok
  · rw [hprinted, ← h.due, hplace, Function.update_apply]
    split_ifs with hi
    · rw [hi, hdue]
    · rfl
  · rw [hprinted]
    exact h.order

theorem key_update {lock : Fin n → SSUSem (Fin n)} {k : Fin n} {sem : SSUSem (Fin n)}
    (hk : sem.key = (lock k).key) (j : Fin n) :
    (Function.update lock k sem j).key = (lock j).key := by
  rw [Function.update_apply]
  split_ifs with hj
  · rw [hj, hk]
  · rfl

theorem phase_of_loaded {pc : Pc} {r : ℤ} (h : pc.loaded = some r) :
    pc.phase = .sees ∨ pc.phase = .adds := by
  unfold Pc.loaded at h
  split at h
  · exact Or.inl rfl
  · exact Or.inl rfl
  · exact Or.inr rfl
  · cases h

theorem TokenAt.moveDown (h : TokenAt s i held) {pc pc' : Pc} {sem : SSUSem (Fin n)}
    {heap : Heap (Fin n)} (ht : s.place t = .down pc) (hk : sem.key = (s.lock t).key)
    (hpassed : pc'.phase = .passed ↔ pc.phase = .passed)
    (hsees : pc'.phase = .sees → t = i ∧ held = false) (hok : (Place.down pc').Ok) :
    TokenAt ({ s with lock := Function.update s.lock t sem, heap }.goto t
      (if pc' = Pc.ret then .print else .down pc')) i held := by
  have hne : pc' ≠ .ret := by
    rintro rfl
    simp [Place.Ok] at hok
  rw [if_neg hne]
  refine h.move (key_update hk) rfl rfl ?_ hsees hok ?_
  · rw [ht]
    exact hpassed
  · rw [ht]
    rfl

/-- The decrement takes the token out of the key. -/
theorem TokenAt.pass (h : TokenAt s i false) {pc pc' : Pc} {sem : SSUSem (Fin n)}
    {heap : Heap (Fin n)} (ht : s.place i = .down pc) (hp' : pc'.phase = .passed)
    (hl : pc'.loaded = none) (hk : sem.key = 0) :
    TokenAt ({ s with lock := Function.update s.lock i sem, heap }.goto i
      (if pc' = Pc.ret then .print else .down pc')) i true := by
  have hne : pc' ≠ .ret := by
    rintro rfl
    cases hp'
  rw [if_neg hne]
  refine h.update rfl (fun j => ?_) (iff_of_true hp' ⟨rfl, rfl⟩) (by simp) ?_ (by simp)
    ⟨Or.inr (Or.inr hp'), by simp [hl]⟩ ?_ h.order
  · change (Function.update s.lock i sem j).key = _
    have hheld : ¬(j = i ∧ true = false) := by simp
    rw [if_neg hheld]
    by_cases hj : j = i
    · rw [hj, Function.update_self, hk]
    · rw [Function.update_of_ne hj, h.key, if_neg fun hji => hj hji.1]
  · rw [Place.Sees, hp']
    intro hs
    cases hs
  · have hdue := h.due
    rw [ht] at hdue
    change ((Function.update s.place i (.down pc') i).due i : ℕ) = _
    rw [Function.update_self]
    exact hdue

theorem TokenAt.down (h : TokenAt s i held) {pc pc' : Pc} {sem : SSUSem (Fin n)}
    {heap : Heap (Fin n)} (ht : s.place t = .down pc)
    (hk : KeyStep (s.lock t).key pc pc' sem.key) :
    ∃ i' held', TokenAt ({ s with lock := Function.update s.lock t sem, heap }.goto t
      (if pc' = Pc.ret then .print else .down pc')) i' held' := by
  have hok := h.ok t
  have hsees := h.sees t
  have hkey := h.key t
  rw [ht] at hok hsees
  obtain ⟨hphase, hloaded⟩ := hok
  cases hk with
  | stay hkey' hp _ hl =>
    refine ⟨i, held, h.moveDown ht hkey' (by rw [hp]) (fun hs => hsees (hp.symm.trans hs))
      ⟨hp ▸ hphase, fun r hr => ?_⟩⟩
    have hs : pc.phase = .sees := by
      rcases phase_of_loaded hr with hs | ha
      · rw [← hp, hs]
      · rw [← hp, ha] at hphase
        simp at hphase
    rw [hl r hr, hkey, if_pos (hsees hs)]
  | see hkey' hp hp' hpos hl =>
    have htoken : t = i ∧ held = false := by
      by_contra hno
      rw [hkey, if_neg hno] at hpos
      exact lt_irrefl _ hpos
    exact ⟨i, held, h.moveDown ht hkey' (by simp [hp, hp']) (fun _ => htoken)
      ⟨Or.inr (Or.inl hp'), by simp [hl]⟩⟩
  | retry hkey' hp hp' hl =>
    exact ⟨i, held, h.moveDown ht hkey' (by simp [hp, hp']) (by simp [hp'])
      ⟨Or.inl hp', by simp [hl]⟩⟩
  | pass hp hr hp' hl hkey' =>
    obtain ⟨rfl, rfl⟩ := hsees hp
    rw [hloaded _ hr] at hkey'
    exact ⟨t, true, h.pass ht hp' hl hkey'⟩
  | leave hkey' he hp' =>
    rw [if_pos hp']
    refine ⟨i, held, h.move (key_update hkey') rfl rfl ?_ (fun hs => hs.elim) trivial ?_⟩
    · rw [ht]
      exact iff_of_true trivial (phase_of_endsDown he)
    · rw [ht]
      rfl
  | add hp => simp [hp] at hphase

theorem due_of_not_hasToken (hp : ¬p.HasToken) : p.due i = i := by
  cases p with
  | up pc => exact absurd trivial hp
  | _ => rfl

theorem next_val (i : Fin n) : (next i : ℕ) = (i + 1) % n := by
  change (if (i : ℕ) = n - 1 then 0 else (i : ℕ) + 1) = _
  have hlt := i.isLt
  split_ifs with hi
  · rw [show (i : ℕ) + 1 = n by omega, Nat.mod_self]
  · rw [Nat.mod_eq_of_lt (by omega)]

theorem TokenAt.print (h : TokenAt s i held) (ht : s.place t = .print) :
    TokenAt ({ s with printed := t :: s.printed }.goto t (.up .upLoad)) i held := by
  have hhas := (h.has t).mp (by rw [ht]; trivial)
  obtain ⟨rfl, rfl⟩ := hhas
  have hdue := h.due
  rw [ht] at hdue
  refine h.update rfl h.key (iff_of_true trivial ⟨rfl, rfl⟩) (fun _ _ => Iff.rfl) False.elim
    (fun _ _ => id) ⟨rfl, by simp [Pc.loaded]⟩ ?_ ?_
  · change ((Function.update s.place t (.up .upLoad) t).due t : ℕ) = (s.printed.length + 1) % n
    have hmod : (t : ℕ) = s.printed.length % n := hdue
    rw [Function.update_self, Place.due, next_val, hmod, Nat.mod_add_mod]
  · change (t :: s.printed).reverse.map Fin.val = (List.range (s.printed.length + 1)).map (· % n)
    rw [List.reverse_cons, List.map_append, h.order, List.range_succ, List.map_append,
      List.map_singleton, List.map_singleton, ← hdue]
    rfl

/-- The increment puts the token into the key of the next semaphore. -/
theorem TokenAt.add (h : TokenAt s i true) {pc : Pc} {sem : SSUSem (Fin n)}
    {heap : Heap (Fin n)} {iter : Fin n → ℕ} (ht : s.place i = .up pc) (hk : sem.key = 1) :
    TokenAt ({ s with lock := Function.update s.lock (next i) sem, heap, iter }.goto i .top)
      (next i) false := by
  refine h.update rfl (fun j => ?_) (by simp [Place.HasToken]) (fun j hj => ?_) False.elim (by simp)
    trivial ?_ h.order
  · change (Function.update s.lock (next i) sem j).key = _
    by_cases hj : j = next i
    · rw [hj, Function.update_self, hk, if_pos ⟨rfl, rfl⟩]
    · rw [Function.update_of_ne hj, h.key, if_neg (by simp), if_neg fun hjn => hj hjn.1]
  · simp [hj]
  · have hdue := h.due
    rw [ht] at hdue
    have hnot : ¬(Function.update s.place i .top (next i)).HasToken := by
      rw [Function.update_apply]
      split_ifs with hi
      · exact id
      · rw [h.has]
        exact fun hn => hi hn.1
    change ((Function.update s.place i .top (next i)).due (next i) : ℕ) = _
    rw [due_of_not_hasToken hnot]
    exact hdue

theorem TokenAt.up (h : TokenAt s i held) {pc pc' : Pc} {sem : SSUSem (Fin n)}
    {heap : Heap (Fin n)} {iter : Fin n → ℕ} (ht : s.place t = .up pc)
    (hk : KeyStep (s.lock (next t)).key pc pc' sem.key) :
    ∃ i' held', TokenAt ({ s with lock := Function.update s.lock (next t) sem, heap, iter }.goto t
      (if pc' = Pc.ret then .top else .up pc')) i' held' := by
  have hok := h.ok t
  have hhas := (h.has t).mp (by rw [ht]; trivial)
  rw [ht] at hok
  obtain ⟨hphase, hloaded⟩ := hok
  obtain ⟨rfl, rfl⟩ := hhas
  cases hk with
  | stay hkey' hp _ hl =>
    have hne : pc' ≠ .ret := by
      rintro rfl
      rw [hphase] at hp
      cases hp
    rw [if_neg hne]
    refine ⟨t, true, h.move (key_update hkey') rfl rfl ?_ False.elim ⟨hp.trans hphase, ?_⟩ ?_⟩
    · rw [ht]
      exact Iff.rfl
    · intro r hr
      rw [hl r hr, h.key, if_neg (by simp)]
    · rw [ht]
      rfl
  | see _ hp | retry _ hp | pass hp => simp [hp] at hphase
  | leave _ he => simp [phase_of_endsDown he] at hphase
  | add _ hr hp' hkey' =>
    rw [hloaded _ hr] at hkey'
    rw [if_pos hp']
    exact ⟨next t, false, h.add ht hkey'⟩

/-- There is one token, and every step keeps it. -/
theorem Trans.token (htr : Trans t s s') (h : TokenAt s i held) :
    ∃ i' held', TokenAt s' i' held' := by
  cases htr with
  | enter ht =>
    refine ⟨i, held, h.move (fun _ => rfl) rfl rfl ?_ nofun ⟨Or.inl rfl, nofun⟩ ?_⟩
    · rw [ht]
      exact iff_of_false nofun id
    · rw [ht]
      rfl
  | exit ht =>
    refine ⟨i, held, h.move (fun _ => rfl) rfl rfl ?_ False.elim trivial ?_⟩
    · rw [ht]
      exact Iff.rfl
    · rw [ht]
      rfl
  | down heap ht hk => exact h.down ht hk
  | print ht => exact ⟨i, held, h.print ht⟩
  | up heap iter ht hk => exact h.up ht hk

end Step

theorem tokenAt_initial {s : State n} (hn : 0 < n) (h : Initial s) : TokenAt s ⟨0, hn⟩ false := by
  obtain ⟨hlock, -, -, hplace, hprinted⟩ := h
  refine ⟨fun j => ?_, fun j => ?_, fun j => ?_, fun j => ?_, ?_, ?_⟩
  · rw [hlock]
    by_cases hj : j = ⟨0, hn⟩
    · rw [if_pos (congrArg Fin.val hj), if_pos ⟨hj, rfl⟩]
      rfl
    · rw [if_neg fun hv => hj (Fin.ext hv), if_neg fun hj' => hj hj'.1]
      rfl
  · rw [hplace]
    exact iff_of_false id (by simp)
  · rw [hplace]
    exact False.elim
  · rw [hplace]
    trivial
  · rw [hplace, hprinted]
    exact (Nat.zero_mod n).symm
  · rw [hprinted]
    rfl

/-- The threads print in turn, every key stays `0` or `1`, and at most one thread is between the
decrement in `SSU_Sem_down` and the increment in its next `SSU_Sem_up`. -/
theorem prints_in_turn (hn : 1 ≤ n) {numIter : ℕ}
    {tr : List (Event (State n) (Fin n × Act) Unit)} {s : State n}
    (hr : Interleaving numIter tr s) :
    s.printed.reverse.map Fin.val = (List.range s.printed.length).map (· % n) ∧
    (∀ i, (s.lock i).key = 0 ∨ (s.lock i).key = 1) ∧
    ∀ i j, (s.place i).HasToken → (s.place j).HasToken → i = j := by
  have htoken : ∃ i held, TokenAt s i held := by
    apply hr.invariant
    · exact fun s hs => ⟨_, _, tokenAt_initial hn hs⟩
    · rintro s c u s' ⟨i, held, h⟩ _ he
      obtain ⟨s₁, hstep, heq⟩ := map_eq_ok.mp he
      obtain ⟨-, rfl⟩ := Prod.mk.inj heq
      exact (step_trans hstep).token h
  obtain ⟨i, held, h⟩ := htoken
  refine ⟨h.order, fun j => ?_, fun j k hj hk => ?_⟩
  · rw [h.key j]
    split_ifs
    · exact Or.inr rfl
    · exact Or.inl rfl
  · exact ((h.has j).mp hj).1.trans ((h.has k).mp hk).1.symm

def start (hn : 0 < n) : State n where
  lock i := if (i : ℕ) = 0 then { ssuSemInit 0 with key := wrap32 (0 + 1) } else ssuSemInit 0
  heap := ⟨fun _ => ⟨⟨0, hn⟩, none⟩, fun _ => false⟩
  iter _ := 0
  place _ := .top
  printed := []

/-- Two threads, the second of which starts first and has to wait. -/
theorem prints_in_turn_two : ∃ (tr : List (Event (State 2) (Fin 2 × Act) Unit)) (s : State 2),
    Interleaving 1 tr s ∧ s.printed = [1, 0] ∧ ∀ i, (s.lock i).key = 0 ∨ (s.lock i).key = 1 := by
  have h : ∃ (tr : List (Event (State 2) (Fin 2 × Act) Unit)) (s : State 2),
      Interleaving 1 tr s ∧ decide (s.printed = [1, 0]) = true :=
    Run.exists_of_replayCheck (s := start (by decide)) (List.flatten
      [List.replicate 4 (1, .run), [(1, .malloc 5)], List.replicate 5 (1, .run),
        List.replicate 9 (0, .run), List.replicate 16 (1, .run)])
      ⟨fun _ => rfl, fun _ => rfl, fun _ => rfl, fun _ => rfl, rfl⟩ (by decide +kernel)
  obtain ⟨tr, s, hr, hp⟩ := h
  exact ⟨tr, s, hr, of_decide_eq_true hp, (prints_in_turn (by decide) hr).2.1⟩

end SsuOs.TokenRing
