import SsuOs.Xv6.FileSafety

/-! Pipes as byte streams between any number of readers and writers, in every run. -/
namespace SsuOs.Xv6
open SsuOs.Lib Files

section Streams

variable (k : ℕ)

/-- The bytes stored in the pipe on page `k` since it was made. -/
def stored : List (Event Files FileStep FileRet) → List UInt8
  | [] => []
  | e :: tr =>
    match e.ret with
    | .made l _ => if l = k then [] else stored tr
    | .wrote l bs _ => if l = k then stored tr ++ bs else stored tr
    | _ => stored tr

/-- The bytes taken out of the pipe on page `k` since it was made. -/
def fetched : List (Event Files FileStep FileRet) → List UInt8
  | [] => []
  | e :: tr =>
    match e.ret with
    | .made l _ => if l = k then [] else fetched tr
    | .got l bs _ => if l = k then fetched tr ++ bs else fetched tr
    | _ => fetched tr

/-- Since the readers of the pipe on page `k` were last woken, a killed writer has stored bytes
and given up. -/
def leftBehind : List (Event Files FileStep FileRet) → Bool
  | [] => false
  | e :: tr =>
    match e.ret with
    | .made l _ => if l = k then false else leftBehind tr
    | .closed l w => if l = k ∧ w then false else leftBehind tr
    | .wrote l bs v =>
      if l = k then v = some (-1) ∧ (bs ≠ [] ∨ leftBehind tr) else leftBehind tr
    | _ => leftBehind tr

end Streams

/-- The pipes hold what was stored and not yet taken. -/
def StreamInv (tr : List (Event Files FileStep FileRet)) (s : Files) : Prop :=
  ∀ k P, s.pipe k = some P → P.Bounded ∧ stored k tr = fetched k tr ++ P.buffered

section

variable {tr : List (Event Files FileStep FileRet)} {s s' : Files} {a : FileStep} {r : FileRet}
  {p : Fin nProc} {k l n : ℕ} {rest bs : List UInt8} {P : Pipe} {v : Option ℤ}

theorem fill_take (hm : (P.fill rest).1 = rest.length) : rest.take (P.fill rest).1 = rest := by
  rw [hm, List.take_length]

theorem WriteEnd.ret (h : WriteEnd s p k n rest P r s') :
    ∃ v, r = .wrote k (rest.take (P.fill rest).1) v := by
  cases h with
  | done hm => exact ⟨_, by rw [fill_take hm]⟩
  | broken hm hb => exact ⟨_, rfl⟩
  | full hm hr hk => exact ⟨_, rfl⟩

theorem StreamInv.wrote (hi : StreamInv tr s) (hP : s.pipe k = some P)
    (hpipe : s'.pipe = (s.setPipe k (some (P.fill rest).2)).pipe) :
    StreamInv (⟨s, a, .wrote k (rest.take (P.fill rest).1) v⟩ :: tr) s' := by
  intro l Q hQ
  rw [hpipe, setPipe_pipe] at hQ
  simp only [stored, fetched]
  split_ifs at hQ with hl
  · subst hl
    obtain rfl := Option.some.inj hQ
    obtain ⟨hb, hs⟩ := hi l P hP
    have hfill := Pipe.fill_filled hb rest
    refine ⟨?_, ?_⟩
    · rw [Pipe.Bounded, hfill.count]
      have hm := hfill.stored
      have hb' : P.count ≤ pipeSize := hb
      omega
    · rw [if_pos rfl, hfill.buffered, hs, List.append_assoc]
  · rw [if_neg (Ne.symm hl)]
    exact hi l Q hQ

theorem StreamInv.got (hi : StreamInv tr s) (hP : s.pipe k = some P)
    (hpipe : s'.pipe = (s.setPipe k (some (P.drain n).2)).pipe) :
    StreamInv (⟨s, a, .got k (P.drain n).1 v⟩ :: tr) s' := by
  intro l Q hQ
  rw [hpipe, setPipe_pipe] at hQ
  simp only [stored, fetched]
  split_ifs at hQ with hl
  · subst hl
    obtain rfl := Option.some.inj hQ
    obtain ⟨hb, hs⟩ := hi l P hP
    have hdrain := P.drain_drained n
    refine ⟨?_, ?_⟩
    · rw [Pipe.Bounded, hdrain.count]
      exact (Nat.sub_le _ _).trans hb
    · rw [if_pos rfl, hdrain.taken, hdrain.buffered, hs, List.append_assoc, List.take_append_drop]
  · rw [if_neg (Ne.symm hl)]
    exact hi l Q hQ

theorem StreamInv.got_nil (hi : StreamInv tr s) (hpipe : s'.pipe = s.pipe) :
    StreamInv (⟨s, a, .got k [] v⟩ :: tr) s' := by
  intro l Q hQ
  rw [hpipe] at hQ
  simpa [stored, fetched] using hi l Q hQ

theorem StreamInv.made {fds : Option (Fin nOFile × Fin nOFile)} {data : Fin pipeSize → UInt8}
    (hi : StreamInv tr s) (hpipe : s'.pipe = (s.setPipe k (some (.init data))).pipe) :
    StreamInv (⟨s, a, .made k fds⟩ :: tr) s' := by
  intro l Q hQ
  rw [hpipe, setPipe_pipe] at hQ
  simp only [stored, fetched]
  split_ifs at hQ with hl
  · obtain rfl := Option.some.inj hQ
    simp [hl, Pipe.Bounded, ← Pipe.length_buffered]
  · rw [if_neg (Ne.symm hl), if_neg (Ne.symm hl)]
    exact hi l Q hQ

theorem StreamInv.closed {w : Bool} (hi : StreamInv tr s) (hP : s.pipe k = some P)
    (hpipe : s'.pipe = (s.setPipe k (if (P.close w).readopen = false ∧
      (P.close w).writeopen = false then none else some (P.close w))).pipe) :
    StreamInv (⟨s, a, .closed k w⟩ :: tr) s' := by
  intro l Q hQ
  rw [hpipe, setPipe_pipe] at hQ
  simp only [stored, fetched]
  split_ifs at hQ with hl hboth
  · subst hl
    obtain rfl := Option.some.inj hQ
    obtain ⟨hb, hs⟩ := hi l P hP
    rw [Pipe.Bounded, ← Pipe.length_buffered, Pipe.buffered_close, Pipe.length_buffered]
    exact ⟨hb, hs⟩
  · exact hi l Q hQ

theorem StreamInv.silent (hi : StreamInv tr s) (hr : r = .unit ∨ ∃ v, r = .value v)
    (hpipe : s'.pipe = s.pipe) : StreamInv (⟨s, a, r⟩ :: tr) s' := by
  intro l Q hQ
  rw [hpipe] at hQ
  rcases hr with rfl | ⟨v, rfl⟩ <;> exact hi l Q hQ

theorem FileTrans.streamInv (h : FileTrans s a r s') (hi : StreamInv tr s) :
    StreamInv (⟨s, a, r⟩ :: tr) s' := by
  cases h with
  | same a v => exact hi.silent (.inr ⟨v, rfl⟩) rfl
  | noFds p rf wf k data hp hk | made p rf wf k data fd₀ fd₁ hp hk h₀ h₁ => exact hi.made rfl
  | closePipe p k w files exit P hp hP => exact hi.closed hP rfl
  | write p k n rest P ha hP h =>
    obtain ⟨v, rfl⟩ := h.ret
    exact hi.wrote hP h.pipe.1
  | read p k n P ha hP h =>
    cases h with
    | killed he hw hk => exact hi.got_nil rfl
    | empty he hw hk => exact hi.got_nil rfl
    | done h => exact hi.got hP rfl
  | dup p fd i fd' f hp hf hfd => exact hi.silent (.inr ⟨_, rfl⟩) rfl
  | _ => exact hi.silent (.inl rfl) rfl

end

/-- Why a process sleeps. -/
def Blocked (tr : List (Event Files FileStep FileRet)) (s : Files) (p : Fin nProc) :
    ℕ × PipeChan → Prop
  | (k, .nwrite) => s.killed p = false ∧ (s.proc p).call.uses = some (k, true) ∧
      ∃ P, s.pipe k = some P ∧ P.Full ∧ P.readopen = true
  | (k, .nread) => s.killed p = false ∧ (s.proc p).call.uses = some (k, false) ∧
      ∃ P, s.pipe k = some P ∧ P.writeopen = true ∧ (P.Empty ∨ leftBehind k tr = true)

structure SleepInv (tr : List (Event Files FileStep FileRet)) (s : Files) : Prop where
  grounded : Grounded (Blocked tr s) s.asleep
  apart : ∀ p q k, s.asleep p = some (k, .nwrite) → s.asleep q ≠ some (k, .nread)

section

variable {tr : List (Event Files FileStep FileRet)} {s s' : Files} {a : FileStep} {r : FileRet}
  {p q : Fin nProc} {k l n : ℕ} {rest bs : List UInt8} {P : Pipe} {v : Option ℤ}

theorem Pipe.fill_of_full (h : P.Full) : P.fill rest = (0, P) := by
  cases rest with
  | nil => rfl
  | cons b bs => rw [Pipe.fill, if_pos h]

theorem Pipe.fill_of_zero (h : (P.fill rest).1 = 0) : (P.fill rest).2 = P := by
  cases rest with
  | nil => rfl
  | cons b bs =>
    rw [Pipe.fill] at h ⊢
    split_ifs at h ⊢
    rfl

theorem Pipe.drain_of_empty (h : P.Empty) : (P.drain n).2 = P := by
  cases n with
  | zero => rfl
  | succ n => rw [Pipe.drain, if_pos h]

theorem Pipe.not_full_of_empty (h : P.Empty) : ¬P.Full := by
  rw [Pipe.full_iff_count, Pipe.empty_iff_count.mp h]
  decide

theorem Pipe.writeopen_fill : (P.fill rest).2.writeopen = P.writeopen :=
  congrFun (P.isOpen_fill rest) true

theorem Pipe.readopen_fill : (P.fill rest).2.readopen = P.readopen :=
  congrFun (P.isOpen_fill rest) false

theorem Pipe.writeopen_drain : (P.drain n).2.writeopen = P.writeopen :=
  congrFun (P.isOpen_drain n) true

theorem Pipe.fill_full (hb : P.Bounded) (hm : (P.fill rest).1 ≠ rest.length) :
    (P.fill rest).2.Full := by
  have hfill := Pipe.fill_filled hb rest
  have hstored := hfill.stored
  have hb' : P.count ≤ pipeSize := hb
  rw [Pipe.full_iff_count, hfill.count]
  omega

theorem Blocked.mono {tr' : List (Event Files FileStep FileRet)} {c : PipeChan}
    (h : Blocked tr s q (l, c)) (hk : s'.killed q = s.killed q)
    (hc : (s'.proc q).call = (s.proc q).call) (hp : s'.pipe l = s.pipe l)
    (hl : leftBehind l tr' = leftBehind l tr) : Blocked tr' s' q (l, c) := by
  cases c with
  | nread =>
    obtain ⟨h₁, h₂, P, hP, h₃⟩ := h
    exact ⟨hk.trans h₁, by rw [hc, h₂], P, hp.trans hP, by rwa [hl]⟩
  | nwrite =>
    obtain ⟨h₁, h₂, P, hP, h₃⟩ := h
    exact ⟨hk.trans h₁, by rw [hc, h₂], P, hp.trans hP, h₃⟩

theorem Blocked.uses {c : ℕ × PipeChan} (h : Blocked tr s q c) :
    (s.proc q).call.uses ≠ none := by
  obtain ⟨k, _ | _⟩ := c
  · simp [h.2.1]
  · simp [h.2.1]

/-- A process outside `pipewrite` and `piperead` is not asleep. -/
theorem SleepInv.awake (hi : SleepInv tr s) (h : (s.proc p).call.uses = none) :
    s.asleep p = none := by
  by_contra hne
  obtain ⟨c, hc⟩ := Option.ne_none_iff_exists'.mp hne
  exact (hi.grounded p c hc).uses h

/-- A step of a process that is awake leaves the calls of the sleepers alone. -/
theorem call_of_asleep {fp : FProc} {c : ℕ × PipeChan} (hproc : s'.proc = (s.setProc p fp).proc)
    (hp : s.asleep p = none) (hq : s.asleep q = some c) : (s'.proc q).call = (s.proc q).call := by
  have hqp : q ≠ p := by
    rintro rfl
    simp [hp] at hq
  rw [hproc, setProc_proc, if_neg hqp]

theorem SleepInv.silent (hi : SleepInv tr s) (hasleep : s'.asleep = s.asleep)
    (hpipe : s'.pipe = s.pipe) (hkilled : ∀ q, s.asleep q ≠ none → s'.killed q = s.killed q)
    (hcall : ∀ q c, s.asleep q = some c → (s'.proc q).call = (s.proc q).call)
    (hleft : ∀ l, leftBehind l (⟨s, a, r⟩ :: tr) = leftBehind l tr) :
    SleepInv (⟨s, a, r⟩ :: tr) s' := by
  refine ⟨fun q c hq => ?_, hasleep ▸ hi.apart⟩
  rw [hasleep] at hq
  exact (hi.grounded q c hq).mono (hkilled q (by simp [hq])) (hcall q c hq) (by rw [hpipe])
    (hleft c.1)

theorem SleepInv.made {fds : Option (Fin nOFile × Fin nOFile)} {data : Fin pipeSize → UInt8}
    {fp : FProc} (hi : SleepInv tr s) (hp : s.asleep p = none) (hk : s.pipe k = none)
    (hasleep : s'.asleep = s.asleep) (hkilled : s'.killed = s.killed)
    (hproc : s'.proc = (s.setProc p fp).proc)
    (hpipe : s'.pipe = (s.setPipe k (some (.init data))).pipe) :
    SleepInv (⟨s, a, .made k fds⟩ :: tr) s' := by
  refine ⟨fun q c hq => ?_, hasleep ▸ hi.apart⟩
  rw [hasleep] at hq
  have hb := hi.grounded q c hq
  have hl : c.1 ≠ k := by
    intro hl
    obtain ⟨l, _ | _⟩ := c
    · obtain ⟨P, hP, -⟩ := hb.2.2
      simp [show l = k from hl, hk] at hP
    · obtain ⟨P, hP, -⟩ := hb.2.2
      simp [show l = k from hl, hk] at hP
  refine hb.mono (by rw [hkilled]) (call_of_asleep hproc hp hq) ?_ ?_
  · rw [hpipe, setPipe_pipe, if_neg hl]
  · simp [leftBehind, Ne.symm hl]

/-- A section of the pipe on page `k` that wakes the sleepers on some of its channels, when the
others still have their reason. -/
theorem SleepInv.after {fp : FProc} (hi : SleepInv tr s) (woken : PipeChan → Prop)
    (hp : s.asleep p = none) (hkilled : s'.killed = s.killed)
    (hproc : s'.proc = (s.setProc p fp).proc)
    (hasleep : ∀ q l c, s'.asleep q = some (l, c) → s.asleep q = some (l, c) ∧ (l = k → ¬woken c))
    (hpipe : ∀ l, l ≠ k → s'.pipe l = s.pipe l)
    (hleft : ∀ l, l ≠ k → leftBehind l (⟨s, a, r⟩ :: tr) = leftBehind l tr)
    (hother : ∀ q c, ¬woken c → (s'.proc q).call = (s.proc q).call → Blocked tr s q (k, c) →
      Blocked (⟨s, a, r⟩ :: tr) s' q (k, c)) : SleepInv (⟨s, a, r⟩ :: tr) s' := by
  refine ⟨fun q c hq => ?_, fun q q' l hq hq' => ?_⟩
  · obtain ⟨l, c⟩ := c
    obtain ⟨hq, hnot⟩ := hasleep q l c hq
    have hb := hi.grounded q _ hq
    have hcall := call_of_asleep hproc hp hq
    by_cases hl : l = k
    · subst hl
      exact hother q c (hnot rfl) hcall hb
    · exact hb.mono (by rw [hkilled]) hcall (hpipe l hl) (hleft l hl)
  · exact hi.apart q q' l (hasleep q l _ hq).1 (hasleep q' l _ hq').1

theorem asleep_wake {d : PipeChan} (q : Fin nProc) (l : ℕ) (c : PipeChan)
    (h : wake s.asleep (k, d) q = some (l, c)) :
    s.asleep q = some (l, c) ∧ (l = k → ¬c = d) := by
  obtain ⟨hq, hne⟩ := wake_eq_some.mp h
  exact ⟨hq, fun hl hc => hne (by rw [hl, hc])⟩

theorem SleepInv.sleep {c : PipeChan} (hi : SleepInv tr s) (hb : Blocked tr s p (k, c))
    (hapart : ∀ q d, d ≠ c → s.asleep q ≠ some (k, d)) : SleepInv tr (s.sleep p k c) := by
  refine ⟨hi.grounded.sleep hb, fun q q' l hq hq' => ?_⟩
  simp only [Files.sleep, Function.update_apply] at hq hq'
  split_ifs at hq hq' with hqp hq'p
  · simp_all
  · obtain ⟨rfl, rfl⟩ : k = l ∧ c = .nwrite := by simpa using hq
    exact hapart q' .nread (by simp) hq'
  · obtain ⟨rfl, rfl⟩ : k = l ∧ c = .nread := by simpa using hq'
    exact hapart q .nwrite (by simp) hq
  · exact hi.apart q q' l hq hq'

theorem leftBehind_wrote (h : l ≠ k) :
    leftBehind l (⟨s, a, .wrote k bs v⟩ :: tr) = leftBehind l tr := by
  simp [leftBehind, Ne.symm h]

theorem setPipe_of_ne {Q : Option Pipe} (h : l ≠ k) : (s.setPipe k Q).pipe l = s.pipe l := by
  rw [setPipe_pipe, if_neg h]

/-- A writer that fills the pipe up or goes to sleep does not disturb the other writers. -/
theorem Blocked.fill_nwrite {tr' : List (Event Files FileStep FileRet)}
    (hP : s.pipe k = some P) (hpipe : s'.pipe = (s.setPipe k (some (P.fill rest).2)).pipe)
    (hkilled : s'.killed = s.killed) (hcall : (s'.proc q).call = (s.proc q).call)
    (h : Blocked tr s q (k, .nwrite)) : Blocked tr' s' q (k, .nwrite) := by
  obtain ⟨h₁, h₂, Q, hQ, hfull, hread⟩ := h
  obtain rfl : P = Q := Option.some.inj (hP.symm.trans hQ)
  refine ⟨by rw [hkilled, h₁], by rw [hcall, h₂], P, ?_, hfull, hread⟩
  rw [hpipe, setPipe_pipe, if_pos rfl, Pipe.fill_of_full hfull]

theorem SleepInv.write (hi : SleepInv tr s) (hs : StreamInv tr s) (hp : s.asleep p = none)
    (hP : s.pipe k = some P) (h : WriteEnd s p k n rest P r s') :
    SleepInv (⟨s, a, r⟩ :: tr) s' := by
  cases h with
  | done hm =>
    refine hi.after (· = .nread) hp rfl rfl asleep_wake (fun l hl => setPipe_of_ne hl)
      (fun l hl => leftBehind_wrote hl) fun q c hc hcall hb => ?_
    obtain rfl : c = .nwrite := by cases c <;> simp_all
    exact hb.fill_nwrite hP rfl rfl hcall
  | broken hm hbr =>
    refine hi.after (fun _ => False) hp rfl rfl (fun q l c hq => ⟨hq, fun _ => id⟩)
      (fun l hl => setPipe_of_ne hl) (fun l hl => leftBehind_wrote hl) fun q c hc hcall hb => ?_
    cases c with
    | nwrite => exact hb.fill_nwrite hP rfl rfl hcall
    | nread =>
      obtain ⟨h₁, h₂, Q, hQ, hw, hor⟩ := hb
      obtain rfl : P = Q := Option.some.inj (hP.symm.trans hQ)
      refine ⟨h₁, by rw [hcall, h₂], (P.fill rest).2, ?_, ?_, ?_⟩
      · simp
      · rw [Pipe.writeopen_fill, hw]
      · -- either nothing was stored or what was stored is left behind
        by_cases hz : (P.fill rest).1 = 0
        · rw [Pipe.fill_of_zero hz]
          exact hor.imp id fun hl => by simp [leftBehind, hl]
        · right
          have hne : rest ≠ [] := by
            rintro rfl
            exact hz rfl
          simp [leftBehind, hz, hne]
  | full hm hr hk =>
    have hwoken : SleepInv (⟨s, a, .wrote k (rest.take (P.fill rest).1) none⟩ :: tr)
        (((s.setPipe k (some (P.fill rest).2)).wakeup k .nread).setCall p
          (.writing k n (rest.drop (P.fill rest).1))) := by
      refine hi.after (· = .nread) hp rfl rfl asleep_wake (fun l hl => setPipe_of_ne hl)
        (fun l hl => leftBehind_wrote hl) fun q c hc hcall hb => ?_
      obtain rfl : c = .nwrite := by cases c <;> simp_all
      exact hb.fill_nwrite hP rfl rfl hcall
    refine hwoken.sleep (p := p) (k := k) (c := .nwrite) ⟨hk, ?_, (P.fill rest).2, ?_, ?_, ?_⟩ ?_
    · simp [FileCall.uses]
    · simp
    · exact Pipe.fill_full (hs k P hP).1 hm
    · rw [Pipe.readopen_fill, hr]
    · intro q d hd hq
      obtain rfl : d = .nread := by cases d <;> simp_all
      exact (wake_eq_some.mp hq).2 rfl

theorem SleepInv.read (hi : SleepInv tr s) (hp : s.asleep p = none) (hP : s.pipe k = some P)
    (h : ReadEnd s p k n P r s') : SleepInv (⟨s, a, r⟩ :: tr) s' := by
  cases h with
  | killed he hw hk =>
    exact hi.silent rfl rfl (fun _ _ => rfl) (fun q c hq => call_of_asleep rfl hp hq) fun _ => rfl
  | empty he hw hk =>
    have hcall : SleepInv (⟨s, a, .got k [] none⟩ :: tr) (s.setCall p (.reading k n)) :=
      hi.silent rfl rfl (fun _ _ => rfl) (fun q c hq => call_of_asleep rfl hp hq) fun _ => rfl
    refine hcall.sleep (p := p) (k := k) (c := .nread) ⟨hk, ?_, P, hP, hw, .inl he⟩ ?_
    · simp [FileCall.uses]
    · intro q d hd hq
      obtain rfl : d = .nwrite := by cases d <;> simp_all
      obtain ⟨-, -, Q, hQ, hfull, -⟩ := hi.grounded q _ hq
      obtain rfl : P = Q := Option.some.inj (hP.symm.trans hQ)
      exact Pipe.not_full_of_empty he hfull
  | done h =>
    refine hi.after (· = .nwrite) hp rfl rfl asleep_wake (fun l hl => setPipe_of_ne hl)
      (fun l hl => rfl) fun q c hc hcall hb => ?_
    obtain rfl : c = .nread := by cases c <;> simp_all
    obtain ⟨h₁, h₂, Q, hQ, hw, hor⟩ := hb
    obtain rfl : P = Q := Option.some.inj (hP.symm.trans hQ)
    refine ⟨h₁, by rw [hcall, h₂], (P.drain n).2, ?_, ?_, ?_⟩
    · simp
    · rw [Pipe.writeopen_drain, hw]
    · refine hor.imp (fun he => ?_) id
      rwa [Pipe.drain_of_empty he]

theorem SleepInv.closePipe {w : Bool} {fp : FProc} (hi : SleepInv tr s) (hp : s.asleep p = none)
    (hP : s.pipe k = some P) (hkilled : s'.killed = s.killed)
    (hproc : s'.proc = (s.setProc p fp).proc)
    (hasleep : s'.asleep = wake s.asleep (k, if w then .nread else .nwrite))
    (hpipe : s'.pipe = (s.setPipe k (if (P.close w).readopen = false ∧
      (P.close w).writeopen = false then none else some (P.close w))).pipe) :
    SleepInv (⟨s, a, .closed k w⟩ :: tr) s' := by
  refine hi.after (· = if w then .nread else .nwrite) hp hkilled hproc
    (fun q l c hq => asleep_wake q l c (hasleep ▸ hq))
    (fun l hl => by rw [hpipe, setPipe_of_ne hl]) (fun l hl => by simp [leftBehind, Ne.symm hl])
    fun q c hc hcall hb => ?_
  cases w with
  | true =>
    obtain rfl : c = .nwrite := by cases c <;> simp_all
    obtain ⟨h₁, h₂, Q, hQ, hfull, hr⟩ := hb
    obtain rfl : P = Q := Option.some.inj (hP.symm.trans hQ)
    refine ⟨by rw [hkilled, h₁], by rw [hcall, h₂], P.close true, ?_, hfull, hr⟩
    simp [hpipe, Pipe.close, hr]
  | false =>
    obtain rfl : c = .nread := by cases c <;> simp_all
    obtain ⟨h₁, h₂, Q, hQ, hw, hor⟩ := hb
    obtain rfl : P = Q := Option.some.inj (hP.symm.trans hQ)
    refine ⟨by rw [hkilled, h₁], by rw [hcall, h₂], P.close false, ?_, hw, ?_⟩
    · simp [hpipe, Pipe.close, hw]
    · exact hor.imp id fun hl => by simpa [leftBehind] using hl

theorem EntersWrite.awake {a : FileStep} (h : EntersWrite s p k n rest a) (hi : SleepInv tr s) :
    s.asleep p = none := by
  cases h with
  | call fd addr writei i f hp hf hw ht => exact hi.awake (by rw [hp]; rfl)
  | resume n rest hp ha => exact ha

theorem EntersRead.awake {a : FileStep} (h : EntersRead s p k n a) (hi : SleepInv tr s) :
    s.asleep p = none := by
  cases h with
  | call fd n readi i f hp hf hr ht => exact hi.awake (by rw [hp]; rfl)
  | resume n hp ha => exact ha

theorem SleepInv.fork {c : Fin nProc} (hi : SleepInv tr s) (hasleep : s'.asleep = s.asleep)
    (hpipe : s'.pipe = s.pipe) (hkilled : s'.killed = s.killed)
    (hp : (s.proc p).call.uses = none) (hc : (s.proc c).call.uses = none)
    (hproc : ∀ q, q ≠ p → q ≠ c → s'.proc q = s.proc q) :
    SleepInv (⟨s, a, .unit⟩ :: tr) s' := by
  refine hi.silent hasleep hpipe (fun _ _ => by rw [hkilled]) (fun q ch hq => ?_) fun _ => rfl
  rw [hproc q]
  · rintro rfl
    simp [hi.awake hp] at hq
  · rintro rfl
    simp [hi.awake hc] at hq

theorem FileTrans.sleepInv (h : FileTrans s a r s') (hc : ChildInv s) (hs : StreamInv tr s)
    (hi : SleepInv tr s) : SleepInv (⟨s, a, r⟩ :: tr) s' := by
  have hquiet : ∀ {p c fp}, (s.proc p).call = c → c.uses = none → r = .unit ∨ (∃ v, r = .value v) →
      s'.asleep = s.asleep → s'.pipe = s.pipe →
      (∀ q, s.asleep q ≠ none → s'.killed q = s.killed q) →
      s'.proc = (s.setProc p fp).proc → SleepInv (⟨s, a, r⟩ :: tr) s' := by
    intro p c fp hp hu hr hasleep hpipe hkilled hproc
    have hawake := hi.awake (p := p) (by rw [hp, hu])
    refine hi.silent hasleep hpipe hkilled (fun q c hq => call_of_asleep hproc hawake hq) ?_
    rcases hr with rfl | ⟨v, rfl⟩ <;> exact fun _ => rfl
  cases h with
  | same a v => exact hi.silent rfl rfl (fun _ _ => rfl) (fun _ _ _ => rfl) fun _ => rfl
  | noFds p rf wf k data hp hk =>
    exact hi.made (hi.awake (by rw [hp]; rfl)) hk rfl rfl rfl rfl
  | made p rf wf k data fd₀ fd₁ hp hk h₀ h₁ =>
    exact hi.made (hi.awake (by rw [hp]; rfl)) hk rfl rfl rfl rfl
  | dup p fd i fd' f hp hf hfd =>
    exact hquiet hp rfl (.inr ⟨_, rfl⟩) rfl rfl (fun _ _ => rfl) rfl
  | fork p c hp hunused =>
    refine hi.fork rfl rfl rfl (p := p) (c := c) (by rw [hp]; rfl) (by rw [hunused]; rfl) ?_
    intro q hqp hqc
    simp [hqp, hqc]
  | forkCopy p c i f hp hf =>
    have hemb := (hc.embryo p c i hp).1
    refine hi.fork rfl rfl rfl (p := p) (c := c) (by rw [hp]; rfl) (by rw [hemb]; rfl) ?_
    intro q hqp hqc
    simp [hqp, hqc]
  | forkEnd p c i hp =>
    have hemb := (hc.embryo p c i hp).1
    refine hi.fork rfl rfl rfl (p := p) (c := c) (by rw [hp]; rfl) (by rw [hemb]; rfl) ?_
    intro q hqp hqc
    simp [hqp, hqc]
  | closePipe p k w files exit P hp hP =>
    exact hi.closePipe (hi.awake (by rw [hp]; rfl)) hP rfl rfl rfl rfl
  | gone p hp =>
    have hawake := hi.awake (p := p) (by rw [hp]; rfl)
    refine hquiet hp rfl (.inl rfl) rfl rfl (fun q hq => ?_) rfl
    have hqp : q ≠ p := by
      rintro rfl
      exact hq hawake
    exact Function.update_of_ne hqp _ _
  | write p k n rest P ha hP h => exact hi.write hs (ha.awake hi) hP h
  | read p k n P ha hP h => exact hi.read (ha.awake hi) hP h
  | kill p =>
    refine ⟨hi.grounded.rouse fun q c hqp hq hb => ?_, fun q q' l hq hq' => ?_⟩
    · exact hb.mono (Function.update_of_ne hqp _ _) rfl rfl rfl
    · dsimp only at hq hq'
      rw [Function.update_apply] at hq hq'
      split_ifs at hq hq'
      exact hi.apart q q' l hq hq'
  | alloc p rf hp hf | noFile p page rf hp | alloc₂ p page rf wf hp hf | noPage p rf wf hp
  | openNoFd p readable writable f hp hf | openFile p readable writable f fd hp hf hfd
  | openEnd p f readable writable hp | close p fd i f hp hf | forkSkip p c i hp hn | exit p hp
  | unref p f files exit hp href | closeFile p f files exit hp href | back p hp =>
    exact hquiet hp rfl (.inl rfl) rfl rfl (fun _ _ => rfl) rfl

end

section

variable {tr : List (Event Files FileStep FileRet)} {s : Files}

theorem pipe_invariant (h : FileRun tr s) : StreamInv tr s ∧ SleepInv tr s := by
  have hall : FilesInv s ∧ StreamInv tr s ∧ SleepInv tr s := by
    refine h.invariant_history (fun tr s => FilesInv s ∧ StreamInv tr s ∧ SleepInv tr s) ?_ ?_
    · rintro _ rfl
      refine ⟨filesInv_init, fun k P hP => ?_, fun p c hp => ?_, fun p q k hp => ?_⟩
      · simp [filesInit] at hP
      · simp [filesInit] at hp
      · simp [filesInit] at hp
    · rintro tr s a r s' ⟨hi, hs, hw⟩ - he
      have ht := execFile_trans he
      exact ⟨ht.filesInv hi, ht.streamInv hs, ht.sleepInv hi.child hs hw⟩
  exact hall.2

/-- In every run, what has been taken out of a pipe and what waits in it make up what was stored,
in the same order, and at most `PIPESIZE` bytes wait. -/
theorem pipe_delivers_in_order (h : FileRun tr s) {k : ℕ} {P : Pipe} (hP : s.pipe k = some P) :
    stored k tr = fetched k tr ++ P.buffered ∧ P.buffered.length ≤ pipeSize := by
  obtain ⟨hb, hs⟩ := (pipe_invariant h).1 k P hP
  rw [Pipe.length_buffered]
  exact ⟨hs, hb⟩

/-- The parent stores three bytes in the pipe it shares with its child. -/
def threeBytes (p child : Fin nProc) : List FileStep :=
  sharePipe p child ++ [.write p 1 [1, 2, 3] []]

theorem pipe_delivers_in_order_threeBytes : ∃ tr s P, FileRun tr s ∧ s.pipe 7 = some P ∧
    stored 7 tr = [1, 2, 3] ∧ P.buffered = [1, 2, 3] := by
  have h : ∃ tr s, FileRun tr s ∧ decide ((s.pipe 7).isSome = true ∧ stored 7 tr = [1, 2, 3] ∧
      fetched 7 tr = []) = true :=
    Run.exists_of_replayCheck (threeBytes 0 1) rfl (by decide +kernel)
  obtain ⟨tr, s, hrun, hp⟩ := h
  obtain ⟨hsome, hst, hfe⟩ := of_decide_eq_true hp
  obtain ⟨P, hP⟩ := Option.isSome_iff_exists.mp hsome
  have horder := (pipe_delivers_in_order hrun hP).1
  rw [hst, hfe] at horder
  exact ⟨tr, s, P, hrun, hP, hst, horder.symm⟩

/-- In every run, a writer sleeps only at a full pipe that still has a reader, and a reader only
at an empty pipe that still has a writer, unless a killed writer has left bytes behind. A reader
and a writer of the same pipe never sleep at the same time. -/
theorem pipe_sleepers_have_reason (h : FileRun tr s) (k : ℕ) :
    (∀ p, s.asleep p = some (k, .nwrite) → s.killed p = false ∧ (∃ q, s.Reaches q k false) ∧
      ∃ P, s.pipe k = some P ∧ P.buffered.length = pipeSize) ∧
    (∀ p, s.asleep p = some (k, .nread) → s.killed p = false ∧ (∃ q, s.Reaches q k true) ∧
      ∃ P, s.pipe k = some P ∧ (P.buffered = [] ∨ leftBehind k tr = true)) ∧
    ∀ p q, ¬(s.asleep p = some (k, .nwrite) ∧ s.asleep q = some (k, .nread)) := by
  have hopen := (filesInv_of_run h).open_iff k
  have hi := (pipe_invariant h).2
  refine ⟨fun p hp => ?_, fun p hp => ?_, fun p q hpq => hi.apart p q k hpq.1 hpq.2⟩
  · obtain ⟨hk, -, P, hP, hfull, hr⟩ := hi.grounded p _ hp
    rw [Pipe.full_iff_count, ← Pipe.length_buffered] at hfull
    exact ⟨hk, (hopen false).mp ⟨P, hP, hr⟩, P, hP, hfull⟩
  · obtain ⟨hk, -, P, hP, hw, hor⟩ := hi.grounded p _ hp
    rw [Pipe.empty_iff] at hor
    exact ⟨hk, (hopen true).mp ⟨P, hP, hw⟩, P, hP, hor⟩

/-- The child sleeps in `read`; the parent, killed meanwhile, fills the pipe, and its `write`
fails before the child is woken. -/
def strandReader (p child : Fin nProc) : List FileStep :=
  sharePipe p child ++ [.read child 0 10 0, .kill p, .write p 1 (List.replicate 513 0) []]

theorem pipe_sleepers_have_reason_strandReader : ∃ tr s, FileRun tr s ∧
    (s.asleep 1 = some (7, .nread) ∧ leftBehind 7 tr = true) ∧ ∃ q, s.Reaches q 7 true := by
  have h : ∃ tr s, FileRun tr s ∧
      decide (s.asleep 1 = some (7, .nread) ∧ leftBehind 7 tr = true) = true :=
    Run.exists_of_replayCheck (strandReader 0 1) rfl (by decide +kernel)
  obtain ⟨tr, s, hrun, hp⟩ := h
  obtain ⟨hsleep, hleft⟩ := of_decide_eq_true hp
  exact ⟨tr, s, hrun, ⟨hsleep, hleft⟩, ((pipe_sleepers_have_reason hrun 7).2.1 1 hsleep).2.1⟩

end

end SsuOs.Xv6
