import Mathlib.Data.List.FinRange
import Mathlib.Logic.Function.Iterate
import SsuOs.Xv6.Forks

/-! Whom the scheduler switches to: always a process of the highest priority, and processes of
equal priority in turn as long as its scan does not stop at a lesser one between them. -/
namespace SsuOs.Xv6
open Kernel Lib

/-- The process that a step of the scheduler switches to. -/
def switchesTo (e : Event Kernel Step Ret) : Option (Fin nProc) :=
  if e.call = .scheduler then e.pre.scheduler.cur else none

def Runnable (k : Kernel) (i : Fin nProc) : Prop := (k.proc i).state = .runnable

instance (k : Kernel) (i : Fin nProc) : Decidable (Runnable k i) :=
  inferInstanceAs (Decidable (_ = _))

/-- `i` is runnable and no runnable process has a larger priority. -/
def TopRunnable (k : Kernel) (i : Fin nProc) : Prop :=
  Runnable k i ∧ ∀ j, Runnable k j → (k.proc j).priority ≤ (k.proc i).priority

instance (k : Kernel) (i : Fin nProc) : Decidable (TopRunnable k i) :=
  inferInstanceAs (Decidable (_ ∧ _))

section Highest

variable {k : Kernel} {p : Fin nProc}

theorem highestOf_max (k : Kernel) (l : List (Fin nProc)) (p : Fin nProc) :
    (k.proc p).priority ≤ (k.proc (highestOf k l p)).priority ∧
      ∀ j ∈ l, Runnable k j → (k.proc j).priority ≤ (k.proc (highestOf k l p)).priority := by
  induction l generalizing p with
  | nil => simp [highestOf]
  | cons a l ih =>
    simp only [highestOf, List.foldl_cons, List.forall_mem_cons]
    split_ifs with hs hlt
    · obtain ⟨hp, hl⟩ := ih p
      exact ⟨hp, fun hr => absurd hr hs, hl⟩
    · obtain ⟨ha, hl⟩ := ih a
      exact ⟨hlt.le.trans ha, fun _ => ha, hl⟩
    · obtain ⟨hp, hl⟩ := ih p
      exact ⟨hp, fun _ => (not_lt.mp hlt).trans hp, hl⟩

/-- Among equals the search keeps its start or finds the first one. -/
theorem highestOf_first {l : List (Fin nProc)} (hl : l.Pairwise (· < ·)) (p : Fin nProc) :
    highestOf k l p = p ∨ (k.proc p).priority < (k.proc (highestOf k l p)).priority ∧
      ∀ j ∈ l, Runnable k j → (k.proc j).priority = (k.proc (highestOf k l p)).priority →
        highestOf k l p ≤ j := by
  induction l generalizing p with
  | nil => simp [highestOf]
  | cons a l ih =>
    obtain ⟨hal, hl⟩ := List.pairwise_cons.mp hl
    simp only [highestOf, List.foldl_cons, List.forall_mem_cons]
    split_ifs with hs hlt
    · rcases ih hl p with hp | ⟨hp, hfirst⟩
      · exact Or.inl hp
      · exact Or.inr ⟨hp, fun hr => absurd hr hs, hfirst⟩
    · right
      rcases ih hl a with ha | ⟨ha, hfirst⟩
      · change highestOf k l a = a at ha
        change _ < (k.proc (highestOf k l a)).priority ∧
          (_ → _ = (k.proc (highestOf k l a)).priority → highestOf k l a ≤ a) ∧
          ∀ j ∈ l, _ → _ → highestOf k l a ≤ j
        rw [ha]
        exact ⟨hlt, fun _ _ => le_rfl, fun j hj _ _ => (hal j hj).le⟩
      · exact ⟨hlt.trans ha, fun _ he => absurd he ha.ne, hfirst⟩
    · rcases ih hl p with hp | ⟨hp, hfirst⟩
      · exact Or.inl hp
      · refine Or.inr ⟨hp, fun _ he => ?_, hfirst⟩
        exact absurd (he ▸ hp) hlt

theorem highest_top (hp : Runnable k p) : TopRunnable k (k.highest p) :=
  ⟨highest_runnable hp, fun j => (highestOf_max k _ p).2 j (List.mem_finRange j)⟩

theorem highest_of_top (hp : TopRunnable k p) : k.highest p = p := by
  rcases highestOf_first (k := k) (List.pairwise_lt_finRange nProc) p with h | ⟨h, -⟩
  · exact h
  · have hle := hp.2 _ (highest_runnable hp.1)
    exact absurd h (not_lt.mpr hle)

theorem highest_le (hp : Runnable k p) (hn : ¬TopRunnable k p) {j : Fin nProc}
    (hj : TopRunnable k j) : k.highest p ≤ j := by
  have htop := highest_top hp
  rcases highestOf_first (k := k) (List.pairwise_lt_finRange nProc) p with h | ⟨-, hfirst⟩
  · change k.highest p = p at h
    rw [h] at htop
    exact absurd htop hn
  · exact hfirst j (List.mem_finRange j) hj.1 (le_antisymm (htop.2 j hj.1) (hj.2 _ htop.1))

end Highest

section Scheduler

variable {k : Kernel}

/-- The three things a round of the scan can do. -/
theorem scheduler_cases (hc : k.cur = none) :
    (∃ c : Fin nProc, k.cursor = c ∧ ¬Runnable k c ∧ k.scheduler.cur = none ∧
      k.scheduler.cursor = c + 1) ∨
    (∃ c : Fin nProc, k.cursor = c ∧ Runnable k c ∧ k.scheduler.cur = some (k.highest c)) ∨
    (nProc ≤ k.cursor ∧ k.scheduler.cur = none ∧ k.scheduler.cursor = 0) := by
  unfold Kernel.scheduler
  split_ifs with h hs
  · exact Or.inl ⟨⟨k.cursor, h⟩, rfl, hs, hc, rfl⟩
  · exact Or.inr (Or.inl ⟨⟨k.cursor, h⟩, rfl, not_not.mp hs, rfl⟩)
  · exact Or.inr (Or.inr ⟨not_lt.mp h, hc, rfl⟩)

theorem scheduler_top {i : Fin nProc} (hc : k.cur = none) (hs : k.scheduler.cur = some i) :
    TopRunnable k i := by
  rcases scheduler_cases hc with ⟨c, -, -, hn, -⟩ | ⟨c, -, hr, hd⟩ | ⟨-, hn, -⟩
  · simp [hn] at hs
  · rw [hd] at hs
    rw [← Option.some.inj hs]
    exact highest_top hr
  · simp [hn] at hs

theorem exec_scheduler {k' : Kernel} {r : Ret} (he : exec .scheduler k = .ok (r, k')) :
    k.cur = none ∧ k' = k.scheduler := by
  cases hc : k.cur with
  | some i => simp [exec, hc] at he
  | none =>
    have h : Ret.none = r ∧ k.scheduler = k' := by simpa [exec, hc] using he
    exact ⟨rfl, h.2.symm⟩

/-- While the scan is inside the table, the lock is held and interrupts are off. -/
theorem exec_refused {a : Step} (hc : k.cur = none) (hlt : k.cursor < nProc)
    (ha : a ≠ .scheduler) : exec a k = .error .notEnabled := by
  have hint : ¬k.Interruptible := by
    simp only [Interruptible, hc]
    omega
  cases a <;> simp_all [exec]

theorem scheduler_iterate {n : ℕ} (h₀ : k.cursor = 0) (hn : n ≤ nProc)
    (hs : ∀ i : Fin nProc, (i : ℕ) < n → ¬Runnable k i) :
    Kernel.scheduler^[n] k = { k with cursor := n } := by
  induction n with
  | zero =>
    rw [Function.iterate_zero, id_eq, ← h₀]
  | succ n ih =>
    have hlt : n < nProc := hn
    have hnr : (k.proc ⟨n, hlt⟩).state ≠ .runnable := hs ⟨n, hlt⟩ (Nat.lt_succ_self n)
    rw [Function.iterate_succ_apply', ih hlt.le fun i hi => hs i (hi.trans (Nat.lt_succ_self n))]
    simp only [Kernel.scheduler, dif_pos hlt, if_pos hnr]

end Scheduler

/-- In every run, whatever happens between the switches and wherever the scan stands, each process
switched to has the highest priority of all runnable ones. A pass that starts with a runnable
process switches to one within the table, and nothing else can happen before. -/
theorem dispatch_highest {tr : List (Event Kernel Step Ret)} {k : Kernel} (h : KernelRun tr k) :
    (∀ e ∈ tr, ∀ i, switchesTo e = some i → TopRunnable e.pre i) ∧
    (∀ c i, k.cur = none → { k with cursor := c }.scheduler.cur = some i → TopRunnable k i) ∧
    (k.cur = none → k.cursor = 0 → (∃ j, Runnable k j) →
      ∃ n i, n < nProc ∧ (Kernel.scheduler^[n + 1] k).cur = some i ∧ TopRunnable k i ∧
        ∀ m ≤ n, Kernel.scheduler^[m] k = { k with cursor := m } ∧
          ∀ a, a ≠ .scheduler → exec a (Kernel.scheduler^[m] k) = .error .notEnabled) := by
  refine ⟨?_, fun c i hc hs => ?_, fun hc h₀ hex => ?_⟩
  · induction h with
    | start => simp
    | step hr ha he ih =>
      refine List.forall_mem_cons.mpr ⟨fun i hi => ?_, ih⟩
      unfold switchesTo at hi
      split_ifs at hi with hcall
      dsimp only at hcall hi
      subst hcall
      exact scheduler_top (exec_scheduler he).1 hi
  · have htop : TopRunnable { k with cursor := c } i := scheduler_top hc hs
    exact htop
  · classical
    -- The pass stops at the first runnable entry.
    have hn : ∃ n, ∃ h : n < nProc, Runnable k ⟨n, h⟩ := by
      obtain ⟨j, hj⟩ := hex
      exact ⟨j, j.isLt, hj⟩
    obtain ⟨hlt, hrun⟩ := Nat.find_spec hn
    have hbefore : ∀ i : Fin nProc, (i : ℕ) < Nat.find hn → ¬Runnable k i := by
      intro i hi hr
      exact Nat.find_min hn hi ⟨i.isLt, hr⟩
    have hiter : ∀ m ≤ Nat.find hn, Kernel.scheduler^[m] k = { k with cursor := m } := by
      intro m hm
      exact scheduler_iterate h₀ (hm.trans hlt.le) fun i hi => hbefore i (hi.trans_le hm)
    refine ⟨Nat.find hn, k.highest ⟨Nat.find hn, hlt⟩, hlt, ?_, highest_top hrun, fun m hm => ?_⟩
    · rw [Function.iterate_succ_apply', hiter _ le_rfl]
      have hs : ¬(k.proc ⟨Nat.find hn, hlt⟩).state ≠ .runnable := not_not.mpr hrun
      simp only [Kernel.scheduler, dif_pos hlt, if_neg hs]
      rfl
    · refine ⟨hiter m hm, fun a ha => ?_⟩
      rw [hiter m hm]
      exact exec_refused hc (hm.trans_lt hlt) ha

/-- `init` makes a child and gives itself priority 0; the child yields. -/
def lesserParent : List Step := List.flatten
  [[.scheduler, .scheduler, .allocproc, .kalloc true, .copyuvm true, .commit, .setPrio 0, .yield],
    [.scheduler, .yield], List.replicate 63 .scheduler, [.scheduler]]

/-- The scan stops at `init`, and the child gets the CPU. -/
theorem dispatch_highest_lesserParent : ∃ tr e k, KernelRun (e :: tr) k ∧ e.pre.cursor = 0 ∧
    Runnable e.pre 0 ∧ (e.pre.proc 0).priority < (e.pre.proc 1).priority ∧
    switchesTo e = some 1 ∧ TopRunnable e.pre 1 := by
  have h : ∃ tr k, KernelRun tr k ∧ (tr.head?.any fun e => e.pre.cursor = 0 ∧
      Runnable e.pre 0 ∧ (e.pre.proc 0).priority < (e.pre.proc 1).priority ∧
      switchesTo e = some 1) = true :=
    Run.exists_of_replayCheck lesserParent rfl (by decide +kernel)
  obtain ⟨l, k, hrun, hcheck⟩ := h
  cases l with
  | nil => simp at hcheck
  | cons e tr =>
    obtain ⟨hcur, hr, hlt, hs⟩ := of_decide_eq_true hcheck
    exact ⟨tr, e, k, hrun, hcur, hr, hlt, hs,
      (dispatch_highest hrun).1 e List.mem_cons_self 1 hs⟩

/-- `a` and `b` are of equal priority, nobody runnable is above them, and both are runnable or
running. -/
structure Peers (a b : Fin nProc) (k : Kernel) : Prop where
  priority : (k.proc a).priority = (k.proc b).priority
  top : ∀ j, Runnable k j → (k.proc j).priority ≤ (k.proc a).priority
  left : Runnable k a ∨ (k.proc a).state = .running
  right : Runnable k b ∨ (k.proc b).state = .running

instance (a b : Fin nProc) (k : Kernel) : Decidable (Peers a b k) :=
  decidable_of_iff ((k.proc a).priority = (k.proc b).priority ∧
    (∀ j, Runnable k j → (k.proc j).priority ≤ (k.proc a).priority) ∧
    (Runnable k a ∨ (k.proc a).state = .running) ∧ (Runnable k b ∨ (k.proc b).state = .running))
    ⟨fun h => ⟨h.1, h.2.1, h.2.2.1, h.2.2.2⟩, fun h => ⟨h.priority, h.top, h.left, h.right⟩⟩

/-- When the scan stops at a runnable entry of less than the highest priority, the processes of
the highest priority all lie behind it or all lie in front of it. -/
def FairScan (k : Kernel) : Prop :=
  ∀ c : Fin nProc, k.cur = none → k.cursor = c → Runnable k c → ¬TopRunnable k c →
    (∀ i, TopRunnable k i → c < i) ∨ ∀ i, TopRunnable k i → i < c

instance (k : Kernel) : Decidable (FairScan k) := by
  unfold FairScan
  infer_instance

/-- Where the scan stands, or goes on when the process on the CPU gives it up. -/
def Kernel.scanPos (k : Kernel) : ℕ :=
  match k.cur with
  | some i => i + 1
  | none => k.cursor

/-- A scan at `p` comes to `b` before it comes to `a` again. -/
def Between (a b : Fin nProc) (p : ℕ) : Prop :=
  (a < b ∧ a < p ∧ p ≤ b) ∨ (b < a ∧ (a < p ∨ p ≤ b))

section RoundRobin

variable {k k' : Kernel} {a b : Fin nProc}

theorem between_succ (hab : a ≠ b) : Between a b (a + 1) := by
  have hne : (a : ℕ) ≠ b := fun h => hab (Fin.ext h)
  unfold Between
  simp only [Fin.lt_def]
  omega

theorem scanPos_of_none (hc : k.cur = none) : k.scanPos = k.cursor := by
  simp [scanPos, hc]

theorem scanPos_of_some {i : Fin nProc} (hc : k.cur = some i) : k.scanPos = i + 1 := by
  simp [scanPos, hc]

theorem scanPos_sched {i : Fin nProc} (hc : k.cur = some i) {k₁ : Kernel} :
    (k₁.sched i).scanPos = k.scanPos := by
  rw [scanPos_of_some hc]
  rfl

theorem Trans.scanPos_eq {s : Step} {r : Ret} (h : Trans k s r k') (hs : s ≠ .scheduler) :
    k'.scanPos = k.scanPos := by
  cases h with
  | advance => exact absurd rfl hs
  | dispatch => exact absurd rfl hs
  | nextPass => exact absurd rfl hs
  | exit i hc => exact scanPos_sched hc
  | sleep i c hc => exact scanPos_sched hc
  | yield i hc => exact scanPos_sched hc
  | waitSleep i hc => exact scanPos_sched hc
  | reap i j hc hw => cases hw <;> rfl
  | waitFail i hc hw => cases hw <;> rfl
  | _ => rfl

/-- A round of a fair scan from between the two peers switches to `b`, or stays between them and
does not switch to `a`. -/
theorem Between.scheduler (hf : ForkInv k) (hp : Peers a b k) (hfair : FairScan k)
    (hab : a ≠ b) (h : Between a b k.scanPos) (hc : k.cur = none) :
    k.scheduler.cur = some b ∨
      k.scheduler.cur ≠ some a ∧ Between a b k.scheduler.scanPos := by
  rw [scanPos_of_none hc] at h
  have hne : (a : ℕ) ≠ b := fun he => hab (Fin.ext he)
  have hra : Runnable k a := hp.left.resolve_right (hf.not_running hc a)
  have hrb : Runnable k b := hp.right.resolve_right (hf.not_running hc b)
  have hta : TopRunnable k a := ⟨hra, hp.top⟩
  have htb : TopRunnable k b := ⟨hrb, fun j hj => hp.priority ▸ hp.top j hj⟩
  unfold Between at h ⊢
  simp only [Fin.lt_def] at h ⊢
  rcases scheduler_cases hc with ⟨c, hcur, hnr, hn, hpos⟩ | ⟨c, hcur, hr, hd⟩ | ⟨hge, hn, hpos⟩
  · -- The skipped entry is not `b`.
    have hcb : (c : ℕ) ≠ b := fun he => hnr (Fin.ext he ▸ hrb)
    rw [scanPos_of_none hn, hpos, hn]
    exact Or.inr ⟨by simp, by omega⟩
  · rw [hd, scanPos_of_some hd]
    by_cases hb : k.highest c = b
    · exact Or.inl (by rw [hb])
    right
    have hbv : (k.highest c : ℕ) ≠ b := fun he => hb (Fin.ext he)
    have hpos : (k.highest c : ℕ) ≠ a ∧
        ((a : ℕ) < b ∧ (a : ℕ) < k.highest c + 1 ∧ (k.highest c : ℕ) + 1 ≤ b ∨
          (b : ℕ) < a ∧ ((a : ℕ) < k.highest c + 1 ∨ (k.highest c : ℕ) + 1 ≤ b)) := by
      by_cases htop : TopRunnable k c
      · rw [highest_of_top htop] at hbv ⊢
        omega
      · have hle : (k.highest c : ℕ) ≤ b := highest_le hr htop htb
        rcases hfair c hc hcur hr htop with hall | hall
        · have hca : (c : ℕ) < a := hall a hta
          have hcb : (c : ℕ) < b := hall b htb
          omega
        · have hac : (a : ℕ) < c := hall a hta
          have hbc : (b : ℕ) < c := hall b htb
          omega
    refine ⟨fun he => hpos.1 ?_, hpos.2⟩
    rw [Option.some.inj he]
  · rw [scanPos_of_none hn, hpos, hn]
    have := b.isLt
    exact Or.inr ⟨by simp, by omega⟩

theorem Between.step {s : Step} {r : Ret} (hf : ForkInv k) (hp : Peers a b k)
    (hfair : FairScan k) (hab : a ≠ b) (h : Between a b k.scanPos)
    (he : exec s k = .ok (r, k')) :
    switchesTo ⟨k, s, r⟩ = some b ∨
      switchesTo ⟨k, s, r⟩ ≠ some a ∧ Between a b k'.scanPos := by
  unfold switchesTo
  dsimp only
  split_ifs with hs
  · subst hs
    obtain ⟨hc, rfl⟩ := exec_scheduler he
    exact h.scheduler hf hp hfair hab hc
  · right
    rw [(exec_trans he).scanPos_eq hs]
    exact ⟨by simp, h⟩

/-- After a switch to `a` the scan is between `a` and `b`, and stays there until it switches
to `b`. -/
theorem between_of_run {tr mid : List (Event Kernel Step Ret)} {e : Event Kernel Step Ret}
    (h : KernelRun (mid ++ e :: tr) k) (hab : a ≠ b) (ha : switchesTo e = some a)
    (hp : ∀ x ∈ mid, Peers a b x.pre) (hfair : ∀ x ∈ mid, FairScan x.pre)
    (hb : ∀ x ∈ mid, switchesTo x ≠ some b) : Between a b k.scanPos := by
  apply h.since
  · intro k' _ he
    unfold switchesTo at ha
    split_ifs at ha with hs
    rw [hs] at he
    obtain ⟨-, rfl⟩ := exec_scheduler he
    rw [scanPos_of_some ha]
    exact between_succ hab
  · intro x hx tr' k' hr hbet he
    rcases hbet.step (forkInv_of_run hr) (hp x hx) (hfair x hx) hab he with hsw | ⟨-, hnext⟩
    · exact absurd hsw (hb x hx)
    · exact hnext

end RoundRobin

/-- Between two switches to `a`, its peer `b` gets the CPU, if every scan in between is fair. -/
theorem roundRobin_of_fairScan {tr mid tr' : List (Event Kernel Step Ret)}
    {e e' : Event Kernel Step Ret} {k : Kernel} {a b : Fin nProc}
    (h : KernelRun (tr' ++ e' :: (mid ++ e :: tr)) k) (hab : a ≠ b)
    (he : switchesTo e = some a) (he' : switchesTo e' = some a)
    (hp : ∀ x ∈ e' :: mid, Peers a b x.pre) (hfair : ∀ x ∈ e' :: mid, FairScan x.pre) :
    ∃ x ∈ mid, switchesTo x = some b := by
  obtain ⟨k', hrun⟩ := h.of_append
  obtain ⟨hr, -, hexec⟩ := hrun.of_cons
  simp only [List.forall_mem_cons] at hp hfair
  by_contra! hb
  have hbet := between_of_run hr hab he hp.2 hfair.2 hb
  rcases hbet.step (forkInv_of_run hr) hp.1 hfair.1 hab hexec with hsw | ⟨hna, -⟩
  · rw [show (⟨e'.pre, e'.call, e'.ret⟩ : Event Kernel Step Ret) = e' from rfl, he'] at hsw
    exact hab (Option.some.inj hsw)
  · exact hna he'

/-- Test the last event of a run, the `n` events before it and the one before those. -/
def checkLast (n : ℕ) (p : Event Kernel Step Ret → List (Event Kernel Step Ret) →
    Event Kernel Step Ret → Bool) : List (Event Kernel Step Ret) → Bool
  | [] => false
  | e' :: l => (l.drop n).head?.any fun e => p e' (l.take n) e

theorem exists_of_checkLast {n : ℕ} {p : Event Kernel Step Ret → List (Event Kernel Step Ret) →
    Event Kernel Step Ret → Bool} {l : List (Event Kernel Step Ret)} (h : checkLast n p l = true) :
    ∃ e' mid e tr, l = e' :: (mid ++ e :: tr) ∧ p e' mid e = true := by
  cases l with
  | nil => simp [checkLast] at h
  | cons e' l =>
    cases hd : l.drop n with
    | nil => simp [checkLast, hd] at h
    | cons e tr =>
      refine ⟨e', l.take n, e, tr, ?_, by simpa [checkLast, hd] using h⟩
      rw [← hd, List.take_append_drop]

/-- `init` and its child take turns. -/
def twoPeers : List Step := List.flatten
  [[.scheduler, .scheduler, .allocproc, .kalloc true, .copyuvm true, .commit, .yield],
    [.scheduler, .yield], List.replicate 63 .scheduler, [.scheduler, .yield, .scheduler]]

theorem roundRobin_twoPeers : ∃ tr mid e e' k,
    KernelRun (e' :: (mid ++ e :: tr)) k ∧ switchesTo e = some 1 ∧ switchesTo e' = some 1 ∧
    ∃ x ∈ mid, switchesTo x = some 0 := by
  have h : ∃ tr k, KernelRun tr k ∧ checkLast 66 (fun e' mid e => switchesTo e = some 1 ∧
      switchesTo e' = some 1 ∧ ∀ x ∈ e' :: mid, Peers 1 0 x.pre ∧ FairScan x.pre) tr = true :=
    Run.exists_of_replayCheck twoPeers rfl (by decide +kernel)
  obtain ⟨l, k, hrun, hcheck⟩ := h
  obtain ⟨e', mid, e, tr, rfl, hp⟩ := exists_of_checkLast hcheck
  obtain ⟨he, he', hall⟩ := of_decide_eq_true hp
  have hrun' : KernelRun ([] ++ e' :: (mid ++ e :: tr)) k := hrun
  refine ⟨tr, mid, e, e', k, hrun, he, he', ?_⟩
  exact roundRobin_of_fairScan hrun' (by decide) he he' (fun x hx => (hall x hx).1)
    (fun x hx => (hall x hx).2)

/-- `init` makes a child that gives itself priority 0, and then a second child of its own
priority behind it in the table. -/
def lesserBetweenPeers : List Step := List.flatten
  [[.scheduler, .scheduler, .allocproc, .kalloc true, .copyuvm true, .commit, .yield],
    [.scheduler, .setPrio 0, .yield], List.replicate 63 .scheduler,
    [.scheduler, .allocproc, .kalloc true, .copyuvm true, .commit, .yield],
    [.scheduler, .yield, .scheduler]]

/-- Then `init` gets the CPU twice in a row although its second child is runnable all the time. -/
theorem roundRobin_skips_peer : ∃ tr mid e e' k,
    KernelRun (e' :: (mid ++ e :: tr)) k ∧ switchesTo e = some 0 ∧ switchesTo e' = some 0 ∧
    (∀ x ∈ e' :: (mid ++ [e]), Peers 0 2 x.pre) ∧
    ∀ x ∈ mid, switchesTo x ≠ some 2 ∧ switchesTo x ≠ some 0 := by
  have h : ∃ tr k, KernelRun tr k ∧ checkLast 1 (fun e' mid e => switchesTo e = some 0 ∧
      switchesTo e' = some 0 ∧ (∀ x ∈ e' :: (mid ++ [e]), Peers 0 2 x.pre) ∧
      ∀ x ∈ mid, switchesTo x ≠ some 2 ∧ switchesTo x ≠ some 0) tr = true :=
    Run.exists_of_replayCheck lesserBetweenPeers rfl (by decide +kernel)
  obtain ⟨l, k, hrun, hcheck⟩ := h
  obtain ⟨e', mid, e, tr, rfl, hp⟩ := exists_of_checkLast hcheck
  exact ⟨tr, mid, e, e', k, hrun, of_decide_eq_true hp⟩

end SsuOs.Xv6
