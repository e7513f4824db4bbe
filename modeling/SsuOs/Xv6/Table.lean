import SsuOs.Xv6.Forks

/-! What every step keeps about pids in the process table. -/
namespace SsuOs.Xv6
open Kernel Lib

/-- Live entries carry distinct pids that were given out before `nextpid` wrapped around, and
every process inside `fork` holds a child of its own that is still an embryo. -/
structure TableInv (k : Kernel) : Prop where
  pid_nonneg : ∀ i, 0 ≤ (k.proc i).pid
  nextpid_inInt : InInt k.nextpid
  pid_lt : 1 ≤ k.nextpid → ∀ i, (k.proc i).pid < k.nextpid
  pid_of_live : ∀ i, (k.proc i).state ≠ .unused → (k.proc i).pid ≠ 0
  pid_inj : ∀ i j, (k.proc i).pid = (k.proc j).pid → (k.proc i).pid ≠ 0 → i = j
  child_embryo : ∀ i np, (k.cont i).child = some np → (k.proc np).state = .embryo
  child_inj : ∀ i j np, (k.cont i).child = some np → (k.cont j).child = some np → i = j
  no_child : ∀ i, (k.proc i).state = .unused ∨ (k.proc i).state = .embryo ∨
    (k.proc i).state = .zombie → (k.cont i).child = none
  cur_running : ∀ i, k.cur = some i → (k.proc i).state = .running

/-- No unused entry keeps the pid of a process that is gone. -/
def Clean (k : Kernel) : Prop := ∀ i, (k.proc i).state = .unused → (k.proc i).pid = 0

section Steps

variable {k k' : Kernel}

/-- The forks in progress are the business of `ForkInv`. -/
theorem TableInv.of_forkInv (hf : ForkInv k) (h₀ : ∀ i, 0 ≤ (k.proc i).pid)
    (hn : InInt k.nextpid) (hlt : 1 ≤ k.nextpid → ∀ i, (k.proc i).pid < k.nextpid)
    (hlive : ∀ i, (k.proc i).state ≠ .unused → (k.proc i).pid ≠ 0)
    (hinj : ∀ i j, (k.proc i).pid = (k.proc j).pid → (k.proc i).pid ≠ 0 → i = j) : TableInv k :=
  ⟨h₀, hn, hlt, hlive, hinj, hf.child_embryo, hf.child_inj, hf.no_child, fun _ => hf.cur_running⟩

theorem TableInv.of_similar (hi : TableInv k) (h : Similar k k') (hf : ForkInv k') :
    TableInv k' := by
  apply TableInv.of_forkInv hf
  · intro i
    rw [h.pid]
    exact hi.pid_nonneg i
  · rw [h.nextpid]
    exact hi.nextpid_inInt
  · intro hn i
    rw [h.nextpid] at hn ⊢
    rw [h.pid]
    exact hi.pid_lt hn i
  · intro i hs
    rw [h.pid]
    exact hi.pid_of_live i (fun hu => hs ((h.unused i).mpr hu))
  · intro i j
    rw [h.pid, h.pid]
    exact hi.pid_inj i j

theorem Clean.of_similar (hc : Clean k) (h : Similar k k') : Clean k' := by
  intro i hu
  rw [h.pid]
  exact hc i ((h.unused i).mp hu)

/-- The end of `fork`: the child is given back or becomes runnable. A failed `fork` leaves the
pid of its child behind in the entry. -/
theorem TableInv.finishFork {i np : Fin nProc} {s : ProcState} (hi : TableInv k)
    (hemb : (k.proc np).state = .embryo)
    (hf : ForkInv ((k.modify np (fun p => { p with state := s })).setCont i .user)) :
    TableInv ((k.modify np (fun p => { p with state := s })).setCont i .user) := by
  have hpid : ∀ j, (((k.modify np (fun p => { p with state := s })).setCont i .user).proc j).pid =
      (k.proc j).pid := by
    intro j
    rw [setCont_proc, modify_proc]
    split_ifs with hj
    · rw [hj]
    · rfl
  apply TableInv.of_forkInv hf
  · intro j
    rw [hpid]
    exact hi.pid_nonneg j
  · exact hi.nextpid_inInt
  · intro hn j
    rw [hpid]
    exact hi.pid_lt hn j
  · intro j hj
    rw [hpid]
    apply hi.pid_of_live j
    by_cases hjn : j = np
    · rw [hjn, hemb]
      simp
    · rw [setCont_proc, modify_proc, if_neg hjn] at hj
      exact hj
  · intro j l
    rw [hpid, hpid]
    exact hi.pid_inj j l

theorem TableInv.allocate {i np : Fin nProc} (hi : TableInv k) (hn : 1 ≤ k.nextpid)
    (hf : ForkInv (Kernel.setCont { k.modify np (fun p => { p with
      state := .embryo, pid := k.nextpid, ppid := 0, nswitch := 0, priority := 500 }) with
      nextpid := wrap32 (k.nextpid + 1) } i (.kalloc np))) :
    TableInv (Kernel.setCont { k.modify np (fun p => { p with
      state := .embryo, pid := k.nextpid, ppid := 0, nswitch := 0, priority := 500 }) with
      nextpid := wrap32 (k.nextpid + 1) } i (.kalloc np)) := by
  have hlt := hi.pid_lt hn
  apply TableInv.of_forkInv hf
  · intro j
    simp only [setCont_proc, modify_proc]
    split_ifs
    · dsimp only; omega
    · exact hi.pid_nonneg j
  · exact inInt_wrap32 _
  · intro hw j
    have hnext : wrap32 (k.nextpid + 1) = k.nextpid + 1 := by
      simp only [setCont_nextpid] at hw
      have := hi.nextpid_inInt.2
      unfold wrap32 intMax at *
      omega
    simp only [setCont_proc, modify_proc, setCont_nextpid, hnext]
    split_ifs
    · dsimp only; omega
    · exact (hlt j).trans (by omega)
  · intro j hj
    simp only [setCont_proc, modify_proc] at hj ⊢
    split_ifs at hj ⊢
    · dsimp only; omega
    · exact hi.pid_of_live j hj
  · intro j l
    have := hlt j
    have := hlt l
    simp only [setCont_proc, modify_proc]
    split_ifs with hj hl hl
    · intro _ _
      rw [hj, hl]
    · intro he
      dsimp only at he
      omega
    · intro he
      dsimp only at he
      omega
    · exact hi.pid_inj j l

theorem TableInv.reap {j : Fin nProc} (hi : TableInv k)
    (hf : ForkInv (k.modify j (fun p => { p with
      pid := 0, parent := none, killed := false, state := .unused }))) :
    TableInv (k.modify j (fun p => { p with
      pid := 0, parent := none, killed := false, state := .unused })) := by
  apply TableInv.of_forkInv hf
  · intro l
    rw [modify_proc]
    split_ifs
    · exact le_rfl
    · exact hi.pid_nonneg l
  · exact hi.nextpid_inInt
  · intro hn l
    rw [modify_proc]
    split_ifs
    · exact hn
    · exact hi.pid_lt hn l
  · intro l hl
    rw [modify_proc] at hl ⊢
    split_ifs at hl ⊢
    · simp at hl
    · exact hi.pid_of_live l hl
  · intro l m
    simp only [modify_proc]
    split_ifs with hl hm hm
    · intro _ hne
      simp at hne
    · intro _ hne
      simp at hne
    · intro he hne
      exact absurd he hne
    · exact hi.pid_inj l m

end Steps

/-- What one step does to the table as a whole. -/
structure Keeps (k : Kernel) (a : Step) (r : Ret) (k' : Kernel) : Prop where
  inv : TableInv k'
  nextpid : ∀ n : ℤ, k.nextpid = wrap32 n → k'.nextpid = wrap32 (n + r.creations)
  clean : Clean k → (Clean k' ↔ ¬a.OutOfMemory)

section Keeps

variable {k k' : Kernel} {a : Step} {r : Ret}

theorem Keeps.of_similar (hi : TableInv k) (h : Similar k k') (hf : ForkInv k')
    (hr : r.creations = 0) (ha : ¬a.OutOfMemory) : Keeps k a r k' := by
  refine ⟨hi.of_similar h hf, fun n hn => ?_, fun hc => iff_of_true (hc.of_similar h) ha⟩
  rw [h.nextpid, hn, hr]
  simp

/-- The pid a failed `fork` leaves behind is never 0. -/
theorem Keeps.of_outOfMemory {i np : Fin nProc} (hi : TableInv k)
    (hemb : (k.proc np).state = .embryo)
    (hf : ForkInv ((k.modify np (fun p => { p with state := .unused })).setCont i .user))
    (ha : a.OutOfMemory) :
    Keeps k a (.int (-1))
      ((k.modify np (fun p => { p with state := .unused })).setCont i .user) := by
  refine ⟨hi.finishFork hemb hf, fun n hn => by simpa [Ret.creations] using hn, fun _ => ?_⟩
  refine iff_of_false (fun hc => ?_) (not_not.mpr ha)
  have hpid := hc np (by simp)
  refine hi.pid_of_live np ?_ (by simpa using hpid)
  rw [hemb]
  simp

/-- Every step keeps the table in order, as long as no fresh pid is a wrapped one. -/
theorem Effect.keeps (h : Effect k a r k') (hf : ForkInv k) (hi : TableInv k)
    (hroom : ∀ np, r = .created np → 1 ≤ k.nextpid) : Keeps k a r k' := by
  have hf' := h.forkInv hf
  cases h with
  | steady h hrun hr ha => exact .of_similar hi h.toSimilar hf' hr ha
  | allocate i np hc hu hnp =>
    refine ⟨hi.allocate (hroom np rfl) hf', fun n hn => ?_, fun hcl => ?_⟩
    · rw [setCont_nextpid, hn]
      exact wrap32_add n 1
    · refine iff_of_true (fun j hj => ?_) (by decide)
      simp only [setCont_proc, modify_proc] at hj ⊢
      split_ifs at hj ⊢
      exact hcl j hj
  | failFork i np hc hu ha =>
    refine .of_outOfMemory hi (hf.child_embryo i np ?_) hf' ha
    rcases hu with hu | hu <;> rw [hu] <;> rfl
  | copyuvmOk i np hc hu => exact .of_similar hi (copyuvmOk_similar hu) hf' rfl (by decide)
  | commit i np hc hu =>
    have hemb := hf.child_embryo i np (by rw [hu]; rfl)
    refine ⟨hi.finishFork hemb hf', fun n hn => by simpa [Ret.creations] using hn,
      fun hcl => iff_of_true (fun j hj => ?_) (by decide)⟩
    simp only [setCont_proc, modify_proc] at hj ⊢
    split_ifs at hj ⊢
    exact hcl j hj
  | exit i hc hu => exact .of_similar hi (exitProc_similar hf hc) hf' rfl (by decide)
  | reap i j hc h₀ hf₀ hj =>
    have hi₀ := hi.of_similar h₀.toSimilar hf₀
    refine ⟨hi₀.reap hf', fun n hn => ?_, fun hcl => iff_of_true (fun l hl => ?_) (by decide)⟩
    · rw [modify_nextpid, h₀.nextpid, hn]
      simp [Ret.creations]
    · have hcl₀ := hcl.of_similar h₀.toSimilar
      rw [modify_proc] at hl ⊢
      split_ifs at hl ⊢
      · rfl
      · exact hcl₀ l hl

end Keeps

end SsuOs.Xv6
