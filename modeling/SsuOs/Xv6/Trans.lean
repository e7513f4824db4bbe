import SsuOs.Xv6.Proc

/-! Everything a step of the process table can do, as one inductive relation. -/
namespace SsuOs.Xv6
open Kernel

@[simp] theorem Kernel.modify_proc (k : Kernel) (i j : Fin nProc) (f : Proc → Proc) :
    (k.modify i f).proc j = if j = i then f (k.proc i) else k.proc j := by
  simp [modify, Function.update_apply]

@[simp] theorem Kernel.modify_nextpid (k : Kernel) (i : Fin nProc) (f : Proc → Proc) :
    (k.modify i f).nextpid = k.nextpid := rfl

@[simp] theorem Kernel.modify_cont (k : Kernel) (i : Fin nProc) (f : Proc → Proc) :
    (k.modify i f).cont = k.cont := rfl

@[simp] theorem Kernel.setCont_proc (k : Kernel) (i : Fin nProc) (c : Cont) :
    (k.setCont i c).proc = k.proc := rfl

@[simp] theorem Kernel.setCont_nextpid (k : Kernel) (i : Fin nProc) (c : Cont) :
    (k.setCont i c).nextpid = k.nextpid := rfl

@[simp] theorem Kernel.setCont_cont (k : Kernel) (i j : Fin nProc) (c : Cont) :
    (k.setCont i c).cont j = if j = i then c else k.cont j := by
  simp [setCont, Function.update_apply]

/-- `wait` looks at the table, with its channel cleared first when it was asleep. -/
inductive WaitsIn (k : Kernel) (i : Fin nProc) : Kernel → Prop
  | entered : k.cont i = .user → WaitsIn k i k
  | woken : k.cont i = .wait →
      WaitsIn k i ((k.modify i (fun p => { p with chan := .null })).setCont i .user)

inductive Trans (k : Kernel) : Step → Ret → Kernel → Prop
  | advance (hc : k.cur = none) (h : k.cursor < nProc)
      (hs : (k.proc ⟨k.cursor, h⟩).state ≠ .runnable) :
      Trans k .scheduler .none { k with cursor := k.cursor + 1 }
  | dispatch (hc : k.cur = none) (h : k.cursor < nProc)
      (hs : (k.proc ⟨k.cursor, h⟩).state = .runnable) :
      Trans k .scheduler .none { k.modify (k.highest ⟨k.cursor, h⟩)
        (fun p => { p with state := .running }) with cur := some (k.highest ⟨k.cursor, h⟩) }
  | nextPass (hc : k.cur = none) (h : nProc ≤ k.cursor) :
      Trans k .scheduler .none { k with cursor := 0 }
  | wakeup (c : Chan) (h : k.Interruptible) : Trans k (.wakeup c) .none (k.wakeup1 c)
  | tableFull (i : Fin nProc) (hc : k.cur = some i) (hu : k.cont i = .user)
      (hfull : ∀ j, (k.proc j).state ≠ .unused) : Trans k .allocproc (.int (-1)) k
  | allocate (i np : Fin nProc) (hc : k.cur = some i) (hu : k.cont i = .user)
      (hnp : (k.proc np).state = .unused) :
      Trans k .allocproc (.created np) (setCont { k.modify np (fun p => { p with
        state := .embryo, pid := k.nextpid, ppid := 0, nswitch := 0, priority := 500 }) with
        nextpid := Lib.wrap32 (k.nextpid + 1) } i (.kalloc np))
  | kallocOk (i np : Fin nProc) (hc : k.cur = some i) (hu : k.cont i = .kalloc np) :
      Trans k (.kalloc true) .none (k.setCont i (.copyuvm np))
  | kallocFail (i np : Fin nProc) (hc : k.cur = some i) (hu : k.cont i = .kalloc np) :
      Trans k (.kalloc false) (.int (-1))
        ((k.modify np (fun p => { p with state := .unused })).setCont i .user)
  | copyuvmOk (i np : Fin nProc) (hc : k.cur = some i) (hu : k.cont i = .copyuvm np) :
      Trans k (.copyuvm true) .none ((k.modify np (fun p => { p with
        sz := (k.proc i).sz, parent := some i, ppid := (k.proc i).pid })).setCont i (.commit np))
  | copyuvmFail (i np : Fin nProc) (hc : k.cur = some i) (hu : k.cont i = .copyuvm np) :
      Trans k (.copyuvm false) (.int (-1))
        ((k.modify np (fun p => { p with state := .unused })).setCont i .user)
  | commit (i np : Fin nProc) (hc : k.cur = some i) (hu : k.cont i = .commit np) :
      Trans k .commit (.int (k.proc np).pid)
        ((k.modify np (fun p => { p with state := .runnable })).setCont i .user)
  | exit (i : Fin nProc) (hc : k.cur = some i) (hu : k.cont i = .user) (hi : i ≠ k.initproc) :
      Trans k .exit .none (k.exitProc i)
  | reap (i j : Fin nProc) {k₀ : Kernel} (hc : k.cur = some i) (hw : WaitsIn k i k₀)
      (hj : (k₀.proc j).parent = some i ∧ (k₀.proc j).state = .zombie) :
      Trans k .wait (.int (k₀.proc j).pid) (k₀.modify j (fun p => { p with
        pid := 0, parent := none, killed := false, state := .unused }))
  | waitFail (i : Fin nProc) {k₀ : Kernel} (hc : k.cur = some i) (hw : WaitsIn k i k₀) :
      Trans k .wait (.int (-1)) k₀
  | waitSleep (i : Fin nProc) {k₀ : Kernel} (hc : k.cur = some i) (hw : WaitsIn k i k₀) :
      Trans k .wait .none (k₀.goToSleep (.proc i) .wait i)
  | killed (i j : Fin nProc) {pid : ℤ} (hc : k.cur = some i) (hj : (k.proc j).pid = pid) :
      Trans k (.kill pid) (.int 0) (k.modify j (fun p => { p with
        killed := true, state := if p.state = .sleeping then .runnable else p.state }))
  | killMiss (i : Fin nProc) {pid : ℤ} (hc : k.cur = some i) (hj : ∀ j, (k.proc j).pid ≠ pid) :
      Trans k (.kill pid) (.int (-1)) k
  | sleep (i : Fin nProc) (c : Chan) (hc : k.cur = some i) (hu : k.cont i = .user) :
      Trans k (.sleep c) .none (k.goToSleep c .sleep i)
  | wake (i : Fin nProc) (hc : k.cur = some i) (hu : k.cont i = .sleep) :
      Trans k .wake .none ((k.modify i (fun p => { p with chan := .null })).setCont i .user)
  | yield (i : Fin nProc) (hc : k.cur = some i) (h : k.Interruptible) :
      Trans k .yield .none ((k.modify i (fun p => { p with state := .runnable })).sched i)
  | setPrioFail (i : Fin nProc) {n : ℤ} (hc : k.cur = some i) (hn : n < 0) :
      Trans k (.setPrio n) (.int (-1)) k
  | setPrio (i : Fin nProc) {n : ℤ} (hc : k.cur = some i) (hn : 0 ≤ n) :
      Trans k (.setPrio n) (.int 0) (k.modify i (fun p => { p with priority := n }))
  | resize (i : Fin nProc) (sz : ℕ) (hc : k.cur = some i) :
      Trans k (.resize sz) .none (k.modify i (fun p => { p with sz := sz }))

theorem scheduler_trans {k : Kernel} (hc : k.cur = none) :
    Trans k .scheduler .none k.scheduler := by
  unfold Kernel.scheduler
  split_ifs with h hs
  · exact .advance hc h hs
  · exact .dispatch hc h (not_not.mp hs)
  · exact .nextPass hc (not_lt.mp h)

theorem waitScan_trans {k k₀ : Kernel} {i : Fin nProc} (hc : k.cur = some i)
    (hw : WaitsIn k i k₀) :
    Trans k .wait (.ofOption (k₀.waitScan i).1) (k₀.waitScan i).2 := by
  unfold waitScan
  split
  · rename_i j hj
    have hs := List.find?_some hj
    exact .reap i j hc hw (by simpa using hs)
  · split_ifs
    · exact .waitFail i hc hw
    · exact .waitSleep i hc hw

theorem kill_trans {k : Kernel} {i : Fin nProc} (pid : ℤ) (hc : k.cur = some i) :
    Trans k (.kill pid) (.int (k.kill pid).1) (k.kill pid).2 := by
  unfold Kernel.kill
  split
  · rename_i j hj
    have hs := List.find?_some hj
    exact .killed i j hc (by simpa using hs)
  · rename_i hj
    refine .killMiss i hc fun j => ?_
    simpa using List.find?_eq_none.mp hj j (List.mem_finRange j)

/-- Only the scheduler and the interrupt handlers step without a process on the CPU. -/
theorem exec_some {k : Kernel} {a : Step} {p : Ret × Kernel} (h : exec a k = .ok p)
    (hs : a ≠ .scheduler) (hw : ∀ c, a ≠ .wakeup c) : ∃ i, k.cur = some i := by
  cases hc : k.cur with
  | some i => exact ⟨i, rfl⟩
  | none =>
    unfold exec at h
    rw [hc] at h
    cases a <;> simp at h hs hw

/-- Inversion of `exec`: later proofs never unfold it. -/
theorem exec_trans {k k' : Kernel} {a : Step} {r : Ret} (h : exec a k = .ok (r, k')) :
    Trans k a r k' := by
  cases a with
  | scheduler =>
    cases hc : k.cur with
    | some i => simp [exec, hc] at h
    | none =>
      obtain ⟨rfl, rfl⟩ : Ret.none = r ∧ k.scheduler = k' := by simpa [exec, hc] using h
      exact scheduler_trans hc
  | wakeup c =>
    simp only [exec] at h
    split_ifs at h with hint
    obtain ⟨rfl, rfl⟩ : Ret.none = r ∧ k.wakeup1 c = k' := by simpa using h
    exact .wakeup c hint
  | allocproc =>
    obtain ⟨i, hc⟩ := exec_some h (by simp) (by simp)
    simp only [exec, hc] at h
    split_ifs at h with hu
    unfold Kernel.allocproc at h
    cases hf : (List.finRange nProc).find? (fun i => (k.proc i).state = .unused) with
    | none =>
      obtain ⟨rfl, rfl⟩ : Ret.int (-1) = r ∧ k = k' := by simpa [hf] using h
      refine .tableFull i hc (not_not.mp hu) fun j => ?_
      simpa using List.find?_eq_none.mp hf j (List.mem_finRange j)
    | some np =>
      have hnp := List.find?_some hf
      simp only [hf] at h
      obtain ⟨rfl, rfl⟩ := Lib.ok_pair_inj h
      exact .allocate i np hc (not_not.mp hu) (by simpa using hnp)
  | kalloc succeeds =>
    obtain ⟨i, hc⟩ := exec_some h (by simp) (by simp)
    simp only [exec, hc] at h
    split at h
    · rename_i np hu
      cases succeeds
      · obtain ⟨rfl, rfl⟩ := Lib.ok_pair_inj h
        exact .kallocFail i np hc hu
      · obtain ⟨rfl, rfl⟩ := Lib.ok_pair_inj h
        exact .kallocOk i np hc hu
    · simp at h
  | copyuvm succeeds =>
    obtain ⟨i, hc⟩ := exec_some h (by simp) (by simp)
    simp only [exec, hc] at h
    split at h
    · rename_i np hu
      cases succeeds
      · obtain ⟨rfl, rfl⟩ := Lib.ok_pair_inj h
        exact .copyuvmFail i np hc hu
      · obtain ⟨rfl, rfl⟩ := Lib.ok_pair_inj h
        exact .copyuvmOk i np hc hu
    · simp at h
  | commit =>
    obtain ⟨i, hc⟩ := exec_some h (by simp) (by simp)
    simp only [exec, hc] at h
    split at h
    · rename_i np hu
      obtain ⟨rfl, rfl⟩ := Lib.ok_pair_inj h
      exact .commit i np hc hu
    · simp at h
  | exit =>
    obtain ⟨i, hc⟩ := exec_some h (by simp) (by simp)
    simp only [exec, hc] at h
    split_ifs at h with hu hi
    obtain ⟨rfl, rfl⟩ := Lib.ok_pair_inj h
    exact .exit i hc (not_not.mp hu) hi
  | wait =>
    obtain ⟨i, hc⟩ := exec_some h (by simp) (by simp)
    simp only [exec, hc] at h
    split at h
    · rename_i hu
      obtain ⟨rfl, rfl⟩ := Lib.ok_pair_inj h
      exact waitScan_trans hc (.entered hu)
    · rename_i hu
      obtain ⟨rfl, rfl⟩ := Lib.ok_pair_inj h
      exact waitScan_trans hc (.woken hu)
    · simp at h
  | kill pid =>
    obtain ⟨i, hc⟩ := exec_some h (by simp) (by simp)
    simp only [exec, hc] at h
    split_ifs at h
    obtain ⟨rfl, rfl⟩ := Lib.ok_pair_inj h
    exact kill_trans pid hc
  | sleep c =>
    obtain ⟨i, hc⟩ := exec_some h (by simp) (by simp)
    simp only [exec, hc] at h
    split_ifs at h with hu
    obtain ⟨rfl, rfl⟩ := Lib.ok_pair_inj h
    exact .sleep i c hc (not_not.mp hu)
  | wake =>
    obtain ⟨i, hc⟩ := exec_some h (by simp) (by simp)
    simp only [exec, hc] at h
    split_ifs at h with hu
    obtain ⟨rfl, rfl⟩ := Lib.ok_pair_inj h
    exact .wake i hc (not_not.mp hu)
  | yield =>
    obtain ⟨i, hc⟩ := exec_some h (by simp) (by simp)
    simp only [exec, hc] at h
    split_ifs at h with hint
    obtain ⟨rfl, rfl⟩ := Lib.ok_pair_inj h
    exact .yield i hc hint
  | setPrio n =>
    obtain ⟨i, hc⟩ := exec_some h (by simp) (by simp)
    simp only [exec, hc] at h
    split_ifs at h with hu hn
    · obtain ⟨rfl, rfl⟩ := Lib.ok_pair_inj h
      exact .setPrioFail i hc hn
    · obtain ⟨rfl, rfl⟩ := Lib.ok_pair_inj h
      exact .setPrio i hc (not_lt.mp hn)
  | resize sz =>
    obtain ⟨i, hc⟩ := exec_some h (by simp) (by simp)
    simp only [exec, hc] at h
    split_ifs at h
    obtain ⟨rfl, rfl⟩ := Lib.ok_pair_inj h
    exact .resize i sz hc

end SsuOs.Xv6
