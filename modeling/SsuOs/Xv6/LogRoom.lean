import SsuOs.Xv6.Crash

/-! Whether the log can run out of room. `begin_op` sets `MAXOPBLOCKS` blocks aside for each
operation, out of `LOGSIZE`, but the header takes one of the blocks `mkfs` gives to the log. -/
namespace SsuOs.Xv6
open SsuOs.Lib LogState

section

variable {L : LogLayout} {m : ℕ} {disk : ℕ → Block} {tr : List (Event LogState LogStep Unit)}
  {s : LogState}

/-- With enough room for the operations, no check of the log fails, and neither `commit` nor the
recovery asks for a block behind the file system. -/
theorem CrashInv.no_panic {a : LogStep} (hi : CrashInv L m s) (hm : m < maxOpBlocks)
    (hL : maxOpBlocks + 2 * m + 1 < L.size) (ha : WithinBudget L m a s) :
    execLog L a s ≠ .error .panic := by
  cases a with
  | beginOp p =>
    simp only [execLog]
    split_ifs
    · simp
    · split <;> simp
  | checkWrite p b v =>
    simp only [execLog]
    split
    · rename_i bs ho
      obtain ⟨hout, hc, hidle⟩ := hi.space.in_op ho
      have hroom := hi.space.room (by rw [hidle]; rfl)
      have hn : s.lh.length < logSize := by
        unfold logSize
        unfold maxOpBlocks at hroom hm ⊢
        omega
      have hs : (s.lh.length : ℤ) < (L.size : ℤ) - 1 := by omega
      rw [LogState.checkWrite, if_neg (by omega), if_neg (by omega)]
      simp
    · simp
  | logWrite p =>
    simp only [execLog]
    split <;> simp
  | endOp p =>
    simp only [execLog]
    split
    · rename_i bs ho
      obtain ⟨-, hc, -⟩ := hi.space.in_op ho
      unfold LogState.endOp
      simp only [setOp_committing, hc, Bool.false_eq_true, ↓reduceIte]
      split <;> simp
    · simp
  | advance =>
    simp only [execLog]
    by_cases hp : s.phase = .idle
    · simp [LogState.advance, hp]
    · obtain ⟨s', hs'⟩ := hi.advance_ok hp
      simp [hs']
  | crash => simp [execLog]

/-- Whoever sleeps in `begin_op` waits for a commit or a recovery that is under way, and comes to
its end, or for an operation of another process. -/
theorem beginOp_sleeps_for_reason (hm : m ≤ maxOpBlocks) (h : LogRun L m disk tr s)
    {p : Fin nProc} (hp : s.asleep p = true) : s.phase ≠ .idle ∨ ∃ q, s.op q ≠ none := by
  have hi := spaceInv_of_run hm h
  by_cases hidle : s.phase = .idle
  · right
    by_contra! hnone
    rcases hi.asleep p hp with hc | hf
    · exact (hi.committing hc).2 hidle
    · have hout : s.outstanding = 0 := by
        rw [hi.outstanding]
        simp [hnone]
      have hl := hi.empty (.inl ⟨hidle, hout⟩)
      simp [Full, hl, hout] at hf
  · exact .inl hidle

/-- The room is set aside for three operations. -/
theorem beginOp_sleeps_for_reason_fourth : ∃ tr s, LogRun mkfsLog 9 (fun _ _ => 0) tr s ∧
    s.asleep 3 = true ∧ (s.phase ≠ .idle ∨ ∃ q, s.op q ≠ none) := by
  have h : ∃ tr s, LogRun mkfsLog 9 (fun _ _ => 0) tr s ∧ s.asleep 3 = true :=
    Run.exists_of_replayCheck
      [.advance, .advance, .advance, .beginOp 0, .beginOp 1, .beginOp 2, .beginOp 3] rfl
      (by decide +kernel)
  obtain ⟨tr, s, hrun, hp⟩ := h
  exact ⟨tr, s, hrun, hp, beginOp_sleeps_for_reason (by decide) hrun hp⟩

end

theorem WithinBudget.mono {L : LogLayout} {m n : ℕ} {a : LogStep} {s : LogState}
    (h : WithinBudget L m a s) (hmn : m ≤ n) : WithinBudget L n a s := by
  cases a with
  | checkWrite p b v => exact ⟨fun o ho => (h.1 o ho).trans hmn, h.2⟩
  | _ => trivial

/-- An operation logs `n` blocks from `b` on. -/
def logBlocks (p : Fin nProc) (b n : ℕ) : List LogStep :=
  (List.range n).flatMap fun i => [.checkWrite p (b + i) (fun _ => 0), .logWrite p]

/-- Three operations have filled the log, the last one up to one block. -/
def fullLoad (p q r : Fin nProc) : List LogStep :=
  [.advance, .advance, .advance, .beginOp p, .beginOp q, .beginOp r] ++
    logBlocks p 100 10 ++ logBlocks q 110 10 ++ logBlocks r 120 9

theorem fullLoad_panics : ∃ tr s, LogRun mkfsLog maxOpBlocks (fun _ _ => 0) tr s ∧
    WithinBudget mkfsLog maxOpBlocks (.checkWrite 2 129 fun _ => 0) s ∧
    execLog mkfsLog (.checkWrite 2 129 fun _ => 0) s = .error .panic := by
  have h : ∃ tr s, LogRun mkfsLog maxOpBlocks (fun _ _ => 0) tr s ∧
      decide (WithinBudget mkfsLog maxOpBlocks (.checkWrite 2 129 fun _ => 0) s ∧
        s.lh.length = 29 ∧ ∃ o ∈ s.op 2, o.pending = none) = true :=
    Run.exists_of_replayCheck (fullLoad 0 1 2) rfl (by decide +kernel)
  obtain ⟨tr, s, hrun, hp⟩ := h
  obtain ⟨hbudget, hlen, ⟨bs, pending⟩, ho, rfl⟩ := of_decide_eq_true hp
  refine ⟨tr, s, hrun, hbudget, ?_⟩
  have hfull : (mkfsLog.size : ℤ) - 1 ≤ s.lh.length := by
    rw [hlen]
    decide
  simp only [execLog, Option.mem_def.mp ho, LogState.checkWrite, hfull, or_true, ↓reduceIte]
  rfl

/-- On the log that `mkfs` makes, the operations may log nine blocks each, and not `MAXOPBLOCKS`,
if no check of `log.c` is to panic. This is not about `bget`, which panics when all buffers are
pinned or held. -/
theorem mkfsLog_never_panics_iff (m : ℕ) : (∀ disk tr s a, mkfsLog.WellFormed disk →
    LogRun mkfsLog m disk tr s → WithinBudget mkfsLog m a s →
    execLog mkfsLog a s ≠ .error .panic) ↔ m < maxOpBlocks := by
  constructor
  · intro h
    by_contra! hm
    obtain ⟨tr, s, hrun, hbudget, hpanic⟩ := fullLoad_panics
    refine h _ tr s _ wellFormed_zero ?_ (hbudget.mono hm) hpanic
    exact hrun.mono (fun _ _ ha => ha.mono hm)
  · intro hm disk tr s a hd hrun ha
    have hL : maxOpBlocks + 2 * m + 1 < mkfsLog.size := by
      simp only [mkfsLog, logSize]
      omega
    exact (crashInv_of_run hm.le (by omega) hd hrun).no_panic hm hL ha

end SsuOs.Xv6
