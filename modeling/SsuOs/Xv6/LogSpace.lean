import Mathlib.Algebra.BigOperators.Fin
import Mathlib.Tactic.Linarith
import SsuOs.Lib.Tally
import SsuOs.Xv6.Log

/-! What a step of the log can do, and the space that `begin_op` sets aside for the operations it
lets in. -/
namespace SsuOs.Xv6
open SsuOs.Lib LogState

section Fields

variable (s : LogState) (p q : Fin nProc) (o : Option Op)

@[simp] theorem LogState.setOp_op : (s.setOp p o).op q = if q = p then o else s.op q := by
  simp [LogState.setOp, Function.update_apply]

@[simp] theorem LogState.setOp_blocks : (s.setOp p o).blocks = s.blocks := rfl

@[simp] theorem LogState.setOp_lh : (s.setOp p o).lh = s.lh := rfl

@[simp] theorem LogState.setOp_outstanding : (s.setOp p o).outstanding = s.outstanding := rfl

@[simp] theorem LogState.setOp_committing : (s.setOp p o).committing = s.committing := rfl

@[simp] theorem LogState.setOp_phase : (s.setOp p o).phase = s.phase := rfl

end Fields

/-- One iteration or one write of `commit` and `recover_from_log`. -/
inductive Advance (L : LogLayout) (s : LogState) : LogState → Prop
  | copy (tail b : ℕ) (hp : s.phase = .writeLog tail) (hb : s.lh[tail]? = some b) :
      Advance L s { s with
        blocks := s.blocks.bwrite (L.slot tail) (s.blocks.content b)
        phase := .writeLog (tail + 1) }
  | copied (tail : ℕ) (hp : s.phase = .writeLog tail) (hb : s.lh.length ≤ tail) :
      Advance L s { s with phase := .writeHead }
  | commit (hp : s.phase = .writeHead) :
      Advance L s { s with
        blocks := s.blocks.bwrite L.start (encodeHead s.lh (s.blocks.content L.start))
        phase := .install false 0 }
  | install (boot : Bool) (tail b : ℕ) (hp : s.phase = .install boot tail)
      (hb : s.lh[tail]? = some b) :
      Advance L s { s with
        blocks := s.blocks.bwrite b (s.blocks.content (L.slot tail))
        phase := .install boot (tail + 1) }
  | installed (boot : Bool) (tail : ℕ) (hp : s.phase = .install boot tail)
      (hb : s.lh.length ≤ tail) :
      Advance L s { s with lh := [], phase := .clearHead boot }
  | clear (boot : Bool) (hp : s.phase = .clearHead boot) :
      Advance L s { s with
        blocks := s.blocks.bwrite L.start (encodeHead s.lh (s.blocks.content L.start))
        phase := if boot then .idle else .finish }
  | finish (hp : s.phase = .finish) :
      Advance L s { s with committing := false, phase := .idle }.wakeup
  | readHead (es : List ℕ) (hp : s.phase = .readHead)
      (hd : decodeHead (s.blocks.content L.start) = .ok es) :
      Advance L s { s with lh := es, phase := .install true 0 }

theorem bread_ok {s : Store} {b : ℕ} {v : Block} (h : s.bread b = .ok v) : v = s.content b := by
  unfold Store.bread at h
  split_ifs at h
  exact (Except.ok.inj h).symm

theorem advance_cases {L : LogLayout} {s s' : LogState} (h : s.advance L = .ok s') :
    Advance L s s' := by
  unfold LogState.advance at h
  split at h
  · simp at h
  · rename_i tail hp
    split at h
    · rename_i b hb
      obtain ⟨w, -, h⟩ := bind_eq_ok.mp h
      obtain ⟨v, hv, h⟩ := bind_eq_ok.mp h
      obtain rfl := Except.ok.inj h
      rw [bread_ok hv]
      exact .copy tail b hp hb
    · rename_i hb
      obtain rfl := Except.ok.inj h
      exact .copied tail hp (List.getElem?_eq_none_iff.mp hb)
  · rename_i hp
    obtain ⟨v, hv, h⟩ := bind_eq_ok.mp h
    obtain rfl := Except.ok.inj h
    rw [bread_ok hv]
    exact .commit hp
  · rename_i boot tail hp
    split at h
    · rename_i b hb
      obtain ⟨v, hv, h⟩ := bind_eq_ok.mp h
      obtain ⟨w, -, h⟩ := bind_eq_ok.mp h
      obtain rfl := Except.ok.inj h
      rw [bread_ok hv]
      exact .install boot tail b hp hb
    · rename_i hb
      obtain rfl := Except.ok.inj h
      exact .installed boot tail hp (List.getElem?_eq_none_iff.mp hb)
  · rename_i boot hp
    obtain ⟨v, hv, h⟩ := bind_eq_ok.mp h
    obtain rfl := Except.ok.inj h
    rw [bread_ok hv]
    exact .clear boot hp
  · rename_i hp
    obtain rfl := Except.ok.inj h
    exact .finish hp
  · rename_i hp
    obtain ⟨v, hv, h⟩ := bind_eq_ok.mp h
    obtain ⟨es, hd, h⟩ := bind_eq_ok.mp h
    obtain rfl := Except.ok.inj h
    exact .readHead es hp (bread_ok hv ▸ hd)

inductive LogTrans (L : LogLayout) (s : LogState) : LogStep → LogState → Prop
  | sleep (p : Fin nProc) (hb : s.phase.booting = false) (ho : s.op p = none)
      (hw : s.committing = true ∨ s.Full) :
      LogTrans L s (.beginOp p) { s with asleep := Function.update s.asleep p true }
  | enter (p : Fin nProc) (hb : s.phase.booting = false) (hs : s.asleep p = false)
      (ho : s.op p = none) (hc : s.committing = false) (hf : ¬s.Full) :
      LogTrans L s (.beginOp p)
        ({ s with outstanding := s.outstanding + 1 }.setOp p (some ⟨[], none⟩))
  | check (p : Fin nProc) (bs : List ℕ) (b : ℕ) (v : Block) (ho : s.op p = some ⟨bs, none⟩) :
      LogTrans L s (.checkWrite p b v) (s.setOp p (some ⟨bs, some (b, v)⟩))
  | write (p : Fin nProc) (bs : List ℕ) (b : ℕ) (v : Block) (ho : s.op p = some ⟨bs, some (b, v)⟩) :
      LogTrans L s (.logWrite p) (s.logWrite p ⟨bs, some (b, v)⟩ b v)
  | leave (p : Fin nProc) (bs : List ℕ) (ho : s.op p = some ⟨bs, none⟩)
      (hc : s.committing = false) (hn : s.outstanding - 1 ≠ 0) :
      LogTrans L s (.endOp p)
        ({ s with outstanding := s.outstanding - 1 }.setOp p none).wakeup
  | last (p : Fin nProc) (bs : List ℕ) (ho : s.op p = some ⟨bs, none⟩)
      (hc : s.committing = false) (hn : s.outstanding - 1 = 0) :
      LogTrans L s (.endOp p)
        { ({ s with outstanding := s.outstanding - 1 } : LogState).setOp p none with
          committing := true, phase := if s.lh = [] then .finish else .writeLog 0 }
  | advance {s' : LogState} (h : Advance L s s') : LogTrans L s .advance s'
  | crash : LogTrans L s .crash (.boot s.blocks.crash)

theorem execLog_trans {L : LogLayout} {s s' : LogState} {a : LogStep} {r : Unit}
    (h : execLog L a s = .ok (r, s')) : LogTrans L s a s' := by
  cases a with
  | beginOp p =>
    simp only [execLog] at h
    split_ifs at h with hg
    simp only [not_or, Bool.not_eq_true] at hg
    split at h
    · rename_i ho
      obtain ⟨-, rfl⟩ := ok_pair_inj h
      unfold LogState.beginOp
      split_ifs with hw
      · exact .sleep p hg.1 ho hw
      · simp only [not_or, Bool.not_eq_true] at hw
        exact .enter p hg.1 hg.2 ho hw.1 hw.2
    · simp at h
  | checkWrite p b v =>
    simp only [execLog] at h
    split at h
    · rename_i bs ho
      obtain ⟨t, ht, hs⟩ := map_eq_ok.mp h
      obtain rfl : t = s' := (Prod.mk.inj hs).2
      unfold LogState.checkWrite at ht
      split_ifs at ht
      obtain rfl := Except.ok.inj ht
      exact .check p bs b v ho
    · simp at h
  | logWrite p =>
    simp only [execLog] at h
    split at h
    · rename_i bs b v ho
      obtain ⟨-, rfl⟩ := ok_pair_inj h
      exact .write p bs b v ho
    · simp at h
  | endOp p =>
    simp only [execLog] at h
    split at h
    · rename_i bs ho
      obtain ⟨t, ht, hs⟩ := map_eq_ok.mp h
      obtain rfl : t = s' := (Prod.mk.inj hs).2
      unfold LogState.endOp at ht
      dsimp only at ht
      split at ht
      · simp at ht
      · rename_i hc
        split at ht
        · rename_i hn
          obtain rfl := Except.ok.inj ht
          exact .last p bs ho (by simpa using hc) hn
        · rename_i hn
          obtain rfl := Except.ok.inj ht
          exact .leave p bs ho (by simpa using hc) hn
    · simp at h
  | advance =>
    obtain ⟨t, ht, hs⟩ := map_eq_ok.mp h
    obtain rfl : t = s' := (Prod.mk.inj hs).2
    exact .advance (advance_cases ht)
  | crash =>
    obtain ⟨-, rfl⟩ := ok_pair_inj h
    exact .crash

/-- The log has no way to the blocks but the calls of the cache. -/
theorem LogTrans.calls {L : LogLayout} {s s' : LogState} {a : LogStep} (h : LogTrans L s a s') :
    (∃ cs, Trace StoreStep s.blocks cs s'.blocks) ∨ s'.blocks = s.blocks.crash := by
  have hbwrite (b : ℕ) (v : Block) :
      Trace StoreStep s.blocks [(.bwrite b, none), (.store b v, none)] (s.blocks.bwrite b v) :=
    .cons (.cons .nil (.store b v)) (.bwrite b)
  cases h with
  | sleep p hb ho hw | enter p hb hs ho hc hf | check p bs b v ho | leave p bs ho hc hn
  | last p bs ho hc hn => exact .inl ⟨[], .nil⟩
  | write p bs b v ho => exact .inl ⟨[(.store b v, none)], .cons .nil (.store b v)⟩
  | advance h =>
    left
    cases h with
    | copy tail b hp hb | commit hp | install boot tail b hp hb | clear boot hp =>
      exact ⟨_, hbwrite _ _⟩
    | copied tail hp hb | installed boot tail hp hb | finish hp | readHead es hp hd =>
      exact ⟨[], .nil⟩
  | crash => exact .inr rfl

/-- The blocks an operation may still log. -/
def Op.rest (m : ℕ) : Option Op → ℕ
  | some o => m - o.logged.length
  | none => 0

def Op.busy : Option Op → ℕ
  | some _ => 1
  | none => 0

@[simp] theorem Op.rest_some (m : ℕ) (o : Op) : Op.rest m (some o) = m - o.logged.length := rfl

@[simp] theorem Op.rest_none (m : ℕ) : Op.rest m none = 0 := rfl

@[simp] theorem Op.busy_some (o : Op) : Op.busy (some o) = 1 := rfl

@[simp] theorem Op.busy_none : Op.busy none = 0 := rfl

/-- The blocks of an operation are in the log, and they are not too many. -/
structure Op.Share (m : ℕ) (lh : List ℕ) (o : Op) : Prop where
  mem : ∀ b ∈ o.logged, b ∈ lh
  length : o.logged.length ≤ m
  pending : ∀ b v, o.pending = some (b, v) → (o.logged.insert b).length ≤ m

/-- `outstanding` counts the operations, and every operation has its share of the log. -/
structure SpaceInv (m : ℕ) (s : LogState) : Prop where
  outstanding : s.outstanding = (∑ p, Op.busy (s.op p) : ℕ)
  share : ∀ p o, s.op p = some o → o.Share m s.lh
  committing : s.committing = true → s.outstanding = 0 ∧ s.phase ≠ .idle
  idle : s.committing = false → s.phase.booting = false → s.phase = .idle
  booting : s.phase.booting = true → s.committing = false ∧ s.outstanding = 0 ∧
    ∀ p, s.asleep p = false
  empty : s.phase = .idle ∧ s.outstanding = 0 ∨ s.phase = .finish ∨
    (∃ boot, s.phase = .clearHead boot) → s.lh = []
  room : s.phase.booting = false → s.lh.length + ∑ p, Op.rest m (s.op p) ≤ maxOpBlocks + 2 * m
  asleep : ∀ p, s.asleep p = true → s.committing = true ∨ s.Full

section

variable {L : LogLayout} {m : ℕ} {s s' : LogState} {p : Fin nProc} {a : LogStep}

theorem busy_update {o : Option Op} (h : s'.op = Function.update s.op p o) :
    ∑ q, Op.busy (s'.op q) + Op.busy (s.op p) = ∑ q, Op.busy (s.op q) + Op.busy o := by
  rw [h]
  exact sum_update_add Op.busy s.op p o

theorem rest_update {o : Option Op} (h : s'.op = Function.update s.op p o) :
    ∑ q, Op.rest m (s'.op q) + Op.rest m (s.op p) = ∑ q, Op.rest m (s.op q) + Op.rest m o := by
  rw [h]
  exact sum_update_add (Op.rest m) s.op p o

theorem rest_le_busy (m : ℕ) (s : LogState) :
    ∑ q, Op.rest m (s.op q) ≤ (∑ q, Op.busy (s.op q)) * m := by
  rw [Finset.sum_mul]
  refine Finset.sum_le_sum fun q _ => ?_
  cases s.op q with
  | none => simp
  | some o => simp

theorem SpaceInv.outstanding_pos {o : Op} (hi : SpaceInv m s) (ho : s.op p = some o) :
    1 ≤ s.outstanding := by
  have hle := Finset.single_le_sum (f := fun q => Op.busy (s.op q)) (fun _ _ => Nat.zero_le _)
    (Finset.mem_univ p)
  simp only [ho, Op.busy_some] at hle
  rw [hi.outstanding]
  exact_mod_cast hle

/-- Without an operation, the log may hold any blocks. -/
theorem SpaceInv.share_of_outstanding (hi : SpaceInv m s) (h0 : s.outstanding = 0)
    (lh : List ℕ) (q : Fin nProc) (o : Op) (ho : s.op q = some o) : o.Share m lh := by
  have hpos := hi.outstanding_pos ho
  omega

/-- A process inside an operation: no commit is going on. -/
theorem SpaceInv.in_op {o : Op} (hi : SpaceInv m s) (ho : s.op p = some o) :
    1 ≤ s.outstanding ∧ s.committing = false ∧ s.phase = .idle := by
  have hpos := hi.outstanding_pos ho
  have hc : s.committing = false := by
    by_contra hc
    have h0 := (hi.committing (by simpa using hc)).1
    omega
  have hb : s.phase.booting = false := by
    by_contra hb
    have h0 := (hi.booting (by simpa using hb)).2.1
    omega
  exact ⟨hpos, hc, hi.idle hc hb⟩

theorem SpaceInv.share_update (hi : SpaceInv m s) {o : Option Op}
    (h : s'.op = Function.update s.op p o) (hlh : ∀ b ∈ s.lh, b ∈ s'.lh)
    (ho : ∀ x, o = some x → x.Share m s'.lh) (q : Fin nProc) (x : Op) (hx : s'.op q = some x) :
    x.Share m s'.lh := by
  rw [h, Function.update_apply] at hx
  split_ifs at hx
  · exact ho x hx
  · obtain ⟨hmem, hlen, hpend⟩ := hi.share q x hx
    exact ⟨fun b hb => hlh b (hmem b hb), hlen, hpend⟩

/-- Two operations at least share the log when one is let in beside others. -/
theorem shares_le {n c r : ℕ} (hm : m ≤ maxOpBlocks) (hr : r ≤ c * m) (hc : 1 ≤ c)
    (hn : n + (c + 1) * maxOpBlocks ≤ logSize) : n + (r + m) ≤ maxOpBlocks + 2 * m := by
  unfold logSize at hn
  unfold maxOpBlocks at hn hm ⊢
  have hcases : c = 1 ∨ c = 2 := by omega
  rcases hcases with rfl | rfl <;> omega

theorem SpaceInv.enter (hi : SpaceInv m s) (hm : m ≤ maxOpBlocks) (hb : s.phase.booting = false)
    (ho : s.op p = none) (hc : s.committing = false) (hf : ¬s.Full) :
    SpaceInv m ({ s with outstanding := s.outstanding + 1 }.setOp p (some ⟨[], none⟩)) := by
  generalize hs' : ({ s with outstanding := s.outstanding + 1 } : LogState).setOp p
    (some ⟨[], none⟩) = s'
  have hop : s'.op = Function.update s.op p (some ⟨[], none⟩) := by rw [← hs']; rfl
  have hbusy := busy_update hop
  have hrest := rest_update (m := m) hop
  rw [ho] at hbusy hrest
  simp only [Op.busy_some, Op.busy_none, Op.rest_some, Op.rest_none, List.length_nil, Nat.sub_zero,
    add_zero] at hbusy hrest
  have hout := hi.outstanding
  have hphase := hi.idle hc hb
  subst hs'
  refine ⟨?_, hi.share_update hop (fun _ hb => hb) ?_, ?_, ?_, ?_, ?_, fun _ => ?_,
    fun q hq => ?_⟩
  · simp only [setOp_outstanding]
    omega
  · rintro _ ⟨⟩
    exact ⟨by simp, Nat.zero_le m, by simp⟩
  · simp [hc]
  · exact fun _ _ => hphase
  · simp [hb]
  · simp only [setOp_phase, setOp_outstanding, setOp_lh, hphase]
    rintro (⟨-, h0⟩ | h | ⟨_, h⟩)
    · omega
    · simp at h
    · simp at h
  · simp only [setOp_lh]
    rw [hrest]
    have hle := rest_le_busy m s
    unfold Full at hf
    by_cases h0 : s.outstanding = 0
    · rw [hi.empty (.inl ⟨hphase, h0⟩)]
      have hb0 : ∑ q, Op.busy (s.op q) = 0 := by omega
      rw [hb0] at hle
      simp only [List.length_nil]
      omega
    · have hn : s.lh.length + (∑ q, Op.busy (s.op q) + 1) * maxOpBlocks ≤ logSize := by
        rw [hout] at hf
        push_cast at hf
        exact_mod_cast not_lt.mp hf
      exact shares_le hm hle (by omega) hn
  · rcases hi.asleep q hq with h | h
    · simp [hc] at h
    · exact absurd h hf

theorem SpaceInv.check {bs : List ℕ} {b : ℕ} {v : Block} (hi : SpaceInv m s)
    (ho : s.op p = some ⟨bs, none⟩) (hbs : (bs.insert b).length ≤ m) :
    SpaceInv m (s.setOp p (some ⟨bs, some (b, v)⟩)) := by
  have hop : (s.setOp p (some ⟨bs, some (b, v)⟩)).op =
      Function.update s.op p (some ⟨bs, some (b, v)⟩) := rfl
  have hbusy := busy_update hop
  have hrest := rest_update (m := m) hop
  rw [ho] at hbusy hrest
  simp only [Op.busy_some, Op.rest_some, add_left_inj] at hbusy hrest
  refine ⟨?_, hi.share_update hop (fun _ hb => hb) ?_, hi.committing, hi.idle, hi.booting,
    hi.empty, ?_, hi.asleep⟩
  · rw [hbusy]
    exact hi.outstanding
  · rintro _ ⟨⟩
    have hshare := hi.share p _ ho
    refine ⟨hshare.mem, hshare.length, ?_⟩
    rintro _ _ ⟨⟩
    exact hbs
  · rw [hrest]
    exact hi.room

theorem SpaceInv.write {bs : List ℕ} {b : ℕ} {v : Block} (hi : SpaceInv m s)
    (ho : s.op p = some ⟨bs, some (b, v)⟩) :
    SpaceInv m (s.logWrite p ⟨bs, some (b, v)⟩ b v) := by
  obtain ⟨hout, hc, hphase⟩ := hi.in_op ho
  have hshare := hi.share p _ ho
  have hbs : (bs.insert b).length ≤ m := hshare.pending b v rfl
  have hop : (s.logWrite p ⟨bs, some (b, v)⟩ b v).op =
      Function.update s.op p (some ⟨bs.insert b, none⟩) := rfl
  have hbusy := busy_update hop
  have hrest := rest_update (m := m) hop
  rw [ho] at hbusy hrest
  simp only [Op.busy_some, Op.rest_some, add_left_inj] at hbusy hrest
  have hmem : ∀ c, c ∈ s.lh ∨ c = b → c ∈ if b ∈ s.lh then s.lh else s.lh ++ [b] := by
    intro c hc
    split_ifs with hb
    · exact hc.elim id fun h => h ▸ hb
    · simpa using hc
  -- A block that is new in the log is new in the operation.
  have hlen : s.lh.length ≤ (if b ∈ s.lh then s.lh else s.lh ++ [b]).length ∧
      (if b ∈ s.lh then s.lh else s.lh ++ [b]).length + bs.length ≤
        s.lh.length + (bs.insert b).length := by
    split_ifs with hb
    · exact ⟨le_rfl, by have := List.length_le_length_insert (a := b) (l := bs); omega⟩
    · have hnew : b ∉ bs := fun h => hb (hshare.mem b h)
      rw [List.length_insert_of_not_mem hnew]
      simp only [List.length_append, List.length_singleton]
      omega
  refine ⟨?_, hi.share_update hop (fun c hc => hmem c (.inl hc)) ?_, hi.committing, hi.idle,
    hi.booting, ?_, fun hb => ?_, fun q hq => ?_⟩
  · rw [hbusy]
    exact hi.outstanding
  · rintro _ ⟨⟩
    refine ⟨fun c hc => hmem c ?_, hbs, by simp⟩
    exact (List.mem_insert_iff.mp hc).symm.imp (hshare.mem c) id
  · rintro (⟨-, h0⟩ | h | ⟨_, h⟩)
    · simp only [LogState.logWrite, setOp_outstanding] at h0
      omega
    · simp [LogState.logWrite, hphase] at h
    · simp [LogState.logWrite, hphase] at h
  · have hroom := hi.room hb
    simp only [LogState.logWrite, setOp_lh] at hrest ⊢
    omega
  · refine (hi.asleep q hq).imp id fun hf => ?_
    unfold Full at hf ⊢
    simp only [LogState.logWrite, setOp_lh, setOp_outstanding]
    omega

theorem SpaceInv.leave {bs : List ℕ} (hi : SpaceInv m s) (ho : s.op p = some ⟨bs, none⟩)
    (hc : s.committing = false) (hn : s.outstanding - 1 ≠ 0) :
    SpaceInv m ({ s with outstanding := s.outstanding - 1 }.setOp p none).wakeup := by
  generalize hs' : (({ s with outstanding := s.outstanding - 1 } : LogState).setOp p none).wakeup =
    s'
  have hop : s'.op = Function.update s.op p none := by rw [← hs']; rfl
  have hbusy := busy_update hop
  have hrest := rest_update (m := m) hop
  rw [ho] at hbusy hrest
  simp only [Op.busy_some, Op.busy_none, Op.rest_some, Op.rest_none, add_zero] at hbusy hrest
  obtain ⟨hpos, -, hphase⟩ := hi.in_op ho
  have hout := hi.outstanding
  subst hs'
  refine ⟨?_, hi.share_update hop (fun _ hb => hb) (by simp), ?_, hi.idle, ?_, ?_, fun hb => ?_, ?_⟩
  · simp only [LogState.wakeup, setOp_outstanding] at hbusy ⊢
    omega
  · simp [LogState.wakeup, hc]
  · simp [LogState.wakeup, hphase, Phase.booting]
  · rintro (⟨-, h0⟩ | h | ⟨_, h⟩)
    · exact absurd h0 hn
    · simp [LogState.wakeup, hphase] at h
    · simp [LogState.wakeup, hphase] at h
  · have hroom := hi.room hb
    simp only [LogState.wakeup, setOp_lh] at hrest ⊢
    omega
  · simp [LogState.wakeup]

theorem SpaceInv.last {bs : List ℕ} (hi : SpaceInv m s) (ho : s.op p = some ⟨bs, none⟩)
    (hn : s.outstanding - 1 = 0) :
    SpaceInv m { ({ s with outstanding := s.outstanding - 1 } : LogState).setOp p none with
      committing := true, phase := if s.lh = [] then .finish else .writeLog 0 } := by
  generalize hs' : ({ ({ s with outstanding := s.outstanding - 1 } : LogState).setOp p none with
    committing := true, phase := if s.lh = [] then .finish else .writeLog 0 } : LogState) = s'
  have hop : s'.op = Function.update s.op p none := by rw [← hs']; rfl
  have hbusy := busy_update hop
  have hrest := rest_update (m := m) hop
  rw [ho] at hbusy hrest
  simp only [Op.busy_some, Op.busy_none, Op.rest_some, Op.rest_none, add_zero] at hbusy hrest
  obtain ⟨hpos, -, hphase⟩ := hi.in_op ho
  have hroom := hi.room (by rw [hphase]; rfl)
  have hout := hi.outstanding
  subst hs'
  refine ⟨?_, hi.share_update hop (fun _ hb => hb) (by simp), fun _ => ⟨hn, ?_⟩, by simp, ?_, ?_,
    fun _ => ?_, fun _ _ => .inl rfl⟩
  · simp only [setOp_outstanding] at hbusy ⊢
    omega
  · dsimp only
    split_ifs <;> simp
  · dsimp only
    split_ifs <;> simp [Phase.booting]
  · dsimp only
    split_ifs with hl
    · exact fun _ => hl
    · simp
  · simp only [setOp_lh] at hrest ⊢
    omega

theorem SpaceInv.commit_goes_on {blocks : Store} {lh : List ℕ} {phase : Phase}
    (hi : SpaceInv m s) (hc : s.committing = true) (hl : lh.length ≤ s.lh.length)
    (hphase : phase ≠ .idle ∧ phase.booting = false)
    (hempty : phase = .finish ∨ (∃ boot, phase = .clearHead boot) → lh = []) :
    SpaceInv m { s with blocks := blocks, lh := lh, phase := phase } := by
  have hb : s.phase.booting = false := by
    by_contra hb
    simp [(hi.booting (by simpa using hb)).1] at hc
  have hroom := hi.room hb
  refine ⟨hi.outstanding, hi.share_of_outstanding (hi.committing hc).1 lh,
    fun _ => ⟨(hi.committing hc).1, hphase.1⟩, fun h => ?_, fun h => ?_, fun h => hempty ?_,
    fun _ => ?_, fun _ _ => .inl hc⟩
  · simp [hc] at h
  · simp [hphase.2] at h
  · exact h.resolve_left fun h => hphase.1 h.1
  · dsimp only
    omega

theorem SpaceInv.boot_goes_on {blocks : Store} {lh : List ℕ} {phase : Phase}
    (hi : SpaceInv m s) (hb : s.phase.booting = true) (hphase : phase.booting = true)
    (hempty : (∃ boot, phase = .clearHead boot) → lh = []) :
    SpaceInv m { s with blocks := blocks, lh := lh, phase := phase } := by
  obtain ⟨hc, hout, hasleep⟩ := hi.booting hb
  refine ⟨hi.outstanding, hi.share_of_outstanding hout lh, fun h => ?_, fun _ h => ?_,
    fun _ => ⟨hc, hout, hasleep⟩, fun h => hempty ?_, fun h => ?_, fun p hp => ?_⟩
  · simp [hc] at h
  · simp [hphase] at h
  · rcases h with ⟨h, -⟩ | h | h
    · simp [show phase = .idle from h, Phase.booting] at hphase
    · simp [show phase = .finish from h, Phase.booting] at hphase
    · exact h
  · simp [hphase] at h
  · simp [hasleep p] at hp

theorem SpaceInv.not_idle (hi : SpaceInv m s) (hb : s.phase.booting = false)
    (hp : s.phase ≠ .idle) : s.committing = true := by
  by_contra hc
  exact hp (hi.idle (by simpa using hc) hb)

/-- The log is open again: it is empty and nobody is inside an operation. -/
theorem SpaceInv.opens {asleep : Fin nProc → Bool} (hi : SpaceInv m s) (blocks : Store)
    (hout : s.outstanding = 0) (hl : s.lh = []) (hasleep : ∀ p, asleep p = false) :
    SpaceInv m
      { s with blocks := blocks, committing := false, phase := .idle, asleep := asleep } := by
  have hrest := rest_le_busy m s
  have hbusy := hi.outstanding
  have h0 : ∑ p, Op.busy (s.op p) = 0 := by omega
  rw [h0, zero_mul] at hrest
  refine ⟨hi.outstanding, hi.share, by simp, by simp, by simp [Phase.booting], fun _ => hl,
    fun _ => ?_, by simp [hasleep]⟩
  simp only [hl, List.length_nil]
  omega

/-- `commit` and the recovery only give space back. -/
theorem SpaceInv.advance (hi : SpaceInv m s) (h : Advance L s s') : SpaceInv m s' := by
  cases h with
  | copy tail b hp hb | copied tail hp hb | commit hp =>
    have hc := hi.not_idle (by rw [hp]; rfl) (by simp [hp])
    exact hi.commit_goes_on hc le_rfl (by simp [Phase.booting]) (by simp)
  | install boot tail b hp hb =>
    cases boot with
    | false =>
      have hc := hi.not_idle (by rw [hp]; rfl) (by simp [hp])
      exact hi.commit_goes_on hc le_rfl (by simp [Phase.booting]) (by simp)
    | true => exact hi.boot_goes_on (by rw [hp]; rfl) rfl (by simp)
  | installed boot tail hp hb =>
    cases boot with
    | false =>
      have hc := hi.not_idle (by rw [hp]; rfl) (by simp [hp])
      exact hi.commit_goes_on hc (Nat.zero_le _) (by simp [Phase.booting]) (by simp)
    | true => exact hi.boot_goes_on (by rw [hp]; rfl) rfl (by simp)
  | clear boot hp =>
    have hl := hi.empty (.inr (.inr ⟨boot, hp⟩))
    cases boot with
    | false =>
      have hc := hi.not_idle (by rw [hp]; rfl) (by simp [hp])
      exact hi.commit_goes_on hc le_rfl (by simp [Phase.booting]) (fun _ => hl)
    | true =>
      obtain ⟨hc, hout, hasleep⟩ := hi.booting (by rw [hp]; rfl)
      have hopen := hi.opens
        (s.blocks.bwrite L.start (encodeHead s.lh (s.blocks.content L.start))) hout hl hasleep
      rw [← hc] at hopen
      exact hopen
  | finish hp =>
    have hc := hi.not_idle (by rw [hp]; rfl) (by simp [hp])
    exact hi.opens s.blocks (hi.committing hc).1 (hi.empty (.inr (.inl hp))) fun _ => rfl
  | readHead es hp hd => exact hi.boot_goes_on (by rw [hp]; rfl) rfl (by simp)

theorem spaceInv_boot (m : ℕ) (blocks : Store) : SpaceInv m (.boot blocks) := by
  constructor <;> simp [LogState.boot, Phase.booting]

theorem LogTrans.spaceInv (h : LogTrans L s a s') (hm : m ≤ maxOpBlocks)
    (ha : WithinBudget L m a s) (hi : SpaceInv m s) : SpaceInv m s' := by
  cases h with
  | sleep p hb ho hw =>
    refine ⟨hi.outstanding, hi.share, hi.committing, hi.idle, fun h => ?_, hi.empty, hi.room,
      fun q hq => ?_⟩
    · simp [hb] at h
    · dsimp only at hq
      rw [Function.update_apply] at hq
      split_ifs at hq
      · exact hw
      · exact hi.asleep q hq
  | enter p hb hs ho hc hf => exact hi.enter hm hb ho hc hf
  | check p bs b v ho => exact hi.check ho (ha.1 _ ho)
  | write p bs b v ho => exact hi.write ho
  | leave p bs ho hc hn => exact hi.leave ho hc hn
  | last p bs ho hc hn => exact hi.last ho hn
  | advance h => exact hi.advance h
  | crash => exact spaceInv_boot m _

theorem spaceInv_of_run {disk : ℕ → Block} {tr : List (Event LogState LogStep Unit)}
    (hm : m ≤ maxOpBlocks) (h : LogRun L m disk tr s) : SpaceInv m s := by
  apply h.invariant
  · rintro _ rfl
    exact spaceInv_boot m _
  · intro s a r s' hi ha he
    exact (execLog_trans he).spaceInv hm ha hi

end

end SsuOs.Xv6
