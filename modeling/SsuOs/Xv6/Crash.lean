import SsuOs.Xv6.LogSpace

/-! The log makes every group of operations atomic: whenever the machine crashes, the recovery
finds the blocks as the last commit left them. -/
namespace SsuOs.Xv6
open SsuOs.Lib LogState

section Head

theorem encodeHead_zero (lh : List ℕ) (v : Block) : encodeHead lh v 0 = lh.length := rfl

theorem encodeHead_succ {lh : List ℕ} {i : ℕ} (v : Block) (hi : i < lh.length)
    (hl : lh.length ≤ logSize) :
    encodeHead lh v (Fin.ofNat 128 (i + 1)) = (lh[i] : ℤ) := by
  have hmod : (i + 1) % 128 = i + 1 := by
    unfold logSize maxOpBlocks at hl
    omega
  have hne : Fin.ofNat 128 (i + 1) ≠ 0 := by
    intro h
    have hval := congrArg Fin.val h
    simp [Fin.ofNat, hmod] at hval
  rw [encodeHead, if_neg hne]
  simp [Fin.ofNat, hmod, hi]

/-- The recovery reads the entries that the commit has written. -/
theorem decodeHead_encodeHead {lh : List ℕ} (v : Block) (hl : lh.length ≤ logSize)
    (hb : ∀ b ∈ lh, b < fsSize) : decodeHead (encodeHead lh v) = .ok lh := by
  unfold decodeHead
  rw [encodeHead_zero, if_neg (by exact_mod_cast not_lt.mpr hl)]
  congr 1
  apply List.ext_getElem
  · simp
  · intro i h₁ h₂
    have hi := hb lh[i] (List.getElem_mem h₂)
    rw [List.getElem_map, List.getElem_range, encodeHead_succ v h₂ hl]
    unfold fsSize at hi
    omega

end Head

namespace LogLayout

variable (L : LogLayout)

/-- The writes that a header with the entries `es` stands for. -/
def logged (disk : ℕ → Block) (es : List ℕ) : List (ℕ × Block) :=
  es.mapIdx fun i b => (b, disk (L.slot i))

/-- The blocks as the recovery makes them from what is on the disk. -/
def durable (disk : ℕ → Block) : ℕ → Block :=
  match decodeHead (disk L.start) with
  | .ok es => applyWrites (L.logged disk es) disk
  | .error _ => disk

/-- The blocks of the log itself do not count. -/
def home (d : ℕ → Block) : ℕ → Block := fun b => if L.InLog b then fun _ => 0 else d b

variable {L} {disk : ℕ → Block} {es : List ℕ} {i j b : ℕ}

theorem home_congr {d d' : ℕ → Block} (h : ∀ b, ¬L.InLog b → d b = d' b) :
    L.home d = L.home d' := by
  funext b
  unfold home
  split_ifs with hb
  · rfl
  · exact h b hb

theorem home_update {d : ℕ → Block} {v : Block} (hb : ¬L.InLog b) :
    L.home (Function.update d b v) = Function.update (L.home d) b v := by
  funext c
  by_cases hc : c = b
  · subst hc
    simp [home, hb]
  · simp [home, hc]

theorem home_update_log {d : ℕ → Block} {v : Block} (hb : L.InLog b) :
    L.home (Function.update d b v) = L.home d := by
  refine home_congr fun c hc => ?_
  have hne : c ≠ b := fun h => hc (h ▸ hb)
  rw [Function.update_of_ne hne]

theorem inLog_start : L.InLog L.start := ⟨le_rfl, Nat.lt_add_of_pos_right L.size_pos⟩

theorem inLog_slot (hi : i + 1 < L.size) : L.InLog (L.slot i) := by
  unfold InLog slot
  omega

theorem slot_ne_start (i : ℕ) : L.slot i ≠ L.start := by
  unfold slot
  omega

theorem slot_inj (h : L.slot i = L.slot j) : i = j := by
  unfold slot at h
  omega

theorem mem_logged {w : ℕ × Block} : w ∈ L.logged disk es ↔
    ∃ i b, es[i]? = some b ∧ (b, disk (L.slot i)) = w := by
  unfold logged
  rw [List.mem_mapIdx]
  constructor
  · rintro ⟨i, hi, h⟩
    exact ⟨i, es[i], List.getElem?_eq_getElem hi, h⟩
  · rintro ⟨i, b, hb, h⟩
    obtain ⟨hi, rfl⟩ := List.getElem?_eq_some_iff.mp hb
    exact ⟨i, hi, h⟩

theorem exists_mem_logged : (∃ w ∈ L.logged disk es, w.1 = b) ↔ b ∈ es := by
  rw [List.mem_iff_getElem?]
  constructor
  · rintro ⟨w, hw, rfl⟩
    obtain ⟨i, b, hb, rfl⟩ := mem_logged.mp hw
    exact ⟨i, hb⟩
  · rintro ⟨i, hb⟩
    exact ⟨_, mem_logged.mpr ⟨i, b, hb, rfl⟩, rfl⟩

theorem durable_nil (h : decodeHead (disk L.start) = .ok []) : L.durable disk = disk := by
  unfold durable
  rw [h]
  rfl

theorem durable_ok (h : decodeHead (disk L.start) = .ok es) :
    L.durable disk = applyWrites (L.logged disk es) disk := by
  unfold durable
  rw [h]

end LogLayout

/-- The log part of the disk is what the cache shows, and the header there has the entries `es`. -/
structure HeadIs (L : LogLayout) (d : Store) (es : List ℕ) : Prop where
  head : decodeHead (d.disk L.start) = .ok es
  same : ∀ b, L.InLog b → d.content b = d.disk b

/-- Outside the log, the disk is behind the cache in the blocks `bs` at most. -/
def Synced (L : LogLayout) (d : Store) (bs : List ℕ) : Prop :=
  ∀ b, ¬L.InLog b → b ∉ bs → d.content b = d.disk b

/-- The first `k` entries are in the log. -/
def Copied (L : LogLayout) (d : Store) (es : List ℕ) (k : ℕ) : Prop :=
  ∀ i b, i < k → es[i]? = some b → d.disk (L.slot i) = d.content b

/-- What `commit` and the recovery have done so far. -/
def PhaseInv (L : LogLayout) (d : Store) (lh : List ℕ) : Phase → Prop
  | .idle => HeadIs L d [] ∧ Synced L d lh
  | .writeLog tail => HeadIs L d [] ∧ Synced L d lh ∧ Copied L d lh tail
  | .writeHead => HeadIs L d [] ∧ Synced L d lh ∧ Copied L d lh lh.length
  | .install false tail => HeadIs L d lh ∧ Synced L d (lh.drop tail) ∧ Copied L d lh lh.length
  | .clearHead false => ∃ es, L.Fit es ∧ HeadIs L d es ∧ Synced L d [] ∧ Copied L d es es.length
  | .finish => HeadIs L d [] ∧ Synced L d []
  | .readHead => d.content = d.disk ∧ ∃ es, L.Fit es ∧ HeadIs L d es
  | .install true tail => d.content = d.disk ∧ HeadIs L d lh ∧
      applyWrites ((L.logged d.disk lh).take tail) d.disk = d.disk
  | .clearHead true => d.content = d.disk ∧ ∃ es, L.Fit es ∧ HeadIs L d es ∧
      applyWrites (L.logged d.disk es) d.disk = d.disk

section

variable {L : LogLayout} {d : Store} {es bs : List ℕ} {b tail : ℕ} {v : Block}

@[simp] theorem Store.bwrite_content : (d.bwrite b v).content = Function.update d.content b v := rfl

@[simp] theorem Store.bwrite_disk : (d.bwrite b v).disk = Function.update d.disk b v := by
  simp [Store.bwrite, Store.store, Store.flush]

/-- A block that is written through is in step on both sides. -/
theorem HeadIs.bwrite (h : HeadIs L d es) (hb : b ≠ L.start) : HeadIs L (d.bwrite b v) es := by
  refine ⟨?_, fun c hc => ?_⟩
  · rw [Store.bwrite_disk, Function.update_of_ne hb.symm]
    exact h.head
  · rw [Store.bwrite_disk, Store.bwrite_content]
    by_cases hcb : c = b
    · simp [hcb]
    · rw [Function.update_of_ne hcb, Function.update_of_ne hcb]
      exact h.same c hc

theorem HeadIs.writeHead {lh : List ℕ} (h : HeadIs L d es) (hf : L.Fit lh) (w : Block) :
    HeadIs L (d.bwrite L.start (encodeHead lh w)) lh := by
  refine ⟨?_, fun c hc => ?_⟩
  · rw [Store.bwrite_disk, Function.update_self]
    exact decodeHead_encodeHead w hf.room fun b hb => (hf.home b hb).2.1
  · rw [Store.bwrite_disk, Store.bwrite_content]
    by_cases hcb : c = L.start
    · simp [hcb]
    · rw [Function.update_of_ne hcb, Function.update_of_ne hcb]
      exact h.same c hc

theorem Synced.bwrite_log (h : Synced L d bs) (hb : L.InLog b) : Synced L (d.bwrite b v) bs := by
  intro c hc hcs
  have hcb : c ≠ b := fun hcb => hc (hcb ▸ hb)
  rw [Store.bwrite_disk, Store.bwrite_content, Function.update_of_ne hcb,
    Function.update_of_ne hcb]
  exact h c hc hcs

theorem Copied.bwrite_log {k : ℕ} (h : Copied L d es k) (hf : L.Fit es) (hb : L.InLog b)
    (hk : ∀ i, i < k → L.slot i ≠ b) : Copied L (d.bwrite b v) es k := by
  intro i c hi hc
  have hcb : c ≠ b := fun hcb => (hf.home c (List.mem_of_getElem? hc)).1 (hcb ▸ hb)
  rw [Store.bwrite_disk, Store.bwrite_content, Function.update_of_ne hcb,
    Function.update_of_ne (hk i hi)]
  exact h i c hi hc

/-- What the recovery would make of a disk with the whole log written is what the cache shows. -/
theorem durable_eq_content (hh : HeadIs L d es) (hs : Synced L d bs) (hsub : ∀ b ∈ bs, b ∈ es)
    (hc : Copied L d es es.length) (hb : ¬L.InLog b) : L.durable d.disk b = d.content b := by
  rw [LogLayout.durable_ok hh.head]
  by_cases hmem : b ∈ es
  · apply applyWrites_agree (LogLayout.exists_mem_logged.mpr hmem)
    intro w hw
    obtain ⟨i, c, hic, rfl⟩ := LogLayout.mem_logged.mp hw
    exact hc i c (List.getElem?_eq_some_iff.mp hic).1 hic
  · rw [applyWrites_of_notMem, hs b hb fun h => hmem (hsub b h)]
    intro w hw hwb
    exact hmem (LogLayout.exists_mem_logged.mp ⟨w, hw, hwb⟩)

end

/-- What the log is for: blocks that survive a crash and blocks as the running operations see
them. An operation is under way, maybe with a write in hand. -/
structure Tx where
  durable : ℕ → Block
  current : ℕ → Block
  op : Fin nProc → Option (Option (ℕ × Block))

inductive TxCall
  | begin (p : Fin nProc)
  | prepare (p : Fin nProc) (b : ℕ) (v : Block)
  | write (p : Fin nProc)
  | finish (p : Fin nProc)
  | commit
  | crash
  deriving DecidableEq

/-- Writes are seen at once, become durable all together at a commit between operations, and get
lost all together. -/
inductive TxStep (t : Tx) : TxCall → Unit → Tx → Prop
  | begin (p : Fin nProc) (ho : t.op p = none) :
      TxStep t (.begin p) () { t with op := Function.update t.op p (some none) }
  | prepare (p : Fin nProc) (b : ℕ) (v : Block) (ho : t.op p = some none) :
      TxStep t (.prepare p b v) () { t with op := Function.update t.op p (some (some (b, v))) }
  | write (p : Fin nProc) (b : ℕ) (v : Block) (ho : t.op p = some (some (b, v))) :
      TxStep t (.write p) () { t with
        current := Function.update t.current b v, op := Function.update t.op p (some none) }
  | finish (p : Fin nProc) (ho : t.op p = some none) :
      TxStep t (.finish p) () { t with op := Function.update t.op p none }
  | commit (ho : ∀ p, t.op p = none) : TxStep t .commit () { t with durable := t.current }
  | crash : TxStep t .crash () { t with current := t.durable, op := fun _ => none }

/-- The commit is the write of the header by `commit`; all other steps of it and of the recovery,
and a process that goes to sleep in `begin_op`, show nothing. -/
def txCall (e : Event LogState LogStep Unit) : Option (TxCall × Unit) :=
  match e.call with
  | .beginOp p => if e.pre.committing ∨ e.pre.Full then none else some (.begin p, ())
  | .checkWrite p b v => some (.prepare p b v, ())
  | .logWrite p => some (.write p, ())
  | .endOp p => some (.finish p, ())
  | .advance => if e.pre.phase = .writeHead then some (.commit, ()) else none
  | .crash => some (.crash, ())

namespace LogState

/-- The blocks as the operations see them, or will see them after the recovery. -/
def current (L : LogLayout) (s : LogState) : ℕ → Block :=
  if s.phase.booting then L.durable s.blocks.disk else s.blocks.content

def tx (L : LogLayout) (s : LogState) : Tx where
  durable := L.home (L.durable s.blocks.disk)
  current := L.home (s.current L)
  op p := (s.op p).map Op.pending

end LogState

structure CrashInv (L : LogLayout) (m : ℕ) (s : LogState) : Prop where
  space : SpaceInv m s
  fit : L.Fit s.lh
  phase : PhaseInv L s.blocks s.lh s.phase
  pending : ∀ p bs b v, s.op p = some ⟨bs, some (b, v)⟩ → L.Home b

section

variable {L : LogLayout} {m : ℕ} {s s' : LogState} {tail b : ℕ}

theorem LogLayout.fit_nil (L : LogLayout) : L.Fit [] :=
  ⟨L.size_pos, Nat.zero_le _, by simp⟩

theorem LogLayout.Fit.inLog_slot {es : List ℕ} (hf : L.Fit es) (hb : es[tail]? = some b) :
    L.InLog (L.slot tail) := by
  have hlen := (List.getElem?_eq_some_iff.mp hb).1
  exact LogLayout.inLog_slot (by have := hf.length; omega)

theorem LogLayout.Fit.home_of {es : List ℕ} (hf : L.Fit es) (hb : es[tail]? = some b) :
    L.Home b := hf.home b (List.mem_of_getElem? hb)

theorem PhaseInv.copy {d : Store} {lh : List ℕ} (h : PhaseInv L d lh (.writeLog tail))
    (hf : L.Fit lh) (hb : lh[tail]? = some b) :
    PhaseInv L (d.bwrite (L.slot tail) (d.content b)) lh (.writeLog (tail + 1)) := by
  obtain ⟨hh, hs, hc⟩ := h
  have hlog := hf.inLog_slot hb
  have hcopied := hc.bwrite_log (v := d.content b) hf hlog
    fun i hi h => absurd (LogLayout.slot_inj h) hi.ne
  refine ⟨hh.bwrite (LogLayout.slot_ne_start tail), hs.bwrite_log hlog, fun i c hi hic => ?_⟩
  rcases Nat.lt_succ_iff_lt_or_eq.mp hi with hi | rfl
  · exact hcopied i c hi hic
  · obtain rfl : b = c := Option.some.inj (hb.symm.trans hic)
    have hne : b ≠ L.slot i := fun hne => (hf.home_of hb).1 (hne ▸ hlog)
    simp [hne]

theorem PhaseInv.commit {d : Store} {lh : List ℕ} (h : PhaseInv L d lh .writeHead)
    (hf : L.Fit lh) (w : Block) :
    PhaseInv L (d.bwrite L.start (encodeHead lh w)) lh (.install false 0) := by
  obtain ⟨hh, hs, hc⟩ := h
  exact ⟨hh.writeHead hf w, hs.bwrite_log LogLayout.inLog_start,
    hc.bwrite_log hf LogLayout.inLog_start fun i _ => LogLayout.slot_ne_start i⟩

theorem PhaseInv.content_slot {d : Store} {lh : List ℕ}
    (h : PhaseInv L d lh (.install false tail)) (hf : L.Fit lh) (hb : lh[tail]? = some b) :
    d.content (L.slot tail) = d.content b := by
  obtain ⟨hh, hs, hc⟩ := h
  rw [hh.same _ (hf.inLog_slot hb)]
  exact hc tail b (List.getElem?_eq_some_iff.mp hb).1 hb

theorem PhaseInv.install {d : Store} {lh : List ℕ} (h : PhaseInv L d lh (.install false tail))
    (hf : L.Fit lh) (hb : lh[tail]? = some b) :
    PhaseInv L (d.bwrite b (d.content (L.slot tail))) lh (.install false (tail + 1)) := by
  rw [h.content_slot hf hb]
  obtain ⟨hh, hs, hc⟩ := h
  obtain ⟨hlt, hget⟩ := List.getElem?_eq_some_iff.mp hb
  have hhome := (hf.home_of hb).1
  refine ⟨hh.bwrite fun h => hhome (h ▸ LogLayout.inLog_start), fun c hc hcs => ?_,
    fun i c hi hic => ?_⟩
  · rw [Store.bwrite_disk, Store.bwrite_content, Function.update_eq_self]
    by_cases hcb : c = b
    · rw [hcb, Function.update_self]
    · rw [Function.update_of_ne hcb]
      refine hs c hc ?_
      rw [List.drop_eq_getElem_cons hlt, hget]
      simp [hcb, hcs]
  · have hne : L.slot i ≠ b := fun h => hhome (h ▸ hf.inLog_slot hic)
    rw [Store.bwrite_disk, Store.bwrite_content, Function.update_eq_self,
      Function.update_of_ne hne]
    exact hc i c hi hic

theorem logged_bwrite {d : Store} {es : List ℕ} {v : Block} (hf : L.Fit es)
    (hb : ¬L.InLog b) : L.logged (d.bwrite b v).disk es = L.logged d.disk es := by
  unfold LogLayout.logged
  apply List.ext_getElem
  · simp
  · intro i h₁ h₂
    have hi : i < es.length := by simpa using h₁
    have hne : L.slot i ≠ b := fun h =>
      hb (h ▸ hf.inLog_slot (List.getElem?_eq_getElem hi))
    simp [hne]

theorem logged_take_succ {disk : ℕ → Block} {es : List ℕ} (hb : es[tail]? = some b) :
    (L.logged disk es).take (tail + 1) =
      (L.logged disk es).take tail ++ [(b, disk (L.slot tail))] := by
  obtain ⟨hlt, hget⟩ := List.getElem?_eq_some_iff.mp hb
  have hlt' : tail < (L.logged disk es).length := by simpa [LogLayout.logged] using hlt
  rw [List.take_succ_eq_append_getElem hlt']
  simp [LogLayout.logged, hget]

theorem PhaseInv.reinstall {d : Store} {lh : List ℕ} (h : PhaseInv L d lh (.install true tail))
    (hf : L.Fit lh) (hb : lh[tail]? = some b) :
    PhaseInv L (d.bwrite b (d.content (L.slot tail))) lh (.install true (tail + 1)) := by
  obtain ⟨heq, hh, hw⟩ := h
  have hhome := (hf.home_of hb).1
  refine ⟨?_, hh.bwrite fun h => hhome (h ▸ LogLayout.inLog_start), ?_⟩
  · rw [Store.bwrite_disk, Store.bwrite_content, heq]
  · rw [logged_bwrite hf hhome, logged_take_succ hb, heq, Store.bwrite_disk]
    exact applyWrites_concat_fixed hw b _

theorem Advance.phaseInv (h : Advance L s s') (hi : CrashInv L m s) :
    L.Fit s'.lh ∧ PhaseInv L s'.blocks s'.lh s'.phase := by
  have hphase := hi.phase
  have hf := hi.fit
  cases h with
  | copy tail b hp hb =>
    rw [hp] at hphase
    exact ⟨hf, hphase.copy hf hb⟩
  | copied tail hp hb =>
    rw [hp] at hphase
    obtain ⟨hh, hs, hc⟩ := hphase
    exact ⟨hf, hh, hs, fun i c hi hic => hc i c (hi.trans_le hb) hic⟩
  | commit hp =>
    rw [hp] at hphase
    exact ⟨hf, hphase.commit hf _⟩
  | install boot tail b hp hb =>
    rw [hp] at hphase
    cases boot with
    | false => exact ⟨hf, hphase.install hf hb⟩
    | true => exact ⟨hf, hphase.reinstall hf hb⟩
  | installed boot tail hp hb =>
    rw [hp] at hphase
    cases boot with
    | false =>
      obtain ⟨hh, hs, hc⟩ := hphase
      rw [List.drop_of_length_le hb] at hs
      exact ⟨L.fit_nil, s.lh, hf, hh, hs, hc⟩
    | true =>
      obtain ⟨heq, hh, hw⟩ := hphase
      rw [List.take_of_length_le (by simpa [LogLayout.logged] using hb)] at hw
      exact ⟨L.fit_nil, heq, s.lh, hf, hh, hw⟩
  | clear boot hp =>
    rw [hp] at hphase
    have hl := hi.space.empty (.inr (.inr ⟨boot, hp⟩))
    refine ⟨hf, ?_⟩
    dsimp only
    cases boot with
    | false =>
      obtain ⟨es, hes, hh, hs, hc⟩ := hphase
      rw [hl]
      exact ⟨hh.writeHead L.fit_nil _, hs.bwrite_log LogLayout.inLog_start⟩
    | true =>
      obtain ⟨heq, es, hes, hh, hw⟩ := hphase
      rw [hl]
      refine ⟨hh.writeHead L.fit_nil _, Synced.bwrite_log (fun b _ _ => ?_) LogLayout.inLog_start⟩
      rw [heq]
  | finish hp =>
    rw [hp] at hphase
    have hl := hi.space.empty (.inr (.inl hp))
    refine ⟨hf, ?_⟩
    simp only [LogState.wakeup, hl]
    exact hphase
  | readHead es hp hd =>
    rw [hp] at hphase
    obtain ⟨heq, es', hes', hh⟩ := hphase
    have hes : es = es' := by
      rw [heq, hh.head] at hd
      exact (Except.ok.inj hd).symm
    rw [hes]
    exact ⟨hes', heq, hh, by simp⟩

theorem PhaseInv.durable_install {d : Store} {lh : List ℕ}
    (h : PhaseInv L d lh (.install false tail)) : L.home (L.durable d.disk) = L.home d.content := by
  obtain ⟨hh, hs, hc⟩ := h
  exact LogLayout.home_congr fun b hb =>
    durable_eq_content hh hs (fun _ => List.mem_of_mem_drop) hc hb

theorem PhaseInv.durable_clearHead {d : Store} {lh : List ℕ}
    (h : PhaseInv L d lh (.clearHead false)) : L.home (L.durable d.disk) = L.home d.content := by
  obtain ⟨es, -, hh, hs, hc⟩ := h
  exact LogLayout.home_congr fun b hb => durable_eq_content hh hs (by simp) hc hb

/-- Installing a block again does not change what the recovery makes of the disk. -/
theorem PhaseInv.durable_reinstall {d : Store} {lh : List ℕ} {v : Block}
    (h : PhaseInv L d lh (.install true tail)) (hf : L.Fit lh) (hb : lh[tail]? = some b) :
    L.durable (d.bwrite b v).disk = L.durable d.disk := by
  obtain ⟨-, hh, -⟩ := h
  have hhome := (hf.home_of hb).1
  have hh' : HeadIs L (d.bwrite b v) lh := hh.bwrite fun h => hhome (h ▸ LogLayout.inLog_start)
  rw [LogLayout.durable_ok hh'.head, LogLayout.durable_ok hh.head, logged_bwrite hf hhome,
    Store.bwrite_disk]
  exact applyWrites_update (LogLayout.exists_mem_logged.mpr (List.mem_of_getElem? hb)) _ _

theorem current_of_boot (h : s.phase.booting = true) : s.current L = L.durable s.blocks.disk :=
  if_pos h

theorem current_of_not_boot (h : s.phase.booting = false) : s.current L = s.blocks.content :=
  if_neg (by simp [h])

/-- Of all steps of `commit` and of the recovery, only the first write of the header changes what
a crash leaves: it makes the blocks that the operations see durable. -/
theorem Advance.effect (h : Advance L s s') (hi : CrashInv L m s) :
    L.home (s'.current L) = L.home (s.current L) ∧
      (s.phase ≠ .writeHead ∧
          L.home (L.durable s'.blocks.disk) = L.home (L.durable s.blocks.disk) ∨
        s.phase = .writeHead ∧
          L.home (L.durable s'.blocks.disk) = L.home (s.current L)) := by
  have hphase := hi.phase
  have hf := hi.fit
  have hphase' := (h.phaseInv hi).2
  cases h with
  | copy tail b hp hb =>
    have hlog := hf.inLog_slot hb
    rw [hp] at hphase
    rw [current_of_not_boot rfl, current_of_not_boot (by rw [hp]; rfl)]
    refine ⟨LogLayout.home_update_log hlog, .inl ⟨by simp [hp], ?_⟩⟩
    rw [LogLayout.durable_nil hphase.1.head, LogLayout.durable_nil hphase'.1.head,
      Store.bwrite_disk]
    exact LogLayout.home_update_log hlog
  | copied tail hp hb =>
    rw [current_of_not_boot rfl, current_of_not_boot (by rw [hp]; rfl)]
    exact ⟨rfl, .inl ⟨by simp [hp], rfl⟩⟩
  | commit hp =>
    rw [current_of_not_boot rfl, current_of_not_boot (by rw [hp]; rfl)]
    refine ⟨LogLayout.home_update_log LogLayout.inLog_start, .inr ⟨hp, ?_⟩⟩
    rw [hphase'.durable_install]
    exact LogLayout.home_update_log LogLayout.inLog_start
  | install boot tail b hp hb =>
    rw [hp] at hphase
    cases boot with
    | false =>
      have hcontent : (s.blocks.bwrite b (s.blocks.content (L.slot tail))).content =
          s.blocks.content := by
        rw [Store.bwrite_content, hphase.content_slot hf hb, Function.update_eq_self]
      rw [current_of_not_boot rfl, current_of_not_boot (by rw [hp]; rfl),
        hphase'.durable_install, hphase.durable_install]
      dsimp only
      rw [hcontent]
      exact ⟨rfl, .inl ⟨by simp [hp], rfl⟩⟩
    | true =>
      rw [current_of_boot rfl, current_of_boot (by rw [hp]; rfl)]
      dsimp only
      rw [hphase.durable_reinstall hf hb]
      exact ⟨rfl, .inl ⟨by simp [hp], rfl⟩⟩
  | installed boot tail hp hb =>
    cases boot with
    | false =>
      rw [current_of_not_boot rfl, current_of_not_boot (by rw [hp]; rfl)]
      exact ⟨rfl, .inl ⟨by simp [hp], rfl⟩⟩
    | true =>
      rw [current_of_boot rfl, current_of_boot (by rw [hp]; rfl)]
      exact ⟨rfl, .inl ⟨by simp [hp], rfl⟩⟩
  | clear boot hp =>
    rw [hp] at hphase
    cases boot with
    | false =>
      have hsync : L.home s.blocks.disk = L.home s.blocks.content := by
        obtain ⟨es, -, -, hs, -⟩ := hphase
        exact LogLayout.home_congr fun b hb => (hs b hb (by simp)).symm
      rw [current_of_not_boot rfl, current_of_not_boot (by rw [hp]; rfl),
        hphase.durable_clearHead, LogLayout.durable_nil hphase'.1.head]
      refine ⟨LogLayout.home_update_log LogLayout.inLog_start, .inl ⟨by simp [hp], ?_⟩⟩
      rw [Store.bwrite_disk, LogLayout.home_update_log LogLayout.inLog_start, hsync]
    | true =>
      obtain ⟨heq, es, hes, hh, hw⟩ := hphase
      rw [current_of_not_boot rfl, current_of_boot (by rw [hp]; rfl),
        LogLayout.durable_nil hphase'.1.head, LogLayout.durable_ok hh.head, hw]
      dsimp only
      rw [Store.bwrite_content, Store.bwrite_disk, heq,
        LogLayout.home_update_log LogLayout.inLog_start]
      exact ⟨rfl, .inl ⟨by simp [hp], rfl⟩⟩
  | finish hp =>
    rw [current_of_not_boot rfl, current_of_not_boot (by rw [hp]; rfl)]
    exact ⟨rfl, .inl ⟨by simp [hp], rfl⟩⟩
  | readHead es hp hd =>
    rw [current_of_boot rfl, current_of_boot (by rw [hp]; rfl)]
    exact ⟨rfl, .inl ⟨by simp [hp], rfl⟩⟩

theorem PhaseInv.wellFormed {d : Store} {lh : List ℕ} {phase : Phase} (hf : L.Fit lh)
    (h : PhaseInv L d lh phase) : L.WellFormed d.disk := by
  cases phase with
  | idle => exact ⟨[], h.1.head, L.fit_nil⟩
  | writeLog tail => exact ⟨[], h.1.head, L.fit_nil⟩
  | writeHead => exact ⟨[], h.1.head, L.fit_nil⟩
  | install boot tail =>
    cases boot with
    | false => exact ⟨lh, h.1.head, hf⟩
    | true => exact ⟨lh, h.2.1.head, hf⟩
  | clearHead boot =>
    cases boot with
    | false =>
      obtain ⟨es, hes, hh, -⟩ := h
      exact ⟨es, hh.head, hes⟩
    | true =>
      obtain ⟨-, es, hes, hh, -⟩ := h
      exact ⟨es, hh.head, hes⟩
  | finish => exact ⟨[], h.1.head, L.fit_nil⟩
  | readHead =>
    obtain ⟨-, es, hes, hh⟩ := h
    exact ⟨es, hh.head, hes⟩

theorem crashInv_boot (m : ℕ) {disk : ℕ → Block} (h : L.WellFormed disk) :
    CrashInv L m (.boot ⟨disk, disk⟩) := by
  obtain ⟨es, hd, hes⟩ := h
  exact ⟨spaceInv_boot m _, L.fit_nil, ⟨rfl, es, hes, hd, fun _ _ => rfl⟩, by simp [LogState.boot]⟩

theorem LogTrans.crashInv {a : LogStep} (h : LogTrans L s a s') (hm : m ≤ maxOpBlocks)
    (hL : maxOpBlocks + 2 * m < L.size) (ha : WithinBudget L m a s) (hi : CrashInv L m s) :
    CrashInv L m s' := by
  have hspace := h.spaceInv hm ha hi.space
  have hpend := hi.pending
  cases h with
  | sleep p hb ho hw => exact ⟨hspace, hi.fit, hi.phase, hi.pending⟩
  | enter p hb hs ho hc hf =>
    refine ⟨hspace, hi.fit, hi.phase, fun q bs b v hq => ?_⟩
    rw [setOp_op] at hq
    split_ifs at hq
    · simp at hq
    · exact hpend q bs b v hq
  | check p bs b v ho =>
    refine ⟨hspace, hi.fit, hi.phase, fun q cs c w hq => ?_⟩
    rw [setOp_op] at hq
    split_ifs at hq
    · obtain ⟨-, rfl, -⟩ : bs = cs ∧ b = c ∧ v = w := by simpa using hq
      exact ha.2
    · exact hpend q cs c w hq
  | write p bs b v ho =>
    obtain ⟨-, -, hidle⟩ := hi.space.in_op ho
    have hb := hpend p bs b v ho
    have hphase := hi.phase
    have hroom := hspace.room (by simp [LogState.logWrite, hidle, Phase.booting])
    rw [hidle] at hphase
    obtain ⟨hh, hs⟩ := hphase
    have hlog : (s.logWrite p ⟨bs, some (b, v)⟩ b v).lh =
        if b ∈ s.lh then s.lh else s.lh ++ [b] := rfl
    have hmem : ∀ c, c ∈ (s.logWrite p ⟨bs, some (b, v)⟩ b v).lh ↔ c ∈ s.lh ∨ c = b := by
      intro c
      rw [hlog]
      split_ifs with hbm
      · constructor
        · exact .inl
        · rintro (h | rfl)
          · exact h
          · exact hbm
      · simp
    refine ⟨hspace, ⟨by omega, ?_, fun c hc => ?_⟩, ?_, fun q cs c w hq => ?_⟩
    · unfold logSize
      unfold maxOpBlocks at hroom hm ⊢
      omega
    · rcases (hmem c).mp hc with hc | rfl
      · exact hi.fit.home c hc
      · exact hb
    · have hp : (s.logWrite p ⟨bs, some (b, v)⟩ b v).phase = .idle := hidle
      rw [hp]
      refine ⟨⟨hh.head, fun c hc => ?_⟩, fun c hc hcs => ?_⟩
      · have hcb : c ≠ b := fun h => hb.1 (h ▸ hc)
        simp only [LogState.logWrite, setOp_blocks, Store.store]
        rw [Function.update_of_ne hcb]
        exact hh.same c hc
      · rw [hmem, not_or] at hcs
        simp only [LogState.logWrite, setOp_blocks, Store.store]
        rw [Function.update_of_ne hcs.2]
        exact hs c hc hcs.1
    · simp only [LogState.logWrite, setOp_op] at hq
      split_ifs at hq
      · simp at hq
      · exact hpend q cs c w hq
  | leave p bs ho hc hn =>
    refine ⟨hspace, hi.fit, hi.phase, fun q cs c w hq => ?_⟩
    simp only [LogState.wakeup, setOp_op] at hq
    split_ifs at hq
    exact hpend q cs c w hq
  | last p bs ho hc hn =>
    obtain ⟨-, -, hidle⟩ := hi.space.in_op ho
    have hphase := hi.phase
    rw [hidle] at hphase
    obtain ⟨hh, hs⟩ := hphase
    refine ⟨hspace, hi.fit, ?_, fun q cs c w hq => ?_⟩
    · dsimp only
      split_ifs with hl
      · rw [hl] at hs
        exact ⟨hh, hs⟩
      · exact ⟨hh, hs, fun i _ hi => absurd hi (Nat.not_lt_zero i)⟩
    · simp only [setOp_op] at hq
      split_ifs at hq
      exact hpend q cs c w hq
  | advance h =>
    obtain ⟨hf, hp⟩ := h.phaseInv hi
    refine ⟨hspace, hf, hp, ?_⟩
    cases h <;> exact hpend
  | crash => exact crashInv_boot m (hi.phase.wellFormed hi.fit)

theorem tx_update {p : Fin nProc} {o : Option Op} (hblocks : s'.blocks = s.blocks)
    (hphase : s'.phase.booting = s.phase.booting) (hop : s'.op = Function.update s.op p o) :
    s'.tx L = { s.tx L with op := Function.update (s.tx L).op p (o.map Op.pending) } := by
  have hcurrent : s'.current L = s.current L := by rw [current, current, hblocks, hphase]
  simp only [LogState.tx, hblocks, hcurrent, hop, Tx.mk.injEq, true_and]
  funext q
  by_cases hq : q = p
  · simp [hq]
  · simp [hq]

/-- Every step of the log is the step of the transactions that its label says. -/
theorem LogTrans.labelled {a : LogStep} (h : LogTrans L s a s') (hi : CrashInv L m s) :
    Labelled TxStep (s.tx L) (s'.tx L) (txCall ⟨s, a, ()⟩) := by
  have hkeep : ∀ p o, s'.blocks = s.blocks → s'.phase.booting = s.phase.booting →
      s'.op = Function.update s.op p o →
      s'.tx L = { s.tx L with op := Function.update (s.tx L).op p (o.map Op.pending) } :=
    fun _ _ => tx_update
  cases h with
  | sleep p hb ho hw =>
    have hlabel : txCall ⟨s, .beginOp p, ()⟩ = none := if_pos hw
    rw [hlabel]
    rfl
  | enter p hb hs ho hc hf =>
    have hlabel : txCall ⟨s, .beginOp p, ()⟩ = some (.begin p, ()) := if_neg (by simp [hc, hf])
    rw [hlabel, hkeep p (some ⟨[], none⟩) rfl rfl rfl]
    exact TxStep.begin p (by simp [LogState.tx, ho])
  | check p bs b v ho =>
    rw [hkeep p (some ⟨bs, some (b, v)⟩) rfl rfl rfl]
    exact TxStep.prepare p b v (by simp [LogState.tx, ho])
  | write p bs b v ho =>
    obtain ⟨-, -, hidle⟩ := hi.space.in_op ho
    have hb := (hi.pending p bs b v ho).1
    have hcurrent : L.home ((s.logWrite p ⟨bs, some (b, v)⟩ b v).current L) =
        Function.update (L.home (s.current L)) b v := by
      rw [current_of_not_boot (by simp [LogState.logWrite, hidle, Phase.booting]),
        current_of_not_boot (by rw [hidle]; rfl)]
      exact LogLayout.home_update hb
    have htx : (s.logWrite p ⟨bs, some (b, v)⟩ b v).tx L = { s.tx L with
        current := Function.update (s.tx L).current b v
        op := Function.update (s.tx L).op p (some none) } := by
      simp only [LogState.tx, hcurrent, Tx.mk.injEq, true_and]
      refine ⟨rfl, ?_⟩
      funext q
      by_cases hq : q = p <;> simp [LogState.logWrite, hq]
    rw [htx]
    exact TxStep.write p b v (by simp [LogState.tx, ho])
  | leave p bs ho hc hn =>
    rw [hkeep p none rfl rfl rfl]
    exact TxStep.finish p (by simp [LogState.tx, ho])
  | last p bs ho hc hn =>
    obtain ⟨-, -, hidle⟩ := hi.space.in_op ho
    have hboot : (if s.lh = [] then Phase.finish else .writeLog 0).booting =
        s.phase.booting := by
      rw [hidle]
      split_ifs <;> rfl
    rw [hkeep p none rfl hboot rfl]
    exact TxStep.finish p (by simp [LogState.tx, ho])
  | advance h =>
    obtain ⟨hcurrent, hdurable⟩ := h.effect hi
    have hop : s'.op = s.op := by cases h <;> rfl
    rcases hdurable with ⟨hp, hdurable⟩ | ⟨hp, hdurable⟩
    · have htx : s'.tx L = s.tx L := by simp only [LogState.tx, hcurrent, hdurable, hop]
      have hlabel : txCall ⟨s, .advance, ()⟩ = none := if_neg hp
      rw [hlabel, htx]
      rfl
    · have htx : s'.tx L = { s.tx L with durable := (s.tx L).current } := by
        simp only [LogState.tx, hcurrent, hdurable, hop]
      have hlabel : txCall ⟨s, .advance, ()⟩ = some (.commit, ()) := if_pos hp
      rw [hlabel, htx]
      refine TxStep.commit fun p => ?_
      cases ho : s.op p with
      | none => simp [LogState.tx, ho]
      | some o =>
        have hidle := (hi.space.in_op ho).2.2
        simp [hp] at hidle
  | crash => exact TxStep.crash

end

section

variable {L : LogLayout} {m : ℕ} {disk : ℕ → Block} {tr : List (Event LogState LogStep Unit)}
  {s : LogState}

theorem crashInv_of_run (hm : m ≤ maxOpBlocks) (hL : maxOpBlocks + 2 * m < L.size)
    (hd : L.WellFormed disk) (h : LogRun L m disk tr s) : CrashInv L m s := by
  apply h.invariant
  · rintro _ rfl
    exact crashInv_boot m hd
  · intro s a r s' hi ha he
    exact (execLog_trans he).crashInv hm hL ha hi

theorem Store.bwrite_of_ne {d : Store} {b c : ℕ} {v : Block} (h : c ≠ b) :
    (d.bwrite b v).content c = d.content c ∧ (d.bwrite b v).disk c = d.disk c := by
  rw [Store.bwrite_content, Store.bwrite_disk, Function.update_of_ne h, Function.update_of_ne h]
  exact ⟨rfl, rfl⟩

theorem LogTrans.superBlock_eq {s' : LogState} {a : LogStep} (h : LogTrans L s a s')
    (hi : CrashInv L m s) {v : Block}
    (hsuper : s.blocks.content superBlock = v ∧ s.blocks.disk superBlock = v) :
    s'.blocks.content superBlock = v ∧ s'.blocks.disk superBlock = v := by
  have hlog {b : ℕ} (hb : L.start ≤ b) : superBlock ≠ b := (L.behind.trans_le hb).ne
  have hbwrite {b : ℕ} (w : Block) (hb : superBlock ≠ b) :
      (s.blocks.bwrite b w).content superBlock = v ∧ (s.blocks.bwrite b w).disk superBlock = v := by
    rw [(Store.bwrite_of_ne hb).1, (Store.bwrite_of_ne hb).2]
    exact hsuper
  cases h with
  | sleep p hb ho hw | enter p hb hs ho hc hf | check p bs b w ho | leave p bs ho hc hn
  | last p bs ho hc hn => exact hsuper
  | write p bs b w ho =>
    refine ⟨?_, hsuper.2⟩
    have hb := (hi.pending p bs b w ho).2.2
    simp only [LogState.logWrite, setOp_blocks, Store.store]
    rw [Function.update_of_ne hb.symm]
    exact hsuper.1
  | advance h =>
    cases h with
    | copy tail b hp hb => exact hbwrite _ (hlog (by unfold LogLayout.slot; omega))
    | commit hp | clear boot hp => exact hbwrite _ (hlog le_rfl)
    | install boot tail b hp hb => exact hbwrite _ (hi.fit.home_of hb).2.2.symm
    | copied tail hp hb | installed boot tail hp hb | finish hp | readHead es hp hd => exact hsuper
  | crash => exact ⟨hsuper.2, hsuper.2⟩

/-- Every boot finds the log at the same place. -/
theorem superBlock_kept (hm : m ≤ maxOpBlocks) (hL : maxOpBlocks + 2 * m < L.size)
    (hd : L.WellFormed disk) (h : LogRun L m disk tr s) :
    s.blocks.disk superBlock = disk superBlock := by
  have hinv : CrashInv L m s ∧ s.blocks.content superBlock = disk superBlock ∧
      s.blocks.disk superBlock = disk superBlock := by
    apply h.invariant
    · rintro _ rfl
      exact ⟨crashInv_boot m hd, rfl, rfl⟩
    · rintro s a r s' ⟨hi, hs⟩ ha he
      have ht := execLog_trans he
      exact ⟨ht.crashInv hm hL ha hi, ht.superBlock_eq hi hs⟩
  exact hinv.2.2

/-- Between the groups of operations nothing is left to commit. -/
theorem CrashInv.durable_eq_current (hi : CrashInv L m s) (hp : s.phase = .idle)
    (ho : ∀ p, s.op p = none) : (s.tx L).durable = (s.tx L).current := by
  have hout : s.outstanding = 0 := by
    rw [hi.space.outstanding]
    simp [ho]
  have hphase := hi.phase
  rw [hp, hi.space.empty (.inl ⟨hp, hout⟩)] at hphase
  obtain ⟨hh, hs⟩ := hphase
  simp only [LogState.tx]
  rw [current_of_not_boot (by rw [hp]; rfl), LogLayout.durable_nil hh.head]
  exact LogLayout.home_congr fun b hb => (hs b hb (by simp)).symm

/-- Whatever operations run side by side and wherever crashes come, in a commit or in the recovery
from an earlier crash: the log is a store whose blocks change at once for the operations, and
become durable all together at the commit, when no operation is under way. When the log is idle
and no operation is under way, all is durable. -/
theorem log_refines_transactions (hm : m ≤ maxOpBlocks) (hL : maxOpBlocks + 2 * m < L.size)
    (hd : L.WellFormed disk) (h : LogRun L m disk tr s) :
    Trace TxStep ⟨L.home (L.durable disk), L.home (L.durable disk), fun _ => none⟩
        (tr.filterMap txCall) (s.tx L) ∧
      (s.phase = .idle → (∀ p, s.op p = none) → (s.tx L).durable = (s.tx L).current) := by
  refine ⟨?_, (crashInv_of_run hm hL hd h).durable_eq_current⟩
  apply h.trace_filterMap txCall (CrashInv L m)
  · rintro _ rfl
    exact ⟨crashInv_boot m hd, rfl⟩
  · intro s a r s' hi ha he
    exact (execLog_trans he).crashInv hm hL ha hi
  · intro s a r s' hi ha he
    exact (execLog_trans he).labelled hi

end

section

variable {L : LogLayout} {m : ℕ} {s s' : LogState}

theorem bread_eq {d : Store} {b : ℕ} (h : b < fsSize) : d.bread b = .ok (d.content b) :=
  if_neg (not_le.mpr h)

theorem LogLayout.InLog.lt {b : ℕ} (h : L.InLog b) : b < fsSize :=
  h.2.trans_le L.fits

theorem CrashInv.advance_ok (hi : CrashInv L m s) (hp : s.phase ≠ .idle) :
    ∃ s', s.advance L = .ok s' := by
  have hf := hi.fit
  have hstart := bread_eq (d := s.blocks) (LogLayout.inLog_start (L := L)).lt
  unfold LogState.advance
  cases hphase : s.phase with
  | idle => exact absurd hphase hp
  | writeLog tail =>
    dsimp only
    cases hb : s.lh[tail]? with
    | none => exact ⟨_, rfl⟩
    | some b =>
      simp only [bread_eq (hf.inLog_slot hb).lt, bread_eq (hf.home_of hb).2.1]
      exact ⟨_, rfl⟩
  | writeHead =>
    simp only [hstart]
    exact ⟨_, rfl⟩
  | install boot tail =>
    dsimp only
    cases hb : s.lh[tail]? with
    | none => exact ⟨_, rfl⟩
    | some b =>
      simp only [bread_eq (hf.inLog_slot hb).lt, bread_eq (hf.home_of hb).2.1]
      exact ⟨_, rfl⟩
  | clearHead boot =>
    simp only [hstart]
    exact ⟨_, rfl⟩
  | finish => exact ⟨_, rfl⟩
  | readHead =>
    have hinv := hi.phase
    rw [hphase] at hinv
    obtain ⟨heq, es, -, hh⟩ := hinv
    have hd : decodeHead (s.blocks.content L.start) = .ok es := heq ▸ hh.head
    simp only [hstart, ok_bind, hd]
    exact ⟨_, rfl⟩

/-- How many steps `commit` or the recovery has left at most. -/
def LogState.work (s : LogState) : ℕ :=
  match s.phase with
  | .idle => 0
  | .finish => 1
  | .clearHead _ => 2
  | .install _ tail => s.lh.length - tail + 3
  | .writeHead => s.lh.length + 4
  | .writeLog tail => s.lh.length - tail + (s.lh.length + 5)
  | .readHead => logSize + 4

theorem Advance.work_lt (h : Advance L s s') (hi : CrashInv L m s) : s'.work < s.work := by
  cases h with
  | copy tail b hp hb =>
    have hlt := (List.getElem?_eq_some_iff.mp hb).1
    simp only [work, hp]
    omega
  | copied tail hp hb =>
    simp only [work, hp]
    omega
  | commit hp => simp [work, hp]
  | install boot tail b hp hb =>
    have hlt := (List.getElem?_eq_some_iff.mp hb).1
    simp only [work, hp]
    omega
  | installed boot tail hp hb =>
    simp only [work, hp]
    omega
  | clear boot hp =>
    simp only [work, hp]
    cases boot <;> simp
  | finish hp => simp [work, hp, LogState.wakeup]
  | readHead es hp hd =>
    have hinv := hi.phase
    rw [hp] at hinv
    obtain ⟨heq, es', hes, hh⟩ := hinv
    obtain rfl : es' = es := by
      rw [heq, hh.head] at hd
      exact Except.ok.inj hd
    have hroom := hes.room
    simp only [work, hp]
    omega

theorem Advance.crashInv (h : Advance L s s') (hi : CrashInv L m s) : CrashInv L m s' := by
  obtain ⟨hf, hp⟩ := h.phaseInv hi
  refine ⟨hi.space.advance h, hf, hp, ?_⟩
  cases h <;> exact hi.pending

/-- `commit` and the recovery come to their end, and the operations see the same blocks after
it. -/
theorem CrashInv.reaches_idle (hi : CrashInv L m s) : ∃ k s', k ≤ s.work ∧
    execAll (execLog L) (List.replicate k .advance) s = .ok (List.replicate k (), s') ∧
    s'.phase = .idle ∧ CrashInv L m s' ∧ s'.outstanding = s.outstanding ∧
    L.home (s'.current L) = L.home (s.current L) := by
  induction hw : s.work using Nat.strong_induction_on generalizing s with
  | _ n ih =>
    by_cases hp : s.phase = .idle
    · exact ⟨0, s, Nat.zero_le _, rfl, hp, hi, rfl, rfl⟩
    · obtain ⟨s₁, h₁⟩ := hi.advance_ok hp
      have hadv := advance_cases h₁
      have hlt := hadv.work_lt hi
      have hout₁ : s₁.outstanding = s.outstanding := by cases hadv <;> rfl
      obtain ⟨k, s', hk, hexec, hidle, hi', hout, hcurrent⟩ :=
        ih s₁.work (hw ▸ hlt) (hadv.crashInv hi) rfl
      have hstep : execLog L .advance s = .ok ((), s₁) := by
        simp only [execLog, h₁]
        rfl
      refine ⟨k + 1, s', by omega, ?_, hidle, hi', hout.trans hout₁,
        hcurrent.trans (hadv.effect hi).1⟩
      rw [List.replicate_succ, List.replicate_succ]
      exact execAll_cons hstep hexec

end

section

variable {L : LogLayout} {m : ℕ} {disk : ℕ → Block} {tr : List (Event LogState LogStep Unit)}
  {s : LogState}

/-- From every state of every run, a crash is followed by a recovery that comes to its end and
leaves, on the disk and for the operations to come, exactly the durable blocks. -/
theorem recovery_restores_durable (hm : m ≤ maxOpBlocks) (hL : maxOpBlocks + 2 * m < L.size)
    (hd : L.WellFormed disk) (h : LogRun L m disk tr s) : ∃ k s', k ≤ logSize + 4 ∧
      execAll (execLog L) (.crash :: List.replicate k .advance) s =
        .ok (List.replicate (k + 1) (), s') ∧ s'.phase = .idle ∧
      ∀ b, ¬L.InLog b → s'.blocks.content b = (s.tx L).durable b ∧
        s'.blocks.disk b = (s.tx L).durable b := by
  have hi := crashInv_of_run hm hL hd h
  have hboot := crashInv_boot m (hi.phase.wellFormed hi.fit)
  obtain ⟨k, s', hk, hexec, hidle, hi', hout, hcurrent⟩ := hboot.reaches_idle
  refine ⟨k, s', hk, ?_, hidle, fun b hb => ?_⟩
  · rw [List.replicate_succ]
    exact execAll_cons rfl hexec
  · have hphase := hi'.phase
    rw [hidle] at hphase
    rw [hi'.space.empty (.inl ⟨hidle, hout⟩)] at hphase
    have hc : s'.blocks.content b = (s.tx L).durable b := by
      have hb' := congrFun hcurrent b
      rw [current_of_not_boot (by rw [hidle]; rfl), current_of_boot rfl] at hb'
      simpa [LogLayout.home, hb, LogState.tx, LogState.boot] using hb'
    exact ⟨hc, (hphase.2 b hb (by simp)).symm.trans hc⟩

end

/-- The log where `mkfs` puts it. -/
def mkfsLog : LogLayout := ⟨2, logSize, Nat.succ_pos _, Nat.le_of_ble_eq_true rfl, Nat.one_lt_two⟩

theorem wellFormed_zero : mkfsLog.WellFormed fun _ _ => 0 := ⟨[], rfl, mkfsLog.fit_nil⟩

/-- After the boot, an operation writes a block and is committed, but the block is not in its
place yet. -/
def committed (p : Fin nProc) : List LogStep :=
  [.advance, .advance, .advance, .beginOp p, .checkWrite p 50 (fun _ => 7), .logWrite p, .endOp p,
    .advance, .advance, .advance]

theorem log_refines_transactions_committed : ∃ s : LogState,
    (s.blocks.disk 50 0 = 0 ∧ (s.tx mkfsLog).durable 50 0 = 7) ∧
    Trace TxStep ⟨mkfsLog.home (mkfsLog.durable fun _ _ => 0),
      mkfsLog.home (mkfsLog.durable fun _ _ => 0), fun _ => none⟩
      [(.commit, ()), (.finish 0, ()), (.write 0, ()), (.prepare 0 50 fun _ => 7, ()),
        (.begin 0, ())] (s.tx mkfsLog) := by
  have h : ∃ tr s, LogRun mkfsLog 9 (fun _ _ => 0) tr s ∧
      decide ((s.blocks.disk 50 0 = 0 ∧ (s.tx mkfsLog).durable 50 0 = 7) ∧
        tr.filterMap txCall = [(.commit, ()), (.finish 0, ()), (.write 0, ()),
          (.prepare 0 50 fun _ => 7, ()), (.begin 0, ())]) = true :=
    Run.exists_of_replayCheck (committed 0) rfl (by decide +kernel)
  obtain ⟨tr, s, hrun, hp⟩ := h
  obtain ⟨hblocks, hcalls⟩ := of_decide_eq_true hp
  exact ⟨s, hblocks, hcalls ▸
    (log_refines_transactions (by decide) (by decide) wellFormed_zero hrun).1⟩

theorem recovery_restores_durable_committed : ∃ tr s, LogRun mkfsLog 9 (fun _ _ => 0) tr s ∧
    s.blocks.disk 50 0 = 0 ∧ ∃ k s', execAll (execLog mkfsLog)
      (.crash :: List.replicate k .advance) s = .ok (List.replicate (k + 1) (), s') ∧
      s'.phase = .idle ∧ s'.blocks.disk 50 0 = 7 := by
  have h : ∃ tr s, LogRun mkfsLog 9 (fun _ _ => 0) tr s ∧
      decide (s.blocks.disk 50 0 = 0 ∧ (s.tx mkfsLog).durable 50 0 = 7) = true :=
    Run.exists_of_replayCheck (committed 0) rfl (by decide +kernel)
  obtain ⟨tr, s, hrun, hp⟩ := h
  obtain ⟨hdisk, hdur⟩ := of_decide_eq_true hp
  obtain ⟨k, s', -, hexec, hidle, hblocks⟩ :=
    recovery_restores_durable (by decide) (by decide) wellFormed_zero hrun
  refine ⟨tr, s, hrun, hdisk, k, s', hexec, hidle, ?_⟩
  rw [(hblocks 50 (by decide)).2, hdur]

end SsuOs.Xv6
