import SsuOs.Lib.Places
import SsuOs.Xv6.Bcache

/-! What holds of the buffer cache in every run: a block has one buffer, its reference count is
the number of its users, and whoever holds a buffer sees what was last stored in the block. -/
namespace SsuOs.Xv6
open SsuOs.Lib Bcache

section Fields

variable (s : Bcache) (i j : Fin nBuf) (p q : Fin nProc) (f : Buf → Buf) (c : BufCall)

@[simp] theorem Bcache.modify_buf :
    (s.modify i f).buf j = if j = i then f (s.buf i) else s.buf j := by
  simp [Bcache.modify, Function.update_apply]

@[simp] theorem Bcache.setCall_buf : (s.setCall p c).buf = s.buf := rfl

@[simp] theorem Bcache.setCall_disk : (s.setCall p c).disk = s.disk := rfl

@[simp] theorem Bcache.unref_buf : (s.unref i).buf =
    (s.modify i fun b => { b with refcnt := b.refcnt - 1 }).buf := by
  unfold Bcache.unref
  dsimp only
  split_ifs <;> rfl

@[simp] theorem Bcache.unref_disk : (s.unref i).disk = s.disk := by
  unfold Bcache.unref
  dsimp only
  split_ifs <;> rfl

@[simp] theorem Bcache.unref_call : (s.unref i).call = s.call := by
  unfold Bcache.unref
  dsimp only
  split_ifs <;> rfl

end Fields

/-- The buffer that a call refers to without holding it. -/
def BufCall.target : BufCall → Option (Fin nBuf)
  | .acquiring i => some i
  | .releasing i => some i
  | _ => none

@[simp] theorem BufCall.target_idle : BufCall.idle.target = none := rfl

@[simp] theorem BufCall.target_acquiring (i : Fin nBuf) :
    (BufCall.acquiring i).target = some i := rfl

@[simp] theorem BufCall.target_reading (i : Fin nBuf) : (BufCall.reading i).target = none := rfl

@[simp] theorem BufCall.target_writing (i : Fin nBuf) : (BufCall.writing i).target = none := rfl

@[simp] theorem BufCall.target_releasing (i : Fin nBuf) :
    (BufCall.releasing i).target = some i := rfl

/-- The processes inside `bget` or `brelse` of the buffer. -/
noncomputable def Bcache.users (s : Bcache) (i : Fin nBuf) : ℕ :=
  (threadsAt (fun c : BufCall => c.target = some i) s.call).ncard

inductive BufTrans (s : Bcache) : BufStep → BufRet → Bcache → Prop
  | hit (p : Fin nProc) (dev blockno : ℕ) (i : Fin nBuf) (hp : s.call p = .idle)
      (hc : s.cached dev blockno = some i) :
      BufTrans s (.bget p dev blockno) .none
        ((s.modify i fun b => { b with refcnt := b.refcnt + 1 }).setCall p (.acquiring i))
  | miss (p : Fin nProc) (dev blockno : ℕ) (i : Fin nBuf) (hp : s.call p = .idle)
      (hc : s.cached dev blockno = none) (hv : s.victim = some i) :
      BufTrans s (.bget p dev blockno) .none
        ((s.modify i fun b => { b with
          dev := dev, blockno := blockno, valid := false, dirty := false, refcnt := 1 }).setCall p
            (.acquiring i))
  | acquire (p : Fin nProc) (i : Fin nBuf) (hp : s.call p = .acquiring i)
      (hh : (s.buf i).holder = none) (hv : (s.buf i).valid = true) :
      BufTrans s (.acquire p) (.bread i (s.buf i).data)
        ((s.modify i fun b => { b with holder := some p }).setCall p .idle)
  | request (p : Fin nProc) (i : Fin nBuf) (hp : s.call p = .acquiring i)
      (hh : (s.buf i).holder = none) (hv : (s.buf i).valid = false) :
      BufTrans s (.acquire p) .none
        ((s.modify i fun b => { b with holder := some p }).setCall p (.reading i))
  | read (p : Fin nProc) (ready : Bool) (i : Fin nBuf) (hp : s.call p = .reading i) :
      BufTrans s (.ideintr p ready) (.bread i ((s.ideintr i ready).buf i).data)
        ((s.ideintr i ready).setCall p .idle)
  | written (p : Fin nProc) (ready : Bool) (i : Fin nBuf) (hp : s.call p = .writing i) :
      BufTrans s (.ideintr p ready) (.bwrite i) ((s.ideintr i ready).setCall p .idle)
  | store (p : Fin nProc) (i : Fin nBuf) (data : Block) (hp : s.call p = .idle)
      (hh : (s.buf i).holder = some p) :
      BufTrans s (.store p i data) .none (s.modify i fun b => { b with data := data })
  | pin (p : Fin nProc) (i : Fin nBuf) (hp : s.call p = .idle)
      (hh : (s.buf i).holder = some p) :
      BufTrans s (.pin p i) .none (s.modify i fun b => { b with dirty := true })
  | bwrite (p : Fin nProc) (i : Fin nBuf) (hp : s.call p = .idle)
      (hh : (s.buf i).holder = some p) :
      BufTrans s (.bwrite p i) .none
        ((s.modify i fun b => { b with dirty := true }).setCall p (.writing i))
  | brelse (p : Fin nProc) (i : Fin nBuf) (hp : s.call p = .idle)
      (hh : (s.buf i).holder = some p) :
      BufTrans s (.brelse p i) .none
        ((s.modify i fun b => { b with holder := none }).setCall p (.releasing i))
  | unref (p : Fin nProc) (i : Fin nBuf) (hp : s.call p = .releasing i) :
      BufTrans s (.unref p) .none ((s.unref i).setCall p .idle)

theorem iderw_eq {s t : Bcache} {p : Fin nProc} {i : Fin nBuf} {c : BufCall}
    (h : s.iderw p i c = .ok t) : t = s.setCall p c := by
  unfold Bcache.iderw at h
  split_ifs at h
  exact (Except.ok.inj h).symm

theorem bget_trans {s t : Bcache} {p : Fin nProc} {dev blockno : ℕ} (hp : s.call p = .idle)
    (h : s.bget p dev blockno = .ok t) : BufTrans s (.bget p dev blockno) .none t := by
  unfold Bcache.bget at h
  split at h
  · rename_i i hc
    obtain rfl := Except.ok.inj h
    exact .hit p dev blockno i hp hc
  · rename_i hc
    split at h
    · rename_i i hv
      obtain rfl := Except.ok.inj h
      exact .miss p dev blockno i hp hc hv
    · simp at h

theorem acquire_trans {s t : Bcache} {p : Fin nProc} {i : Fin nBuf} {r : BufRet}
    (hp : s.call p = .acquiring i) (hh : (s.buf i).holder = none)
    (h : s.acquire p i = .ok (r, t)) : BufTrans s (.acquire p) r t := by
  unfold Bcache.acquire at h
  simp only [Bcache.modify_buf, ↓reduceIte] at h
  split_ifs at h with hv
  · obtain ⟨rfl, rfl⟩ := ok_pair_inj h
    exact .acquire p i hp hh hv
  · obtain ⟨t', ht, hs⟩ := map_eq_ok.mp h
    obtain ⟨rfl, rfl⟩ := Prod.mk.inj hs
    rw [iderw_eq ht]
    exact .request p i hp hh (by simpa using hv)

theorem execBuf_trans {s s' : Bcache} {a : BufStep} {r : BufRet}
    (h : execBuf a s = .ok (r, s')) : BufTrans s a r s' := by
  cases a with
  | bget p dev blockno =>
    simp only [execBuf] at h
    split_ifs at h with hp
    obtain ⟨t, ht, hs⟩ := map_eq_ok.mp h
    obtain ⟨rfl, rfl⟩ := Prod.mk.inj hs
    exact bget_trans (not_not.mp hp) ht
  | acquire p =>
    simp only [execBuf] at h
    split at h
    · rename_i i hp
      split_ifs at h with hh
      exact acquire_trans hp (not_not.mp hh) h
    · simp at h
  | ideintr p ready =>
    simp only [execBuf] at h
    split at h
    · rename_i i hp
      obtain ⟨rfl, rfl⟩ := ok_pair_inj h
      exact .read p ready i hp
    · rename_i i hp
      obtain ⟨rfl, rfl⟩ := ok_pair_inj h
      exact .written p ready i hp
    · simp at h
  | store p i data =>
    simp only [execBuf] at h
    split_ifs at h with hg
    simp only [not_or, not_not] at hg
    obtain ⟨rfl, rfl⟩ := ok_pair_inj h
    exact .store p i data hg.1 hg.2
  | pin p i =>
    simp only [execBuf] at h
    split_ifs at h with hg
    simp only [not_or, not_not] at hg
    obtain ⟨rfl, rfl⟩ := ok_pair_inj h
    exact .pin p i hg.1 hg.2
  | bwrite p i =>
    simp only [execBuf] at h
    split_ifs at h with hp
    obtain ⟨t, ht, hs⟩ := map_eq_ok.mp h
    obtain ⟨rfl, rfl⟩ := Prod.mk.inj hs
    unfold Bcache.bwrite at ht
    split_ifs at ht with hh
    rw [iderw_eq ht]
    exact .bwrite p i (not_not.mp hp) (not_not.mp hh)
  | brelse p i =>
    simp only [execBuf] at h
    split_ifs at h with hp hg
    simp only [not_not] at hp hg
    obtain ⟨rfl, rfl⟩ := ok_pair_inj h
    exact .brelse p i hp hg
  | unref p =>
    simp only [execBuf] at h
    split at h
    · rename_i i hp
      obtain ⟨rfl, rfl⟩ := ok_pair_inj h
      exact .unref p i hp
    · simp at h

section Ideintr

variable {s : Bcache} {i : Fin nBuf}

theorem ideintr_of_dirty (ready : Bool) (h : (s.buf i).dirty = true) :
    s.ideintr i ready = { s.modify i (fun b => { b with valid := true, dirty := false }) with
      disk := fun drive blockno =>
        if (s.buf i).dev % 2 = drive ∧ (s.buf i).blockno = blockno then (s.buf i).data
        else s.disk drive blockno } := if_pos h

theorem ideintr_of_clean (h : (s.buf i).dirty = false) :
    s.ideintr i true =
      s.modify i fun b => { b with valid := true, data := s.disk (b.dev % 2) b.blockno } := by
  rw [Bcache.ideintr, if_neg (by simp [h]), if_pos rfl]

end Ideintr

/-- Every buffer is in the list once, and no block other than that of the zeroed buffers has two
of them. -/
structure KeyInv (s : Bcache) : Prop where
  lru_nodup : s.lru.Nodup
  lru_mem : ∀ i, i ∈ s.lru
  dev_lt : ∀ i, (s.buf i).dev < 2
  keyed : ∀ i, (s.buf i).refcnt ≠ 0 ∨ (s.buf i).valid = true → ¬(s.buf i).Is 0 0
  unique : ∀ i j, ¬(s.buf i).Is 0 0 → (s.buf j).Is (s.buf i).dev (s.buf i).blockno → j = i

/-- The holder of the lock is one reference. -/
def Buf.held (b : Buf) : ℕ := if b.holder = none then 0 else 1

/-- What a call that waits for the disk knows of its buffer. -/
def BufCall.Knows (buf : Fin nBuf → Buf) (p : Fin nProc) : BufCall → Prop
  | .reading i => (buf i).holder = some p ∧ (buf i).valid = false
  | .writing i => (buf i).holder = some p ∧ (buf i).dirty = true
  | _ => True

/-- The references are the holder and the users, and a call in progress knows its buffer. -/
structure UseInv (s : Bcache) : Prop where
  refs : ∀ i, (s.buf i).refcnt = s.users i + (s.buf i).held
  knows : ∀ p, (s.call p).Knows s.buf p
  valid : ∀ i p, (s.buf i).holder = some p → s.call p ≠ .reading i → (s.buf i).valid = true

/-- A buffer that nobody holds and that is not pinned has the data of the disk. -/
structure Buf.Sound (disk : ℕ → ℕ → Block) (b : Buf) : Prop where
  dirty : b.dirty = true → b.valid = true
  clean : b.holder = none → b.valid = true → b.dirty = false → b.data = disk b.dev b.blockno

def DataInv (s : Bcache) : Prop := ∀ i, (s.buf i).Sound s.disk

structure BufInv (s : Bcache) : Prop where
  key : KeyInv s
  use : UseInv s
  data : DataInv s

section Keys

variable {s s' : Bcache} {i : Fin nBuf} {p : Fin nProc} {dev blockno : ℕ} {b : Buf}

theorem cached_is (h : s.cached dev blockno = some i) : (s.buf i).Is dev blockno := by
  have hs := List.find?_some h
  exact of_decide_eq_true hs

theorem KeyInv.cached_none (hi : KeyInv s) (h : s.cached dev blockno = none) (j : Fin nBuf) :
    ¬(s.buf j).Is dev blockno := by
  have hn := List.find?_eq_none.mp h j (hi.lru_mem j)
  exact of_decide_eq_false (by simpa using hn)

theorem victim_free (h : s.victim = some i) :
    (s.buf i).refcnt = 0 ∧ (s.buf i).dirty = false := by
  have hs := List.find?_some h
  exact of_decide_eq_true hs

theorem KeyInv.drive (hi : KeyInv s) (i : Fin nBuf) : (s.buf i).dev % 2 = (s.buf i).dev :=
  Nat.mod_eq_of_lt (hi.dev_lt i)

theorem KeyInv.update (hi : KeyInv s) (hbuf : s'.buf = Function.update s.buf i b)
    (hlru : s'.lru = s.lru) (hkey : b.dev = (s.buf i).dev ∧ b.blockno = (s.buf i).blockno)
    (hused : b.refcnt ≠ 0 ∨ b.valid = true → ¬(s.buf i).Is 0 0) : KeyInv s' := by
  have hdev : ∀ j, (s'.buf j).dev = (s.buf j).dev ∧ (s'.buf j).blockno = (s.buf j).blockno := by
    intro j
    rw [hbuf, Function.update_apply]
    split_ifs with hj
    · rw [hj]
      exact hkey
    · exact ⟨rfl, rfl⟩
  have his : ∀ j dev blockno, (s'.buf j).Is dev blockno ↔ (s.buf j).Is dev blockno := by
    intro j dev blockno
    rw [Buf.Is, (hdev j).1, (hdev j).2, ← Buf.Is]
  refine ⟨hlru ▸ hi.lru_nodup, hlru ▸ hi.lru_mem, fun j => ?_, fun j hj => ?_, fun j l hj hl => ?_⟩
  · rw [(hdev j).1]
    exact hi.dev_lt j
  · rw [his]
    rw [hbuf, Function.update_apply] at hj
    split_ifs at hj with hji
    · rw [hji]
      exact hused hj
    · exact hi.keyed j hj
  · rw [his] at hj hl
    rw [(hdev j).1, (hdev j).2] at hl
    exact hi.unique j l hj hl

/-- The recycled buffer takes the place of one for the block that is not cached. -/
theorem KeyInv.miss (hi : KeyInv s) (hbuf : s'.buf = Function.update s.buf i b)
    (hlru : s'.lru = s.lru) (hdev : dev < 2) (hk : ¬(dev = 0 ∧ blockno = 0))
    (hc : s.cached dev blockno = none) (hb : b.Is dev blockno) : KeyInv s' := by
  have hnone := hi.cached_none hc
  refine ⟨hlru ▸ hi.lru_nodup, hlru ▸ hi.lru_mem, fun j => ?_, fun j hj => ?_, fun j l hj hl => ?_⟩
  · rw [hbuf, Function.update_apply]
    split_ifs
    · rw [hb.1]
      exact hdev
    · exact hi.dev_lt j
  · rw [hbuf, Function.update_apply] at hj ⊢
    split_ifs at hj ⊢
    · rw [Buf.Is, hb.1, hb.2]
      exact hk
    · exact hi.keyed j hj
  · rw [hbuf] at hj hl
    simp only [Function.update_apply] at hj hl
    split_ifs at hj hl with hji hli hli
    · rw [hji, hli]
    · rw [hb.1, hb.2] at hl
      exact absurd hl (hnone l)
    · exact absurd ⟨hl.1.symm.trans hb.1, hl.2.symm.trans hb.2⟩ (hnone j)
    · exact hi.unique j l hj hl

theorem KeyInv.unref (hi : KeyInv s) : KeyInv (s.unref i) := by
  have hm : KeyInv (s.modify i fun b => { b with refcnt := b.refcnt - 1 }) := by
    refine hi.update rfl rfl ⟨rfl, rfl⟩ fun h => hi.keyed i (h.imp (fun hr h0 => hr ?_) id)
    dsimp only
    rw [h0]
  unfold Bcache.unref
  dsimp only
  split_ifs
  · refine ⟨?_, fun j => ?_, hm.dev_lt, hm.keyed, hm.unique⟩
    · exact List.nodup_cons.mpr ⟨hi.lru_nodup.not_mem_erase, hi.lru_nodup.erase i⟩
    · by_cases hj : j = i
      · rw [hj]
        exact List.mem_cons_self
      · exact List.mem_cons_of_mem _ ((List.mem_erase_of_ne hj).mpr (hi.lru_mem j))
  · exact hm

theorem KeyInv.setCall (hi : KeyInv s) (p : Fin nProc) (c : BufCall) : KeyInv (s.setCall p c) :=
  ⟨hi.lru_nodup, hi.lru_mem, hi.dev_lt, hi.keyed, hi.unique⟩

end Keys

section Uses

variable {s s' : Bcache} {i : Fin nBuf} {p : Fin nProc} {b : Buf} {c : BufCall}

theorem users_ne_zero (h : (s.call p).target = some i) : s.users i ≠ 0 := by
  have hne : (threadsAt (fun c : BufCall => c.target = some i) s.call).Nonempty := ⟨p, h⟩
  exact ((Set.ncard_pos (Set.toFinite _)).mpr hne).ne'

theorem UseInv.reading (hu : UseInv s) (hp : s.call p = .reading i) :
    (s.buf i).holder = some p ∧ (s.buf i).valid = false := by
  have hknows := hu.knows p
  rwa [hp] at hknows

theorem UseInv.writing (hu : UseInv s) (hp : s.call p = .writing i) :
    (s.buf i).holder = some p ∧ (s.buf i).dirty = true := by
  have hknows := hu.knows p
  rwa [hp] at hknows

theorem UseInv.free (hu : UseInv s) (h : (s.buf i).refcnt = 0) :
    (s.buf i).holder = none ∧ s.users i = 0 := by
  have hr := hu.refs i
  unfold Buf.held at hr
  split_ifs at hr with hh
  · exact ⟨hh, by omega⟩
  · omega

/-- The call of `p` goes to the place `c` of the same buffer, which counts it. -/
structure Moves (s : Bcache) (p : Fin nProc) (c : BufCall) (i : Fin nBuf) (b : Buf) : Prop where
  balance : b.refcnt + (if (s.call p).target = some i then 1 else 0) + (s.buf i).held =
    (s.buf i).refcnt + (if c.target = some i then 1 else 0) + b.held
  other : ∀ j, j ≠ i → (s.call p).target ≠ some j ∧ c.target ≠ some j

theorem UseInv.refs_update (hu : UseInv s) (hbuf : s'.buf = Function.update s.buf i b)
    (hcall : s'.call = Function.update s.call p c) (hmove : Moves s p c i b) (j : Fin nBuf) :
    (s'.buf j).refcnt = s'.users j + (s'.buf j).held := by
  have hbal := hmove.balance
  have husers : s'.users j + (if (s.call p).target = some j then 1 else 0) =
      s.users j + (if c.target = some j then 1 else 0) := by
    unfold users
    rw [hcall]
    exact ncard_threadsAt_update (Set.toFinite _)
  have hj := hu.refs j
  rw [hbuf, Function.update_apply]
  split_ifs with hji
  · subst hji
    omega
  · obtain ⟨h₁, h₂⟩ := hmove.other j hji
    rw [if_neg h₁, if_neg h₂] at husers
    omega

/-- What a process knows of its buffer stays, if the buffer that changes looks the same to it or
is held by another one. -/
theorem BufCall.Knows.update {q : Fin nProc} (h : c.Knows s.buf q)
    (hsame : (s.buf i).holder = some q →
      b.holder = some q ∧ b.valid = (s.buf i).valid ∧ b.dirty = (s.buf i).dirty) :
    c.Knows (Function.update s.buf i b) q := by
  cases c with
  | reading j =>
    obtain ⟨hh, hv⟩ := h
    rw [Knows, Function.update_apply]
    split_ifs with hj
    · subst hj
      obtain ⟨hh', hv', -⟩ := hsame hh
      exact ⟨hh', hv'.trans hv⟩
    · exact ⟨hh, hv⟩
  | writing j =>
    obtain ⟨hh, hd⟩ := h
    rw [Knows, Function.update_apply]
    split_ifs with hj
    · subst hj
      obtain ⟨hh', -, hd'⟩ := hsame hh
      exact ⟨hh', hd'.trans hd⟩
    · exact ⟨hh, hd⟩
  | _ => trivial

theorem UseInv.update_same (hu : UseInv s) (hbuf : s'.buf = Function.update s.buf i b)
    (hcall : s'.call = Function.update s.call p c) (hmove : Moves s p c i b)
    (hp : ∀ j, s.call p ≠ .reading j) (hc : ∀ buf, c.Knows buf p)
    (hsame : b.holder = (s.buf i).holder ∧ b.valid = (s.buf i).valid ∧
      b.dirty = (s.buf i).dirty) : UseInv s' := by
  obtain ⟨hholder, hvalid, hdirty⟩ := hsame
  refine ⟨hu.refs_update hbuf hcall hmove, fun q => ?_, fun j q hh hq => ?_⟩
  · rw [hcall, hbuf, Function.update_apply]
    split_ifs with hqp
    · rw [hqp]
      exact hc _
    · exact (hu.knows q).update fun hh => ⟨hholder.trans hh, hvalid, hdirty⟩
  · have hq' : s.call q ≠ .reading j := by
      by_cases hqp : q = p
      · rw [hqp]
        exact hp j
      · rwa [hcall, Function.update_of_ne hqp] at hq
    rw [hbuf, Function.update_apply] at hh ⊢
    split_ifs at hh ⊢ with hj
    · subst hj
      exact hvalid.trans (hu.valid j q (hholder.symm.trans hh) hq')
    · exact hu.valid j q hh hq'

/-- A step of a process on a buffer that nobody else holds. -/
theorem UseInv.update_own (hu : UseInv s) (hbuf : s'.buf = Function.update s.buf i b)
    (hcall : s'.call = Function.update s.call p c) (hmove : Moves s p c i b)
    (hp : ∀ j, j ≠ i → s.call p ≠ .reading j) (hc : c.Knows s'.buf p)
    (hown : ∀ q, (s.buf i).holder = some q → q = p) (hnew : ∀ q, b.holder = some q → q = p)
    (hvalid : b.holder = some p → c ≠ .reading i → b.valid = true) : UseInv s' := by
  refine ⟨hu.refs_update hbuf hcall hmove, fun q => ?_, fun j q hh hq => ?_⟩
  · rw [hcall, Function.update_apply]
    split_ifs with hqp
    · rw [hqp]
      exact hc
    · rw [hbuf]
      exact (hu.knows q).update fun hh => absurd (hown q hh) hqp
  · rw [hbuf, Function.update_apply] at hh ⊢
    rw [hcall, Function.update_apply] at hq
    split_ifs at hh ⊢ with hj
    · obtain rfl := hnew q hh
      rw [if_pos rfl, hj] at hq
      exact hvalid hh hq
    · split_ifs at hq with hqp
      · exact hu.valid j q hh (hqp ▸ hp j hj)
      · exact hu.valid j q hh hq

end Uses

section

variable {s s' : Bcache} {a : BufStep} {r : BufRet} {i : Fin nBuf} {p : Fin nProc} {b : Buf}

/-- A buffer somebody holds has the number of a block. -/
theorem KeyInv.of_holder (hi : KeyInv s) (hu : UseInv s) (hh : (s.buf i).holder = some p) :
    ¬(s.buf i).Is 0 0 := by
  refine hi.keyed i (.inl ?_)
  rw [hu.refs, Buf.held, hh]
  simp

/-- A request of `bread` finds a buffer that is not pinned. -/
theorem DataInv.clean_of_reading (hd : DataInv s) (hu : UseInv s) (hp : s.call p = .reading i) :
    (s.buf i).dirty = false := by
  by_contra hdirty
  have hv := (hd i).dirty (by simpa using hdirty)
  simp [(hu.reading hp).2] at hv

theorem BufTrans.keyInv (h : BufTrans s a r s') (ha : Disciplined a s) (hi : KeyInv s)
    (hu : UseInv s) (hd : DataInv s) : KeyInv s' := by
  cases h with
  | hit p dev blockno i hp hc =>
    refine hi.update rfl rfl ⟨rfl, rfl⟩ fun _ h0 => ha.2 ?_
    obtain ⟨hdev, hb⟩ := cached_is hc
    exact ⟨hdev.symm.trans h0.1, hb.symm.trans h0.2⟩
  | miss p dev blockno i hp hc hv => exact hi.miss rfl rfl ha.1 ha.2 hc ⟨rfl, rfl⟩
  | acquire p i hp hh hv | request p i hp hh hv | bwrite p i hp hh | brelse p i hp hh =>
    exact hi.update rfl rfl ⟨rfl, rfl⟩ (hi.keyed i)
  | read p ready i hp =>
    obtain rfl : ready = true := ha
    rw [ideintr_of_clean (hd.clean_of_reading hu hp)]
    exact hi.update rfl rfl ⟨rfl, rfl⟩ fun _ => hi.of_holder hu (hu.reading hp).1
  | written p ready i hp =>
    rw [ideintr_of_dirty ready (hu.writing hp).2]
    exact hi.update rfl rfl ⟨rfl, rfl⟩ fun _ => hi.of_holder hu (hu.writing hp).1
  | store p i data hp hh | pin p i hp hh => exact hi.update rfl rfl ⟨rfl, rfl⟩ (hi.keyed i)
  | unref p i hp => exact hi.unref.setCall _ _

theorem call_eq_update (hp : s.call p = .idle) : s.call = Function.update s.call p .idle := by
  rw [← hp, Function.update_eq_self]

theorem BufTrans.useInv (h : BufTrans s a r s') (ha : Disciplined a s) (hu : UseInv s)
    (hd : DataInv s) : UseInv s' := by
  cases h with
  | hit p dev blockno i hp hc =>
    exact hu.update_same rfl rfl ⟨by simp [hp, Buf.held], fun j hj => by simp [hp, hj.symm]⟩
      (by simp [hp]) (fun _ => trivial) ⟨rfl, rfl, rfl⟩
  | miss p dev blockno i hp hc hv =>
    have hzero := (victim_free hv).1
    have hnone := (hu.free hzero).1
    exact hu.update_own rfl rfl
      ⟨by simp [hp, Buf.held, hzero, hnone], fun j hj => by simp [hp, hj.symm]⟩
      (by simp [hp]) trivial (by simp [hnone]) (by simp [hnone]) (by simp [hnone])
  | acquire p i hp hh hv =>
    exact hu.update_own rfl rfl
      ⟨by simp [hp, Buf.held, hh], fun j hj => by simp [hp, hj.symm]⟩
      (by simp [hp]) trivial (by simp [hh]) (by simp) fun _ _ => hv
  | request p i hp hh hv =>
    exact hu.update_own rfl rfl
      ⟨by simp [hp, Buf.held, hh], fun j hj => by simp [hp, hj.symm]⟩
      (by simp [hp]) (by simp [BufCall.Knows, hv]) (by simp [hh]) (by simp) (by simp)
  | read p ready i hp =>
    obtain rfl : ready = true := ha
    have hh := (hu.reading hp).1
    rw [ideintr_of_clean (hd.clean_of_reading hu hp)]
    exact hu.update_own rfl rfl ⟨by simp [hp, Buf.held], by simp [hp]⟩
      (by simp [hp, eq_comm]) trivial (by simp [hh]) (by simp [hh]) fun _ _ => rfl
  | written p ready i hp =>
    have hh := (hu.writing hp).1
    rw [ideintr_of_dirty ready (hu.writing hp).2]
    exact hu.update_own rfl rfl ⟨by simp [hp, Buf.held], by simp [hp]⟩
      (by simp [hp]) trivial (by simp [hh]) (by simp [hh]) fun _ _ => rfl
  | store p i data hp hh =>
    exact hu.update_same rfl (call_eq_update hp) ⟨by simp [hp, Buf.held], by simp [hp]⟩
      (by simp [hp]) (fun _ => trivial) ⟨rfl, rfl, rfl⟩
  | pin p i hp hh =>
    exact hu.update_own rfl (call_eq_update hp) ⟨by simp [hp, Buf.held], by simp [hp]⟩
      (by simp [hp]) trivial (by simp [hh]) (by simp [hh])
      fun _ _ => hu.valid i p hh (by simp [hp])
  | bwrite p i hp hh =>
    exact hu.update_own rfl rfl ⟨by simp [hp, Buf.held], by simp [hp]⟩
      (by simp [hp]) (by simp [BufCall.Knows, hh]) (by simp [hh]) (by simp [hh])
      fun _ _ => hu.valid i p hh (by simp [hp])
  | brelse p i hp hh =>
    exact hu.update_own rfl rfl
      ⟨by simp [hp, Buf.held, hh], fun j hj => by simp [hp, hj.symm]⟩
      (by simp [hp]) trivial (by simp [hh]) (by simp) (by simp)
  | unref p i hp =>
    have hpos := users_ne_zero (s := s) (p := p) (i := i) (by rw [hp]; rfl)
    have hrefs := hu.refs i
    have hcall : ((s.unref i).setCall p .idle).call = Function.update s.call p .idle := by
      rw [Bcache.setCall, unref_call]
    refine hu.update_same (unref_buf s i) hcall ⟨?_, fun j hj => by simp [hp, hj.symm]⟩
      (by simp [hp]) (fun _ => trivial) ⟨rfl, rfl, rfl⟩
    rw [hp, BufCall.target_releasing, if_pos rfl, BufCall.target_idle, if_neg (by simp)]
    change (s.buf i).refcnt - 1 + 1 + (s.buf i).held = (s.buf i).refcnt + 0 + (s.buf i).held
    omega

theorem DataInv.update (hd : DataInv s) (hbuf : s'.buf = Function.update s.buf i b)
    (hdisk : s'.disk = s.disk) (hb : b.Sound s.disk) : DataInv s' := by
  intro j
  rw [hbuf, hdisk, Function.update_apply]
  split_ifs
  · exact hb
  · exact hd j

/-- No other buffer has the block that is written. -/
theorem DataInv.written (hd : DataInv s) (hk : KeyInv s) (hu : UseInv s)
    (hh : (s.buf i).holder = some p) (hbuf : s'.buf = Function.update s.buf i b)
    (hdisk : s'.disk = fun drive blockno =>
      if (s.buf i).dev % 2 = drive ∧ (s.buf i).blockno = blockno then (s.buf i).data
      else s.disk drive blockno) (hb : b.Sound s'.disk) : DataInv s' := by
  have hkey := hk.of_holder hu hh
  intro j
  rw [hbuf, Function.update_apply]
  split_ifs with hj
  · exact hb
  · refine ⟨(hd j).dirty, fun hh hv hclean => ?_⟩
    have hne : ¬((s.buf i).dev % 2 = (s.buf j).dev ∧ (s.buf i).blockno = (s.buf j).blockno) := by
      rw [hk.drive]
      exact fun his => hj (hk.unique i j hkey ⟨his.1.symm, his.2.symm⟩)
    rw [hdisk]
    dsimp only
    rw [if_neg hne]
    exact (hd j).clean hh hv hclean

theorem BufTrans.dataInv (h : BufTrans s a r s') (ha : Disciplined a s) (hu : UseInv s)
    (hk : KeyInv s) (hd : DataInv s) : DataInv s' := by
  cases h with
  | hit p dev blockno i hp hc => exact hd.update rfl rfl ⟨(hd i).dirty, (hd i).clean⟩
  | miss p dev blockno i hp hc hv => exact hd.update rfl rfl ⟨by simp, by simp⟩
  | acquire p i hp hh hv | request p i hp hh hv =>
    exact hd.update rfl rfl ⟨(hd i).dirty, by simp⟩
  | read p ready i hp =>
    obtain rfl : ready = true := ha
    rw [ideintr_of_clean (hd.clean_of_reading hu hp)]
    exact hd.update rfl rfl ⟨fun _ => rfl, by simp [(hu.reading hp).1]⟩
  | written p ready i hp =>
    obtain ⟨hh, hdirty⟩ := hu.writing hp
    rw [ideintr_of_dirty ready hdirty]
    exact hd.written hk hu hh rfl rfl ⟨by simp, by simp [hh]⟩
  | store p i data hp hh => exact hd.update rfl rfl ⟨(hd i).dirty, by simp [hh]⟩
  | pin p i hp hh | bwrite p i hp hh =>
    have hv := hu.valid i p hh (by simp [hp])
    exact hd.update rfl rfl ⟨fun _ => hv, by simp⟩
  | brelse p i hp hh =>
    refine hd.update rfl rfl ⟨(hd i).dirty, fun _ _ hclean => ?_⟩
    rcases ha with hdirty | hdata
    · rw [hdirty] at hclean
      simp at hclean
    · exact hdata
  | unref p i hp =>
    exact hd.update (unref_buf s i) (unref_disk s i) ⟨(hd i).dirty, (hd i).clean⟩

theorem BufTrans.inv (h : BufTrans s a r s') (ha : Disciplined a s) (hi : BufInv s) :
    BufInv s' := by
  obtain ⟨hk, hu, hd⟩ := hi
  exact ⟨h.keyInv ha hk hu hd, h.useInv ha hu hd, h.dataInv ha hu hk hd⟩

end

namespace Bcache

/-- What a block holds for its readers: the data of its buffer, or those of the disk. -/
def content (s : Bcache) (dev blockno : ℕ) : Block :=
  match s.cached dev blockno with
  | some i => if (s.buf i).valid then (s.buf i).data else s.disk dev blockno
  | none => s.disk dev blockno

end Bcache

section

variable {s s' : Bcache} {a : BufStep} {r : BufRet} {i j : Fin nBuf} {p : Fin nProc}
  {dev blockno : ℕ}

theorem content_of_valid (hk : KeyInv s) (hne : ¬(dev = 0 ∧ blockno = 0))
    (his : (s.buf i).Is dev blockno) (hv : (s.buf i).valid = true) :
    s.content dev blockno = (s.buf i).data := by
  unfold content
  split
  · rename_i j hc
    have hj := cached_is hc
    have hji : j = i := by
      apply hk.unique i j
      · intro h0
        exact hne ⟨his.1.symm.trans h0.1, his.2.symm.trans h0.2⟩
      · rw [his.1, his.2]
        exact hj
    rw [hji, if_pos hv]
  · rename_i hc
    exact absurd his (hk.cached_none hc i)

theorem content_of_disk (h : ∀ i, (s.buf i).Is dev blockno → (s.buf i).valid = false) :
    s.content dev blockno = s.disk dev blockno := by
  unfold content
  split
  · rename_i j hc
    rw [h j (cached_is hc)]
    simp
  · rfl

/-- A step that fills buffers from the disk at most, and writes to the disk only what buffers
have. -/
theorem content_keep (hk : KeyInv s) (hk' : KeyInv s') (hne : ¬(dev = 0 ∧ blockno = 0))
    (hkey : ∀ j, (s'.buf j).dev = (s.buf j).dev ∧ (s'.buf j).blockno = (s.buf j).blockno)
    (hvalid : ∀ j, (s.buf j).valid = true → (s'.buf j).valid = true ∧
      (s'.buf j).data = (s.buf j).data)
    (hfill : ∀ j, (s'.buf j).valid = true → (s.buf j).valid = false →
      (s'.buf j).data = s.disk (s.buf j).dev (s.buf j).blockno)
    (hdisk : (∀ j, (s.buf j).Is dev blockno → (s.buf j).valid = false) →
      s'.disk dev blockno = s.disk dev blockno) :
    s'.content dev blockno = s.content dev blockno := by
  have his : ∀ j, (s'.buf j).Is dev blockno ↔ (s.buf j).Is dev blockno := by
    intro j
    rw [Buf.Is, (hkey j).1, (hkey j).2, ← Buf.Is]
  by_cases h : ∃ j, (s.buf j).Is dev blockno ∧ (s.buf j).valid = true
  · obtain ⟨j, hj, hv⟩ := h
    obtain ⟨hv', hdata⟩ := hvalid j hv
    rw [content_of_valid hk hne hj hv, content_of_valid hk' hne ((his j).mpr hj) hv', hdata]
  · simp only [not_exists, not_and, Bool.not_eq_true] at h
    rw [content_of_disk h]
    by_cases h' : ∃ j, (s'.buf j).Is dev blockno ∧ (s'.buf j).valid = true
    · obtain ⟨j, hj, hv'⟩ := h'
      have hj₀ := (his j).mp hj
      rw [content_of_valid hk' hne hj hv', hfill j hv' (h j hj₀), hj₀.1, hj₀.2]
    · simp only [not_exists, not_and, Bool.not_eq_true] at h'
      rw [content_of_disk h', hdisk h]

theorem content_frame (hk : KeyInv s) (hk' : KeyInv s') (hne : ¬(dev = 0 ∧ blockno = 0))
    (hbuf : ∀ j, (s'.buf j).dev = (s.buf j).dev ∧ (s'.buf j).blockno = (s.buf j).blockno ∧
      (s'.buf j).valid = (s.buf j).valid ∧ (s'.buf j).data = (s.buf j).data)
    (hdisk : s'.disk = s.disk) : s'.content dev blockno = s.content dev blockno := by
  refine content_keep hk hk' hne (fun j => ⟨(hbuf j).1, (hbuf j).2.1⟩) (fun j hv => ?_)
    (fun j hv' hv => ?_) fun _ => by rw [hdisk]
  · exact ⟨(hbuf j).2.2.1.trans hv, (hbuf j).2.2.2⟩
  · rw [(hbuf j).2.2.1, hv] at hv'
    simp at hv'

/-- What a step stores in a block that held `old`. -/
def BufStep.stores (a : BufStep) (s : Bcache) (dev blockno : ℕ) (old : Block) : Block :=
  match a with
  | .store _ i data => if (s.buf i).Is dev blockno then data else old
  | _ => old

theorem content_miss (hk : KeyInv s) (hk' : KeyInv s') (hu : UseInv s) (hd : DataInv s)
    (hne : ¬(dev = 0 ∧ blockno = 0)) (hv : s.victim = some i)
    (hother : ∀ j, j ≠ i → s'.buf j = s.buf j) (hvalid : (s'.buf i).valid = false)
    (hdisk : s'.disk = s.disk) : s'.content dev blockno = s.content dev blockno := by
  obtain ⟨hfree, hclean⟩ := victim_free hv
  by_cases h : ∃ j, (s.buf j).Is dev blockno ∧ (s.buf j).valid = true
  · obtain ⟨j, hj, hjv⟩ := h
    rw [content_of_valid hk hne hj hjv]
    by_cases hji : j = i
    · -- the recycled buffer had what the disk has
      subst hji
      rw [(hd j).clean (hu.free hfree).1 hjv hclean, hj.1, hj.2, content_of_disk, hdisk]
      intro l hl
      by_cases hlj : l = j
      · rw [hlj]
        exact hvalid
      · rw [hother l hlj] at hl
        refine absurd (hk.unique j l (hk.keyed j (.inr hjv)) ?_) hlj
        rw [hj.1, hj.2]
        exact hl
    · rw [← hother j hji] at hj hjv ⊢
      exact content_of_valid hk' hne hj hjv
  · simp only [not_exists, not_and, Bool.not_eq_true] at h
    rw [content_of_disk h, content_of_disk, hdisk]
    intro j hj
    by_cases hji : j = i
    · rw [hji]
      exact hvalid
    · rw [hother j hji] at hj ⊢
      exact h j hj

theorem content_read (hk : KeyInv s) (hk' : KeyInv (s.ideintr i true))
    (hne : ¬(dev = 0 ∧ blockno = 0)) (hclean : (s.buf i).dirty = false)
    (hv : (s.buf i).valid = false) :
    (s.ideintr i true).content dev blockno = s.content dev blockno := by
  rw [ideintr_of_clean hclean] at hk' ⊢
  refine content_keep hk hk' hne (fun j => ?_) (fun j hj => ?_) (fun j hj hj₀ => ?_) fun _ => rfl
  · by_cases hji : j = i <;> simp [hji]
  · have hji : j ≠ i := by
      rintro rfl
      simp [hv] at hj
    simp [hji, hj]
  · by_cases hji : j = i
    · simp [hji, hk.drive]
    · simp [hji, hj₀] at hj

/-- The disk gets what the readers see already. -/
theorem content_written (ready : Bool) (hk : KeyInv s) (hk' : KeyInv (s.ideintr i ready))
    (hd : DataInv s) (hne : ¬(dev = 0 ∧ blockno = 0)) (hdirty : (s.buf i).dirty = true) :
    (s.ideintr i ready).content dev blockno = s.content dev blockno := by
  have hvi := (hd i).dirty hdirty
  rw [ideintr_of_dirty ready hdirty] at hk' ⊢
  refine content_keep hk hk' hne (fun j => ?_) (fun j hj => ?_) (fun j hj hj₀ => ?_) fun h => ?_
  · by_cases hji : j = i <;> simp [hji]
  · by_cases hji : j = i <;> simp [hji, hj]
  · by_cases hji : j = i
    · simp [hji, hvi] at hj₀
    · simp [hji, hj₀] at hj
  · have hi : ¬((s.buf i).dev % 2 = dev ∧ (s.buf i).blockno = blockno) := by
      rw [hk.drive]
      exact fun hi => by simp [h i hi] at hvi
    exact if_neg hi

theorem content_store (hk : KeyInv s) (hk' : KeyInv s') (hne : ¬(dev = 0 ∧ blockno = 0))
    {data : Block} (hs : s' = s.modify i fun b => { b with data := data })
    (hv : (s.buf i).valid = true) : s'.content dev blockno =
      if (s.buf i).Is dev blockno then data else s.content dev blockno := by
  subst hs
  split_ifs with hi
  · rw [content_of_valid (i := i) hk' hne (by simpa [Buf.Is] using hi) (by simpa using hv)]
    simp
  · by_cases h : ∃ j, (s.buf j).Is dev blockno ∧ (s.buf j).valid = true
    · obtain ⟨j, hj, hjv⟩ := h
      have hji : j ≠ i := fun hji => hi (hji ▸ hj)
      rw [content_of_valid hk hne hj hjv, content_of_valid (i := j) hk' hne]
      all_goals simp [hji, hj, hjv]
    · simp only [not_exists, not_and, Bool.not_eq_true] at h
      rw [content_of_disk h, content_of_disk]
      · rfl
      · intro j
        by_cases hji : j = i
        · intro hij
          exact absurd (by simpa [hji, Buf.Is] using hij) hi
        · simpa [hji] using h j

theorem BufTrans.content (h : BufTrans s a r s') (ha : Disciplined a s) (hi : BufInv s)
    (hne : ¬(dev = 0 ∧ blockno = 0)) :
    s'.content dev blockno = a.stores s dev blockno (s.content dev blockno) := by
  have hk' := (h.inv ha hi).key
  obtain ⟨hk, hu, hd⟩ := hi
  cases h with
  | hit p d b i hp hc =>
    refine content_frame hk hk' hne (fun j => ?_) rfl
    simp only [setCall_buf, modify_buf]
    split_ifs with hj <;> simp [hj]
  | miss p d b i hp hc hv =>
    exact content_miss hk hk' hu hd hne hv (fun j hj => by simp [hj]) (by simp) rfl
  | acquire p i hp hh hv | request p i hp hh hv | bwrite p i hp hh | brelse p i hp hh =>
    refine content_frame hk hk' hne (fun j => ?_) rfl
    simp only [setCall_buf, modify_buf]
    split_ifs with hj <;> simp [hj]
  | read p ready i hp =>
    obtain rfl : ready = true := ha
    exact content_read hk ⟨hk'.lru_nodup, hk'.lru_mem, hk'.dev_lt, hk'.keyed, hk'.unique⟩ hne
      (hd.clean_of_reading hu hp) (hu.reading hp).2
  | written p ready i hp =>
    exact content_written ready hk
      ⟨hk'.lru_nodup, hk'.lru_mem, hk'.dev_lt, hk'.keyed, hk'.unique⟩ hd hne (hu.writing hp).2
  | store p i data hp hh =>
    exact content_store hk hk' hne rfl (hu.valid i p hh (by simp [hp]))
  | pin p i hp hh =>
    refine content_frame hk hk' hne (fun j => ?_) rfl
    simp only [modify_buf]
    split_ifs with hj <;> simp [hj]
  | unref p i hp =>
    refine content_frame hk hk' hne (fun j => ?_) (by simp)
    simp only [setCall_buf, unref_buf, modify_buf]
    split_ifs with hj <;> simp [hj]

end

/-- What was last stored in each block during a run over the disks `disk`. -/
def lastStored (disk : ℕ → ℕ → Block) : List (Event Bcache BufStep BufRet) → ℕ → ℕ → Block
  | [] => disk
  | e :: tr => fun dev blockno => e.call.stores e.pre dev blockno (lastStored disk tr dev blockno)

section Binit

variable (disk : ℕ → ℕ → Block) (present : Bool)

theorem keyInv_binit : KeyInv (binit disk present) := by
  refine ⟨List.nodup_reverse.mpr (List.nodup_finRange nBuf), fun i => ?_, fun _ => Nat.two_pos,
    fun i h => ?_, fun i j h _ => ?_⟩
  · exact List.mem_reverse.mpr (List.mem_finRange i)
  · simp [binit, Buf.zero] at h
  · exact absurd ⟨rfl, rfl⟩ h

theorem useInv_binit : UseInv (binit disk present) := by
  refine ⟨fun i => ?_, fun p => trivial, fun i p h => ?_⟩
  · have hempty : threadsAt (fun c : BufCall => c.target = some i)
        (binit disk present).call = ∅ := by
      ext p
      simp [binit]
    rw [users, hempty]
    simp [binit, Buf.zero, Buf.held]
  · simp [binit, Buf.zero] at h

theorem dataInv_binit : DataInv (binit disk present) :=
  fun _ => ⟨by simp [binit, Buf.zero], by simp [binit, Buf.zero]⟩

theorem bufInv_binit : BufInv (binit disk present) :=
  ⟨keyInv_binit disk present, useInv_binit disk present, dataInv_binit disk present⟩

end Binit

theorem bcache_invariant {disk : ℕ → ℕ → Block} {tr : List (Event Bcache BufStep BufRet)}
    {s : Bcache} (h : BufRun disk tr s) : BufInv s ∧
      ∀ dev blockno, ¬(dev = 0 ∧ blockno = 0) →
        s.content dev blockno = lastStored disk tr dev blockno := by
  apply h.invariant_history (fun tr s => BufInv s ∧ ∀ dev blockno, ¬(dev = 0 ∧ blockno = 0) →
    s.content dev blockno = lastStored disk tr dev blockno)
  · rintro _ ⟨present, rfl⟩
    exact ⟨bufInv_binit disk present, fun dev blockno _ => content_of_disk fun i _ => rfl⟩
  · rintro tr s a r s' ⟨hi, hc⟩ ha he
    have ht := execBuf_trans he
    refine ⟨ht.inv ha hi, fun dev blockno hne => ?_⟩
    rw [ht.content ha hi hne, hc dev blockno hne]
    rfl

/-- A process that has got a buffer from `bread` sees in it what was last stored in the block by
anybody, or the disk of the beginning, whatever buffers were recycled in between. No other buffer
has the same block, and this one is not recycled. -/
theorem bread_sees_last_store {disk : ℕ → ℕ → Block} {tr : List (Event Bcache BufStep BufRet)}
    {s : Bcache} (h : BufRun disk tr s) {p : Fin nProc} {i : Fin nBuf}
    (hh : (s.buf i).holder = some p) (hc : s.call p ≠ .reading i) :
    (s.buf i).data = lastStored disk tr (s.buf i).dev (s.buf i).blockno ∧
      (∀ j, (s.buf j).Is (s.buf i).dev (s.buf i).blockno → j = i) ∧ s.victim ≠ some i := by
  obtain ⟨⟨hk, hu, -⟩, hcontent⟩ := bcache_invariant h
  have hv := hu.valid i p hh hc
  have hkey := hk.keyed i (.inr hv)
  refine ⟨?_, fun j hj => hk.unique i j hkey hj, fun hvic => ?_⟩
  · rw [← hcontent _ _ hkey, content_of_valid hk hkey ⟨rfl, rfl⟩ hv]
  · have hfree := hu.free (victim_free hvic).1
    simp [hh] at hfree

/-- A process stores in a block and gives it back; another one gets the block. -/
def passBlock (p q : Fin nProc) (i : Fin nBuf) : List BufStep :=
  [.bget p 1 5, .acquire p, .ideintr p true, .store p i (fun _ => 7), .pin p i, .brelse p i,
    .unref p, .bget q 1 5, .acquire q]

theorem bread_sees_last_store_passBlock : ∃ tr s, BufRun (fun _ _ _ => 0) tr s ∧
    (s.buf 0).holder = some 1 ∧ (s.buf 0).data = fun _ => 7 := by
  have h : ∃ tr s, BufRun (fun _ _ _ => 0) tr s ∧ decide (((s.buf 0).holder = some 1 ∧
      s.call 1 ≠ .reading 0) ∧
      lastStored (fun _ _ _ => 0) tr (s.buf 0).dev (s.buf 0).blockno = fun _ => 7) = true :=
    Run.exists_of_replayCheck (passBlock 0 1 0) ⟨true, rfl⟩ (by decide +kernel)
  obtain ⟨tr, s, hrun, hp⟩ := h
  obtain ⟨⟨hh, hc⟩, hlast⟩ := of_decide_eq_true hp
  exact ⟨tr, s, hrun, hh, (bread_sees_last_store hrun hh hc).1.trans hlast⟩

end SsuOs.Xv6
