import SsuOs.Xv6.BcacheInv

/-! The blocks of a device as the callers of the buffer cache know them, without the buffers. -/
namespace SsuOs.Xv6
open SsuOs.Lib Bcache

/-- The blocks of a device: what `bread` shows of them, and what is on the disk. -/
structure Store where
  content : ℕ → Block
  disk : ℕ → Block

namespace Store

def store (s : Store) (b : ℕ) (v : Block) : Store :=
  { s with content := Function.update s.content b v }

def flush (s : Store) (b : ℕ) : Store :=
  { s with disk := Function.update s.disk b (s.content b) }

/-- `memmove` into the buffer of a block and `bwrite` of it. -/
def bwrite (s : Store) (b : ℕ) (v : Block) : Store := (s.store b v).flush b

/-- `bread` of a block when the cache has a buffer for it; the driver refuses a block behind the
file system. -/
def bread (s : Store) (b : ℕ) : Except Fault Block :=
  if fsSize ≤ b then .error .panic else .ok (s.content b)

/-- Memory is lost. -/
def crash (s : Store) : Store := ⟨s.disk, s.disk⟩

end Store

/-- What the callers of the cache do with the blocks of a device. -/
inductive StoreCall
  | store (b : ℕ) (v : Block)
  | bread (b : ℕ)
  | bwrite (b : ℕ)
  deriving DecidableEq

/-- A store of blocks without a cache: `bread` shows what was stored, `bwrite` puts it on the
disk. -/
inductive StoreStep (s : Store) : StoreCall → Option Block → Store → Prop
  | store (b : ℕ) (v : Block) : StoreStep s (.store b v) none (s.store b v)
  | bread (b : ℕ) : StoreStep s (.bread b) (some (s.content b)) s
  | bwrite (b : ℕ) : StoreStep s (.bwrite b) none (s.flush b)

namespace Bcache

/-- The device `dev` behind the cache. -/
def device (s : Bcache) (dev : ℕ) : Store := ⟨s.content dev, s.disk dev⟩

/-- The block of `dev` that buffer `i` has. -/
def blockOf (s : Bcache) (dev : ℕ) (i : Fin nBuf) : Option ℕ :=
  if (s.buf i).dev = dev then some (s.buf i).blockno else none

end Bcache

/-- The call on a block of `dev` that is complete with the event, and what `bread` has returned. -/
def storeCall (dev : ℕ) (e : Event Bcache BufStep BufRet) : Option (StoreCall × Option Block) :=
  match e.call, e.ret with
  | .store _ i data, _ => (e.pre.blockOf dev i).map fun b => (.store b data, none)
  | _, .bread i data => (e.pre.blockOf dev i).map fun b => (.bread b, some data)
  | _, .bwrite i => (e.pre.blockOf dev i).map fun b => (.bwrite b, none)
  | _, .none => none

section

variable {s s' : Bcache} {a : BufStep} {r : BufRet} {dev : ℕ} {i : Fin nBuf}

theorem labelled_of_block {d d' : Store} {f : ℕ → StoreCall × Option Block}
    (hin : (s.buf i).dev = dev → StoreStep d (f (s.buf i).blockno).1 (f (s.buf i).blockno).2 d')
    (hout : (s.buf i).dev ≠ dev → d' = d) : Labelled StoreStep d d' ((s.blockOf dev i).map f) := by
  unfold Bcache.blockOf
  split_ifs with hdev
  · exact hin hdev
  · exact hout hdev

theorem device_written (ready : Bool) (hk : KeyInv s) (hd : DataInv s) (hdev : dev ≠ 0)
    (hdirty : (s.buf i).dirty = true) (hc : s'.content dev = s.content dev)
    (hs : s'.disk = (s.ideintr i ready).disk) :
    Labelled StoreStep (s.device dev) (s'.device dev)
      ((s.blockOf dev i).map fun b => (.bwrite b, none)) := by
  unfold Bcache.device
  rw [hc, hs, ideintr_of_dirty ready hdirty]
  dsimp only
  refine labelled_of_block (fun hi => ?_) fun hi => ?_
  · have hdata : s.content dev (s.buf i).blockno = (s.buf i).data :=
      content_of_valid hk (fun h => hdev h.1) ⟨hi, rfl⟩ ((hd i).dirty hdirty)
    have hdisk : (fun blockno => if (s.buf i).dev % 2 = dev ∧ (s.buf i).blockno = blockno
        then (s.buf i).data else s.disk dev blockno) =
        Function.update (s.disk dev) (s.buf i).blockno (s.content dev (s.buf i).blockno) := by
      ext1 b
      rw [Function.update_apply, hdata, hk.drive, hi]
      simp only [true_and, eq_comm]
    rw [hdisk]
    exact .bwrite (s := ⟨s.content dev, s.disk dev⟩) (s.buf i).blockno
  · simp only [hk.drive, hi, false_and, ↓reduceIte]

theorem device_store {p : Fin nProc} {data : Block}
    (hc : s'.content dev = fun b => (BufStep.store p i data).stores s dev b (s.content dev b))
    (hs : s'.disk = s.disk) :
    Labelled StoreStep (s.device dev) (s'.device dev)
      ((s.blockOf dev i).map fun b => (.store b data, none)) := by
  unfold Bcache.device
  rw [hc, hs]
  refine labelled_of_block (fun hi => ?_) fun hi => ?_
  · have hstore : (fun b => (BufStep.store p i data).stores s dev b (s.content dev b)) =
        Function.update (s.content dev) (s.buf i).blockno data := by
      ext1 b
      rw [Function.update_apply]
      simp only [BufStep.stores, Buf.Is, hi, true_and, eq_comm]
    rw [hstore]
    exact .store (s := ⟨s.content dev, s.disk dev⟩) (s.buf i).blockno data
  · simp only [BufStep.stores, Buf.Is, hi, false_and, ↓reduceIte]

theorem device_bread {data : Block} (hdevice : s'.device dev = s.device dev)
    (hdata : (s.buf i).dev = dev → s.content dev (s.buf i).blockno = data) :
    Labelled StoreStep (s.device dev) (s'.device dev)
      ((s.blockOf dev i).map fun b => (.bread b, some data)) := by
  rw [hdevice]
  refine labelled_of_block (fun hi => ?_) fun _ => rfl
  dsimp only
  rw [← hdata hi]
  exact .bread (s := s.device dev) (s.buf i).blockno

theorem BufTrans.labelled (h : BufTrans s a r s') (ha : Disciplined a s) (hi : BufInv s)
    (hdev : dev ≠ 0) :
    Labelled StoreStep (s.device dev) (s'.device dev) (storeCall dev ⟨s, a, r⟩) := by
  have hne : ∀ b, ¬(dev = 0 ∧ b = 0) := fun b h => hdev h.1
  have hcontent : s'.content dev = fun b => a.stores s dev b (s.content dev b) := by
    ext1 b
    exact h.content ha hi (hne b)
  have hk' := (h.inv ha hi).key
  obtain ⟨hk, hu, hd⟩ := hi
  have hsame (hc : s'.content dev = s.content dev) (hs : s'.disk = s.disk) :
      s'.device dev = s.device dev := by rw [Bcache.device, hc, hs, ← Bcache.device]
  cases h with
  | hit p d b i hp hc | miss p d b i hp hc hv | request p i hp hh hv | pin p i hp hh
  | bwrite p i hp hh | brelse p i hp hh => exact hsame hcontent rfl
  | unref p i hp => exact hsame hcontent (unref_disk s i)
  | acquire p i hp hh hv =>
    exact device_bread (hsame hcontent rfl) fun hi => content_of_valid hk (hne _) ⟨hi, rfl⟩ hv
  | read p ready i hp =>
    obtain rfl : ready = true := ha
    have hclean := hd.clean_of_reading hu hp
    refine device_bread (hsame hcontent (by rw [ideintr_of_clean hclean]; rfl)) fun hi => ?_
    have hshown := congrFun hcontent (s.buf i).blockno
    rw [ideintr_of_clean hclean] at hshown hk' ⊢
    refine hshown.symm.trans (content_of_valid hk' (hne _) ⟨?_, ?_⟩ ?_) <;> simp [hi]
  | written p ready i hp => exact device_written ready hk hd hdev (hu.writing hp).2 hcontent rfl
  | store p i data hp hh => exact device_store hcontent rfl

end

end SsuOs.Xv6
