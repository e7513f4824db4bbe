import SsuOs.Lib.Ring
import SsuOs.Xv6.Proc

/-! `struct pipe` of `pipe.c` and the loops over it. The counts are unsigned ints that wrap
around. -/
namespace SsuOs.Xv6
open SsuOs.Lib

abbrev pipeSize : ℕ := 512

structure Pipe where
  data : Fin pipeSize → UInt8
  nread : UInt32
  nwrite : UInt32
  readopen : Bool
  writeopen : Bool

namespace Pipe

/-- The end for writing or the one for reading is open. -/
def isOpen (P : Pipe) (writable : Bool) : Bool := if writable then P.writeopen else P.readopen

def Full (P : Pipe) : Prop := P.nwrite = P.nread + UInt32.ofNat pipeSize

instance (P : Pipe) : Decidable P.Full := inferInstanceAs (Decidable (_ = _))

def Empty (P : Pipe) : Prop := P.nread = P.nwrite

instance (P : Pipe) : Decidable P.Empty := inferInstanceAs (Decidable (_ = _))

def put (P : Pipe) (b : UInt8) : Pipe :=
  { P with
    data := Function.update P.data (Fin.ofNat pipeSize P.nwrite.toNat) b
    nwrite := P.nwrite + 1 }

/-- The loop of `pipewrite` as far as there is room, with the number of bytes it has stored. -/
def fill : List UInt8 → Pipe → ℕ × Pipe
  | [], P => (0, P)
  | b :: bs, P =>
    if P.Full then (0, P)
    else
      let r := fill bs (P.put b)
      (r.1 + 1, r.2)

/-- The copying loop of `piperead` for at most `n` bytes. -/
def drain : ℕ → Pipe → List UInt8 × Pipe
  | 0, P => ([], P)
  | n + 1, P =>
    if P.Empty then ([], P)
    else
      let r := drain n { P with nread := P.nread + 1 }
      (P.data (Fin.ofNat pipeSize P.nread.toNat) :: r.1, r.2)

/-- The assignments of `pipeclose`. -/
def close (P : Pipe) (writable : Bool) : Pipe :=
  if writable then { P with writeopen := false } else { P with readopen := false }

/-- `pipealloc`, on a page that holds anything. -/
def init (data : Fin pipeSize → UInt8) : Pipe := ⟨data, 0, 0, true, true⟩

def count (P : Pipe) : ℕ := (P.nwrite - P.nread).toNat

/-- The bytes that wait in the pipe, the oldest first. -/
def buffered (P : Pipe) : List UInt8 := window P.data P.nread.toNat P.count

end Pipe

/-- There are never more bytes in a pipe than its cells. -/
def Pipe.Bounded (P : Pipe) : Prop := P.count ≤ pipeSize

section

variable {P : Pipe} {b : UInt8} {bs : List UInt8}

@[simp] theorem Pipe.length_buffered (P : Pipe) : P.buffered.length = P.count := length_window _ _ _

theorem Pipe.empty_iff_count : P.Empty ↔ P.count = 0 := by
  simp only [Pipe.Empty, Pipe.count, UInt32.toNat_sub, ← UInt32.toNat_inj]
  have hr := P.nread.toNat_lt
  have hw := P.nwrite.toNat_lt
  omega

theorem Pipe.empty_iff : P.Empty ↔ P.buffered = [] := by
  rw [Pipe.empty_iff_count, ← List.length_eq_zero_iff, Pipe.length_buffered]

theorem Pipe.full_iff_count : P.Full ↔ P.count = pipeSize := by
  simp only [Pipe.Full, Pipe.count, UInt32.toNat_sub, ← UInt32.toNat_inj, UInt32.toNat_add]
  have hr := P.nread.toNat_lt
  have hw := P.nwrite.toNat_lt
  have hsize : (UInt32.ofNat pipeSize).toNat = 512 := rfl
  rw [hsize]
  unfold pipeSize
  omega

theorem Pipe.count_put (h : P.count < pipeSize) : (P.put b).count = P.count + 1 := by
  simp only [Pipe.put, Pipe.count, UInt32.toNat_sub, UInt32.toNat_add] at h ⊢
  have hr := P.nread.toNat_lt
  have hw := P.nwrite.toNat_lt
  have hone : (1 : UInt32).toNat = 1 := rfl
  rw [hone]
  unfold pipeSize at h
  omega

theorem Pipe.nwrite_eq (P : Pipe) : P.nwrite.toNat = (P.nread.toNat + P.count) % 2 ^ 32 := by
  simp only [Pipe.count, UInt32.toNat_sub]
  have hr := P.nread.toNat_lt
  have hw := P.nwrite.toNat_lt
  omega

theorem Pipe.pipeSize_dvd : pipeSize ∣ 2 ^ 32 := ⟨2 ^ 23, rfl⟩

theorem Pipe.buffered_put (h : P.count < pipeSize) : (P.put b).buffered = P.buffered ++ [b] := by
  rw [Pipe.buffered, Pipe.count_put h, Pipe.buffered, ← window_update h b, Pipe.put]
  dsimp only
  rw [P.nwrite_eq, ofNat_mod pipeSize_dvd]

theorem Pipe.count_get (h : P.count ≠ 0) :
    ({ P with nread := P.nread + 1 } : Pipe).count + 1 = P.count := by
  simp only [Pipe.count, UInt32.toNat_sub, UInt32.toNat_add] at h ⊢
  have hr := P.nread.toNat_lt
  have hw := P.nwrite.toNat_lt
  have hone : (1 : UInt32).toNat = 1 := rfl
  rw [hone]
  omega

theorem Pipe.buffered_get (h : P.count ≠ 0) : P.buffered =
    P.data (Fin.ofNat pipeSize P.nread.toNat) ::
      ({ P with nread := P.nread + 1 } : Pipe).buffered := by
  unfold Pipe.buffered
  rw [← Pipe.count_get h, window_succ]
  dsimp only
  rw [UInt32.toNat_add, window_mod pipeSize_dvd]
  rfl

/-- What `pipewrite` leaves of a pipe after `m` bytes. -/
structure Pipe.Filled (P : Pipe) (bs : List UInt8) (m : ℕ) (P' : Pipe) : Prop where
  stored : m = min bs.length (pipeSize - P.count)
  buffered : P'.buffered = P.buffered ++ bs.take m

/-- `pipewrite` stores as many bytes as fit, in their order. -/
theorem Pipe.fill_filled (h : P.Bounded) (bs : List UInt8) :
    P.Filled bs (P.fill bs).1 (P.fill bs).2 := by
  induction bs generalizing P with
  | nil => exact ⟨by simp [Pipe.fill], by simp [Pipe.fill]⟩
  | cons b bs ih =>
    rw [Pipe.fill]
    split_ifs with hfull
    · rw [Pipe.full_iff_count] at hfull
      exact ⟨by simp [hfull], by simp⟩
    · rw [Pipe.full_iff_count] at hfull
      have hlt : P.count < pipeSize := lt_of_le_of_ne h hfull
      have hcount := Pipe.count_put (b := b) hlt
      have hput : (P.put b).Bounded := by
        rw [Pipe.Bounded, hcount]
        exact hlt
      obtain ⟨hm, hbuf⟩ := ih hput
      constructor
      · dsimp only
        rw [hm, hcount, List.length_cons]
        omega
      · dsimp only
        rw [hbuf, Pipe.buffered_put hlt, List.take_succ_cons, List.append_assoc]
        rfl

theorem Pipe.Filled.count {m : ℕ} {P' : Pipe} (h : P.Filled bs m P') :
    P'.count = P.count + m := by
  have hlen := congrArg List.length h.buffered
  have hm := h.stored
  simp only [Pipe.length_buffered, List.length_append, List.length_take] at hlen
  omega

/-- What `piperead` leaves of a pipe after it has taken `bs`. -/
structure Pipe.Drained (P : Pipe) (n : ℕ) (bs : List UInt8) (P' : Pipe) : Prop where
  taken : bs = P.buffered.take n
  buffered : P'.buffered = P.buffered.drop n

theorem Pipe.drain_drained (P : Pipe) (n : ℕ) : P.Drained n (P.drain n).1 (P.drain n).2 := by
  induction n generalizing P with
  | zero => exact ⟨by simp [Pipe.drain], by simp [Pipe.drain]⟩
  | succ n ih =>
    rw [Pipe.drain]
    split_ifs with hempty
    · rw [Pipe.empty_iff] at hempty
      exact ⟨by simp [hempty], by simp [hempty]⟩
    · rw [Pipe.empty_iff_count] at hempty
      obtain ⟨htaken, hbuf⟩ := ih { P with nread := P.nread + 1 }
      have hget := Pipe.buffered_get hempty
      constructor
      · dsimp only
        rw [htaken, hget, List.take_succ_cons]
      · dsimp only
        rw [hbuf, hget, List.drop_succ_cons]

theorem Pipe.Drained.count {n : ℕ} {P' : Pipe} (h : P.Drained n bs P') :
    P'.count = P.count - n := by
  rw [← Pipe.length_buffered, h.buffered, List.length_drop, Pipe.length_buffered]

@[simp] theorem Pipe.isOpen_fill (P : Pipe) (bs : List UInt8) :
    (P.fill bs).2.isOpen = P.isOpen := by
  induction bs generalizing P with
  | nil => rfl
  | cons b bs ih =>
    rw [Pipe.fill]
    split_ifs
    · rfl
    · exact ih (P.put b)

@[simp] theorem Pipe.isOpen_drain (P : Pipe) (n : ℕ) : (P.drain n).2.isOpen = P.isOpen := by
  induction n generalizing P with
  | zero => rfl
  | succ n ih =>
    rw [Pipe.drain]
    split_ifs
    · rfl
    · exact ih { P with nread := P.nread + 1 }

@[simp] theorem Pipe.isOpen_close (w w' : Bool) :
    (P.close w).isOpen w' = if w' = w then false else P.isOpen w' := by
  cases w <;> cases w' <;> rfl

@[simp] theorem Pipe.buffered_close (w : Bool) : (P.close w).buffered = P.buffered := by
  cases w <;> rfl

@[simp] theorem Pipe.isOpen_init (data : Fin pipeSize → UInt8) (w : Bool) :
    (Pipe.init data).isOpen w = true := by
  cases w <;> rfl

@[simp] theorem Pipe.buffered_init (data : Fin pipeSize → UInt8) :
    (Pipe.init data).buffered = [] := Pipe.empty_iff.mp rfl

end

end SsuOs.Xv6
