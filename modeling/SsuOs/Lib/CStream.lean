import Mathlib.Data.PNat.Basic
import SsuOs.Lib.CInput

/-! Input of the C library through the buffer of a stream. The offset of the descriptor belongs to
all processes that have a copy of the stream, the buffer to each of them alone. -/
namespace SsuOs.Lib.CString

structure Stream where
  /-- The characters of the buffer that have not been read yet. -/
  unread : List UInt8
  offset : ℕ
  eof : Bool
  deriving DecidableEq

/-- The multiple of `size` at `p` or next behind it. -/
def roundUp (size : ℕ+) (p : ℕ) : ℕ := (p + size - 1) / size * size

namespace Stream

variable (file : List UInt8) (size : ℕ+)

def fopen : Stream := ⟨[], 0, false⟩

/-- An empty buffer is filled with the next `size` characters; the indicator for the end of the
file stays set. -/
def getc (s : Stream) : Option UInt8 × Stream :=
  match s.unread with
  | c :: cs => (some c, { s with unread := cs })
  | [] =>
    if s.eof then (none, s)
    else match (file.drop s.offset).take size with
      | [] => (none, { s with eof := true })
      | c :: cs => (some c, { s with unread := cs, offset := s.offset + (cs.length + 1) })

def takeLine : ℕ → Stream → List UInt8 × Stream
  | 0, s => ([], s)
  | n + 1, s =>
    match s.getc file size with
    | (none, s) => ([], s)
    | (some c, s) => if c = lineFeed then ([c], s) else (c :: (takeLine n s).1, (takeLine n s).2)

/-- `fgets` for a buffer of at least two characters. -/
def fgets (dst : Buffer) (n : ℕ) (s : Stream) : Except BufferFault (Option (Buffer × Stream)) :=
  if (s.takeLine file size (n - 1)).1 = [] then .ok none
  else do
    let dst ← storeString dst (s.takeLine file size (n - 1)).1
    .ok (some (dst, (s.takeLine file size (n - 1)).2))

/-- `exit` of a process that has a copy of the stream: `lseek` goes back over what the copy has
not read, and refuses to go before the file. -/
def exit (s : Stream) (unread : ℕ) : Stream :=
  if unread ≤ s.offset then { s with offset := s.offset - unread } else s

/-- What is read when nobody else moves the offset. -/
def rest (s : Stream) : List UInt8 := s.unread ++ if s.eof then [] else file.drop s.offset

/-- The offset when `p` characters have been read and nobody else has moved it. -/
def ahead (p : ℕ) : ℕ := min file.length (roundUp size p)

def after (p : ℕ) : Stream := ⟨(file.drop p).take (ahead file size p - p), ahead file size p, false⟩

variable {file size} {s : Stream} {n p : ℕ}

section Rest

theorem getc_rest (file : List UInt8) (size : ℕ+) (s : Stream) :
    (s.getc file size).1 = (s.rest file).head? ∧
      (s.getc file size).2.rest file = (s.rest file).tail := by
  obtain ⟨unread, offset, eof⟩ := s
  cases unread with
  | cons c cs => exact ⟨rfl, rfl⟩
  | nil =>
    cases eof with
    | true => exact ⟨rfl, rfl⟩
    | false =>
      cases hread : (file.drop offset).take size with
      | nil =>
        have hend : file.drop offset = [] :=
          (List.take_eq_nil_iff.mp hread).resolve_left size.ne_zero
        simp [getc, rest, hend]
      | cons c cs =>
        have hdrop : file.drop offset = (c :: cs) ++ file.drop (offset + (cs.length + 1)) := by
          have hpre : c :: cs <+: file.drop offset := hread ▸ List.take_prefix size _
          rw [← List.length_cons (a := c), ← List.drop_drop]
          exact (List.prefix_iff_eq_append.mp hpre).symm
        simp only [getc, rest, hread, Bool.false_eq_true, if_false]
        rw [hdrop]
        exact ⟨rfl, rfl⟩

theorem takeLine_rest (file : List UInt8) (size : ℕ+) (n : ℕ) (s : Stream) :
    (s.takeLine file size n).1 = (CString.takeLine n (s.rest file)).1 ∧
      (s.takeLine file size n).2.rest file = (CString.takeLine n (s.rest file)).2 := by
  induction n generalizing s with
  | zero => exact ⟨rfl, rfl⟩
  | succ n ih =>
    obtain ⟨hhead, htail⟩ := getc_rest file size s
    rw [takeLine]
    rcases hget : s.getc file size with ⟨c, s'⟩
    rw [hget] at hhead htail
    cases hrest : s.rest file with
    | nil =>
      rw [hrest] at hhead htail
      obtain rfl : c = none := hhead
      exact ⟨rfl, htail⟩
    | cons d ds =>
      rw [hrest] at hhead htail
      obtain rfl : c = some d := hhead
      obtain rfl : s'.rest file = ds := htail
      rw [CString.takeLine]
      dsimp only
      split_ifs with hd
      · exact ⟨rfl, rfl⟩
      · exact ⟨congrArg (d :: ·) (ih s').1, (ih s').2⟩

theorem rest_nonzero (hfile : 0 ∉ file) (hs : 0 ∉ s.unread) : 0 ∉ s.rest file := by
  have hdrop : 0 ∉ file.drop s.offset := fun h => hfile (List.mem_of_mem_drop h)
  rw [rest, List.mem_append, not_or]
  refine ⟨hs, ?_⟩
  split_ifs
  · exact List.not_mem_nil
  · exact hdrop

theorem length_rest_le_exit (file : List UInt8) (s : Stream) (u : ℕ) :
    (s.rest file).length ≤ ((s.exit u).rest file).length := by
  rw [exit]
  split_ifs with hu
  · rw [rest, rest]
    split_ifs
    · exact le_rfl
    · simp only [List.length_append, List.length_drop]
      omega
  · exact le_rfl

theorem length_rest_lt_exit {u : ℕ} (heof : s.eof = false) (hs : s.offset ≤ file.length)
    (hpos : 0 < u) (hu : u ≤ s.offset) :
    (s.rest file).length < ((s.exit u).rest file).length := by
  rw [exit, if_pos hu, rest, rest]
  simp only [heof, Bool.false_eq_true, if_false, List.length_append, List.length_drop]
  omega

end Rest

section Exits

@[simp] theorem exit_zero (s : Stream) : s.exit 0 = s := rfl

theorem foldl_exit_eq {us : List ℕ} (h : ∀ u ∈ us, u = 0) : us.foldl exit s = s := by
  induction us with
  | nil => rfl
  | cons u us ih =>
    rw [List.forall_mem_cons] at h
    rw [List.foldl_cons, h.1, exit_zero, ih h.2]

theorem length_rest_le_foldl_exit (file : List UInt8) (us : List ℕ) (s : Stream) :
    (s.rest file).length ≤ ((us.foldl exit s).rest file).length := by
  induction us generalizing s with
  | nil => exact le_rfl
  | cons u us ih => exact (length_rest_le_exit file s u).trans (ih (s.exit u))

/-- The first process with unread characters goes back, and nobody goes forward. -/
theorem length_rest_lt_foldl_exit {us : List ℕ} (heof : s.eof = false)
    (hs : s.offset ≤ file.length) (hle : ∀ u ∈ us, u ≤ s.offset) (hpos : ∃ u ∈ us, u ≠ 0) :
    (s.rest file).length < ((us.foldl exit s).rest file).length := by
  induction us with
  | nil => simp at hpos
  | cons u us ih =>
    rw [List.forall_mem_cons] at hle
    rw [List.foldl_cons]
    by_cases hu : u = 0
    · rw [hu, exit_zero]
      apply ih hle.2
      simpa [hu] using hpos
    · exact (length_rest_lt_exit heof hs (by omega) hle.1).trans_le
        (length_rest_le_foldl_exit file us _)

theorem unread_foldl_exit (us : List ℕ) (s : Stream) : (us.foldl exit s).unread = s.unread := by
  induction us generalizing s with
  | nil => rfl
  | cons u us ih =>
    rw [List.foldl_cons, ih, exit]
    split_ifs <;> rfl

end Exits

section After

theorem le_roundUp (size : ℕ+) (p : ℕ) : p ≤ roundUp size p ∧ roundUp size p < p + size := by
  have hsize := size.pos
  have hle := Nat.div_mul_le_self (p + size - 1) size
  have hlt := Nat.lt_div_mul_add (a := p + size - 1) hsize
  rw [roundUp]
  omega

theorem roundUp_mono (size : ℕ+) : Monotone (roundUp size) := by
  intro p q h
  exact Nat.mul_le_mul_right _ (Nat.div_le_div_right (by omega))

theorem roundUp_eq {m : ℕ} (hm : (size : ℕ) ∣ m) (hle : p ≤ m) (hlt : m < p + size) :
    roundUp size p = m := by
  obtain ⟨q, rfl⟩ := hm
  have hdiv : (p + size - 1) / size = q := by
    apply Nat.div_eq_of_lt_le
    · rw [Nat.mul_comm]
      omega
    · rw [Nat.mul_comm, Nat.mul_add_one]
      omega
  rw [roundUp, hdiv, Nat.mul_comm]

theorem roundUp_succ (size : ℕ+) (p : ℕ) :
    roundUp size (p + 1) = if roundUp size p = p then p + size else roundUp size p := by
  have hsize := size.pos
  have hp := le_roundUp size p
  have hdvd : (size : ℕ) ∣ roundUp size p := Nat.dvd_mul_left _ _
  split_ifs with h
  · rw [h] at hdvd
    exact roundUp_eq (Nat.dvd_add hdvd (dvd_refl _)) (by omega) (by omega)
  · exact roundUp_eq hdvd (by omega) (by omega)

theorem ahead_le (file : List UInt8) (size : ℕ+) (p : ℕ) : ahead file size p ≤ file.length :=
  min_le_left _ _

theorem le_ahead (size : ℕ+) (hp : p ≤ file.length) : p ≤ ahead file size p :=
  le_min hp (le_roundUp size p).1

theorem ahead_mono (file : List UInt8) (size : ℕ+) : Monotone (ahead file size) :=
  fun _ _ h => min_le_min_left _ (roundUp_mono size h)

theorem length_unread_after : (after file size p).unread.length = ahead file size p - p := by
  have hle := ahead_le file size p
  simp only [after, List.length_take, List.length_drop]
  omega

@[simp] theorem after_zero : after file size 0 = fopen := by
  have hzero : roundUp size 0 = 0 := roundUp_eq (dvd_zero _) le_rfl (by simp)
  simp [after, ahead, hzero, fopen]

theorem rest_after (hp : p ≤ file.length) : (after file size p).rest file = file.drop p := by
  have hle := le_ahead size hp
  have hdrop : file.drop (ahead file size p) = (file.drop p).drop (ahead file size p - p) := by
    rw [List.drop_drop]
    congr 1
    omega
  rw [rest, after]
  simp only [Bool.false_eq_true, if_false]
  rw [hdrop, List.take_append_drop]

theorem getc_after {c : UInt8} {cs : List UInt8} (h : file.drop p = c :: cs) :
    (after file size p).getc file size = (some c, after file size (p + 1)) := by
  have hcs : file.drop (p + 1) = cs := by rw [← List.drop_drop, h, List.drop_one, List.tail_cons]
  have hlen : cs.length + (p + 1) = file.length := by
    have hlen := congrArg List.length h
    rw [List.length_drop, List.length_cons] at hlen
    omega
  have hle := (le_roundUp size p).1
  have hsucc := roundUp_succ size p
  have hpos := size.pos
  by_cases hfull : roundUp size p = p
  · -- the buffer is empty and is filled
    have hahead : ahead file size p = p := by
      rw [ahead, hfull]
      omega
    have hnext : ahead file size (p + 1) = min file.length (p + size) := by
      rw [ahead, hsucc, if_pos hfull]
    obtain ⟨m, hm⟩ := Nat.exists_eq_add_one_of_ne_zero size.ne_zero
    have htake : cs.take (ahead file size (p + 1) - (p + 1)) = cs.take m := by
      rw [List.take_eq_take_iff, hnext, hm]
      omega
    have hoffset : ahead file size (p + 1) = p + ((cs.take m).length + 1) := by
      rw [hnext, hm, List.length_take]
      omega
    rw [after, after, hcs, htake, hoffset, hahead, Nat.sub_self, List.take_zero, getc]
    simp only [Bool.false_eq_true, if_false, h, hm, List.take_succ_cons]
  · have hnext : ahead file size (p + 1) = ahead file size p := by
      rw [ahead, hsucc, if_neg hfull, ahead]
    have hlt : p < ahead file size p := by
      rw [ahead]
      omega
    have hsub : ahead file size p - p = ahead file size p - (p + 1) + 1 := by omega
    rw [after, after, hcs, hnext, h, hsub, List.take_succ_cons, getc]

theorem takeLine_after (size : ℕ+) {l cs : List UInt8} (h : file.drop p = l ++ lineFeed :: cs)
    (hl : lineFeed ∉ l) (hn : l.length < n) :
    (after file size p).takeLine file size n =
      (l ++ [lineFeed], after file size (p + (l.length + 1))) := by
  induction l generalizing n p with
  | nil =>
    obtain ⟨n, rfl⟩ := Nat.exists_eq_succ_of_ne_zero (by omega : n ≠ 0)
    rw [takeLine, getc_after h]
    rfl
  | cons c l ih =>
    obtain ⟨n, rfl⟩ := Nat.exists_eq_succ_of_ne_zero (by omega : n ≠ 0)
    rw [List.mem_cons, not_or] at hl
    rw [List.length_cons] at hn ⊢
    have hdrop : file.drop (p + 1) = l ++ lineFeed :: cs := by
      rw [← List.drop_drop, h, List.cons_append, List.drop_one, List.tail_cons]
    rw [takeLine, getc_after h]
    dsimp only
    rw [if_neg (Ne.symm hl.1), ih hdrop hl.2 (by omega), Nat.add_assoc p 1, Nat.add_comm 1]
    rfl

end After

end Stream

end SsuOs.Lib.CString
