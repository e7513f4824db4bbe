import Mathlib.Data.List.TakeWhile
import SsuOs.Lib.CString

/-! Line input of the C library from a text that is read to its end. -/
namespace SsuOs.Lib.CString

def lineFeed : UInt8 := 10

/-- At most `n` characters up to the end of the line, and the text behind them. -/
def takeLine : ℕ → List UInt8 → List UInt8 × List UInt8
  | 0, text => ([], text)
  | _ + 1, [] => ([], [])
  | n + 1, c :: text =>
    if c = lineFeed then ([c], text) else (c :: (takeLine n text).1, (takeLine n text).2)

/-- Stores the characters and a zero behind them. -/
def storeString (dst : Buffer) (l : List UInt8) : Except BufferFault Buffer :=
  if l.length < dst.length then .ok (l ++ 0 :: dst.drop (l.length + 1)) else .error .outOfBounds

/-- `scanf` with the conversion for one or more characters that are not a line feed; without any
nothing is stored. -/
def scanLine (dst : Buffer) (text : List UInt8) : Except BufferFault (Buffer × List UInt8) :=
  if text.takeWhile (· ≠ lineFeed) = [] then .ok (dst, text)
  else do
    let dst ← storeString dst (text.takeWhile (· ≠ lineFeed))
    .ok (dst, text.dropWhile (· ≠ lineFeed))

/-- The text behind the character that `getchar` returns. -/
def getchar (text : List UInt8) : List UInt8 := text.tail

theorem takeLine_append (n : ℕ) (text : List UInt8) :
    (takeLine n text).1 ++ (takeLine n text).2 = text := by
  induction n generalizing text with
  | zero => rfl
  | succ n ih =>
    cases text with
    | nil => rfl
    | cons c text =>
      rw [takeLine]
      split_ifs
      · rfl
      · exact congrArg (c :: ·) (ih text)

theorem length_takeLine_le (n : ℕ) (text : List UInt8) : (takeLine n text).1.length ≤ n := by
  induction n generalizing text with
  | zero => exact le_rfl
  | succ n ih =>
    cases text with
    | nil => exact Nat.zero_le _
    | cons c text =>
      rw [takeLine]
      split_ifs
      · simp
      · exact Nat.succ_le_succ (ih text)

theorem takeLine_eq_nil_iff (n : ℕ) (text : List UInt8) :
    (takeLine (n + 1) text).1 = [] ↔ text = [] := by
  cases text with
  | nil => simp [takeLine]
  | cons c text =>
    rw [takeLine]
    split_ifs <;> simp

section Line

variable {l : List UInt8} (hl : lineFeed ∉ l)
include hl

theorem takeLine_last {n : ℕ} (hn : l.length ≤ n) : takeLine n l = (l, []) := by
  induction l generalizing n with
  | nil =>
    cases n with
    | zero => rfl
    | succ n => rfl
  | cons c l ih =>
    obtain ⟨n, rfl⟩ := Nat.exists_eq_succ_of_ne_zero (by simp at hn; omega : n ≠ 0)
    rw [List.mem_cons, not_or] at hl
    rw [List.length_cons] at hn
    rw [takeLine, if_neg (Ne.symm hl.1), ih hl.2 (by omega)]

theorem takeWhile_line (rest : List UInt8) :
    (l ++ lineFeed :: rest).takeWhile (· ≠ lineFeed) = l ∧
      (l ++ lineFeed :: rest).dropWhile (· ≠ lineFeed) = lineFeed :: rest := by
  have hpos : ∀ c ∈ l, (decide (c ≠ lineFeed)) = true :=
    fun c hc => decide_eq_true fun h => hl (h ▸ hc)
  rw [List.takeWhile_append_of_pos hpos, List.dropWhile_append_of_pos hpos]
  simp

theorem takeWhile_last :
    l.takeWhile (· ≠ lineFeed) = l ∧ l.dropWhile (· ≠ lineFeed) = [] := by
  have hpos : ∀ c ∈ l, (decide (c ≠ lineFeed)) = true :=
    fun c hc => decide_eq_true fun h => hl (h ▸ hc)
  exact ⟨List.takeWhile_eq_self_iff.mpr hpos, List.dropWhile_eq_nil_iff.mpr hpos⟩

end Line

end SsuOs.Lib.CString
