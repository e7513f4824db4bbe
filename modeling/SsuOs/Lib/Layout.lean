import Mathlib.Data.List.OfFn
import SsuOs.Lib.CInt

/-! Memory layouts of C types: how a value lies in memory byte by byte. A layout carries the
proof that a valid value is read back as it was stored. -/
namespace SsuOs.Lib

structure Layout (α : Type) where
  size : ℕ
  encode : α → List UInt8
  /-- Reads the first `size` bytes. -/
  decode : List UInt8 → α
  Valid : α → Prop
  length_encode : ∀ a, (encode a).length = size
  decode_encode : ∀ a l, Valid a → decode (encode a ++ l) = a

namespace Layout

variable {α β : Type}

def char : Layout UInt8 where
  size := 1
  encode a := [a]
  decode l := l.headD 0
  Valid _ := True
  length_encode _ := rfl
  decode_encode _ _ _ := rfl

def int : Layout ℤ where
  size := 4
  encode := encodeInt
  decode := decodeInt
  Valid := InInt
  length_encode := length_encodeInt
  decode_encode x l h := by rw [decodeInt_encodeInt, wrap32_eq h]

theorem length_flatten_ofFn (c : Layout α) {n : ℕ} (f : Fin n → α) :
    (List.ofFn fun i => c.encode (f i)).flatten.length = n * c.size := by
  induction n with
  | zero => simp
  | succ n ih =>
    rw [List.ofFn_succ, List.flatten_cons, List.length_append, ih, c.length_encode, Nat.succ_mul,
      Nat.add_comm]

theorem drop_flatten_ofFn (c : Layout α) {n : ℕ} (f : Fin n → α) (l : List UInt8) (i : Fin n) :
    ∃ l', ((List.ofFn fun i => c.encode (f i)).flatten ++ l).drop (i * c.size) =
      c.encode (f i) ++ l' := by
  induction n with
  | zero => exact i.elim0
  | succ n ih =>
    rw [List.ofFn_succ, List.flatten_cons, List.append_assoc]
    cases i using Fin.cases with
    | zero => exact ⟨(List.ofFn fun i => c.encode (f i.succ)).flatten ++ l, by simp⟩
    | succ i =>
      obtain ⟨l', hl'⟩ := ih (fun j => f j.succ) i
      refine ⟨l', ?_⟩
      rw [← hl', Fin.val_succ, Nat.succ_mul, Nat.add_comm, ← List.drop_drop]
      congr 1
      rw [← c.length_encode (f 0), List.drop_left]

def array (n : ℕ) (c : Layout α) : Layout (Fin n → α) where
  size := n * c.size
  encode f := (List.ofFn fun i => c.encode (f i)).flatten
  decode l i := c.decode (l.drop (i * c.size))
  Valid f := ∀ i, c.Valid (f i)
  length_encode := c.length_flatten_ofFn
  decode_encode f l h := by
    funext i
    obtain ⟨l', hl'⟩ := c.drop_flatten_ofFn f l i
    rw [hl']
    exact c.decode_encode _ _ (h i)

def pair (c : Layout α) (d : Layout β) : Layout (α × β) where
  size := c.size + d.size
  encode p := c.encode p.1 ++ d.encode p.2
  decode l := (c.decode l, d.decode (l.drop c.size))
  Valid p := c.Valid p.1 ∧ d.Valid p.2
  length_encode p := by rw [List.length_append, c.length_encode, d.length_encode]
  decode_encode p l h := by
    have hdrop : (c.encode p.1 ++ (d.encode p.2 ++ l)).drop c.size = d.encode p.2 ++ l := by
      rw [← c.length_encode p.1, List.drop_left]
    rw [List.append_assoc, hdrop, c.decode_encode _ _ h.1, d.decode_encode _ _ h.2]

/-- A structure laid out as its fields are. -/
def struct (c : Layout α) (fields : β → α) (mk : α → β) (h : ∀ b, mk (fields b) = b) :
    Layout β where
  size := c.size
  encode b := c.encode (fields b)
  decode l := mk (c.decode l)
  Valid b := c.Valid (fields b)
  length_encode b := c.length_encode _
  decode_encode b l hb := by rw [c.decode_encode _ _ hb, h]

end Layout

end SsuOs.Lib
