import Mathlib

/-! The C type `int` on a 32-bit two's complement machine: wrap-around arithmetic and the
little-endian bytes in memory. -/
namespace SsuOs.Lib

abbrev intMin : ℤ := -2 ^ 31

abbrev intMax : ℤ := 2 ^ 31 - 1

/-- The value an `int` holds after an assignment of `x`. -/
def wrap32 (x : ℤ) : ℤ := (x + 2 ^ 31) % 2 ^ 32 - 2 ^ 31

def InInt (x : ℤ) : Prop := intMin ≤ x ∧ x ≤ intMax

instance (x : ℤ) : Decidable (InInt x) := inferInstanceAs (Decidable (_ ∧ _))

theorem wrap32_eq {x : ℤ} (h : InInt x) : wrap32 x = x := by
  obtain ⟨h₁, h₂⟩ := h
  unfold intMin at h₁
  unfold intMax at h₂
  unfold wrap32
  omega

theorem wrap32_add (x y : ℤ) : wrap32 (wrap32 x + y) = wrap32 (x + y) := by
  unfold wrap32
  omega

theorem inInt_wrap32 (x : ℤ) : InInt (wrap32 x) := by
  unfold InInt intMin intMax wrap32
  omega

/-- The bytes of an `int` in memory. -/
def encodeInt (x : ℤ) : List UInt8 :=
  let n := (x % 2 ^ 32).toNat
  [UInt8.ofNat n, UInt8.ofNat (n / 2 ^ 8), UInt8.ofNat (n / 2 ^ 16), UInt8.ofNat (n / 2 ^ 24)]

/-- The `int` that the first four bytes hold. -/
def decodeInt (l : List UInt8) : ℤ :=
  wrap32 ((l.getD 0 0).toNat + 2 ^ 8 * (l.getD 1 0).toNat + 2 ^ 16 * (l.getD 2 0).toNat +
    2 ^ 24 * (l.getD 3 0).toNat)

@[simp] theorem length_encodeInt (x : ℤ) : (encodeInt x).length = 4 := rfl

theorem decodeInt_encodeInt (x : ℤ) (l : List UInt8) :
    decodeInt (encodeInt x ++ l) = wrap32 x := by
  simp only [decodeInt, encodeInt, List.cons_append, List.nil_append, List.getD_cons_zero,
    List.getD_cons_succ, UInt8.toNat_ofNat']
  have h : ((x % 2 ^ 32).toNat : ℤ) = x % 2 ^ 32 := Int.toNat_of_nonneg (by omega)
  unfold wrap32
  omega

end SsuOs.Lib
