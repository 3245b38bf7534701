/-
Numbers of different widths in one row of bits, the first one in the lowest bits.

A row of bits is a number.  Bytes in little-endian order are one with the digits to the base 256,
so a row can be filled up byte by byte and taken apart field by field.
-/
import Mathlib.Data.Nat.Digits.Defs
import Mathlib.Data.Nat.Size

namespace BitPacking

/-- Fields, each with its width, and behind them whatever else is there. -/
def pack (padding : Nat) : List (Nat × Nat) → Nat
  | [] => padding
  | (width, value) :: fields => value + 2 ^ width * pack padding fields

def totalWidth (fields : List (Nat × Nat)) : Nat := (fields.map Prod.fst).sum

/-- The bytes hold the fields in their lowest bits. -/
def Packs (fields : List (Nat × Nat)) (bytes : List UInt8) : Prop :=
  totalWidth fields ≤ 8 * bytes.length ∧ ∃ padding, Nat.ofDigits 256 (bytes.map UInt8.toNat) = pack padding fields

theorem totalWidth_cons (width value : Nat) (fields : List (Nat × Nat)) :
    totalWidth ((width, value) :: fields) = width + totalWidth fields := by
  simp [totalWidth]

variable {w k a : Nat}

theorem and_mask {c : Nat} (h : c < 2 ^ w) (v : Nat) : (c + 2 ^ w * v) &&& (2 ^ w - 1) = c := by
  rw [Nat.and_two_pow_sub_one_eq_mod, Nat.add_mul_mod_self_left, Nat.mod_eq_of_lt h]

theorem or_shiftLeft (h : a < 2 ^ k) (b : Nat) : a ||| b <<< k = a + 2 ^ k * b := by
  rw [Nat.or_comm, ← Nat.shiftLeft_add_eq_or_of_lt h, Nat.shiftLeft_eq, Nat.mul_comm, Nat.add_comm]

/-- A byte above the bits that are there. -/
theorem append_byte_lt {b : Nat} (ha : a < 2 ^ k) (hb : b < 256) : a + 2 ^ k * b < 2 ^ (k + 8) := by
  calc a + 2 ^ k * b < 2 ^ k + 2 ^ k * b := by omega
    _ = 2 ^ k * (b + 1) := by ring
    _ ≤ 2 ^ k * 256 := Nat.mul_le_mul_left _ (by omega)
    _ = 2 ^ (k + 8) := by rw [pow_add]; rfl

theorem append_byte (k a b rest : Nat) : a + 2 ^ k * (b + 256 * rest) = a + 2 ^ k * b + 2 ^ (k + 8) * rest := by
  ring

/-- The bits above a field are the quotient. -/
theorem div_lt_of_lt (h : a < 2 ^ k) (hw : w ≤ k) : a / 2 ^ w < 2 ^ (k - w) := by
  rw [Nat.div_lt_iff_lt_mul (Nat.two_pow_pos w), ← pow_add, Nat.sub_add_cancel hw]
  exact h

end BitPacking
