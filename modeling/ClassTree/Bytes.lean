/-
# ClassTree.Bytes — byte strings and big-endian fields

Every number of a class file is stored big-endian in a field of one, two, four or eight bytes,
either unsigned or in two's complement. This module writes such fields and reads them back. Writing
is partial: a number outside the range of its field has no bytes, which is what the option says.

A power with a natural exponent is the one that natural numbers and integers bring along. A larger
algebraic hierarchy in scope offers its own, equal power; the definitions of this library keep to
the plain one.
-/

namespace ClassTree

/-- Powers of natural numbers. -/
instance instPowNatNat : Pow Nat Nat := instPowNat

/-- Powers of integers. -/
instance instPowIntNat : Pow Int Nat := instPowNat

/-- A byte string. -/
abbrev Bytes := List UInt8

namespace Bytes

/-! ## Fields -/

/-- The `width` big-endian bytes of `n`, which is taken modulo `256 ^ width`. -/
def ofNat : Nat → Nat → Bytes
  | 0, _ => []
  | width + 1, n => ofNat width (n / 256) ++ [UInt8.ofNat n]

/-- The number whose big-endian bytes these are. -/
def toNat (bytes : Bytes) : Nat :=
  bytes.foldl (fun n b => n * 256 + b.toNat) 0

/-- The number whose two's complement bytes these are. -/
def toInt (bytes : Bytes) : Int :=
  Int.bmod bytes.toNat (256 ^ bytes.length)

/-- An unsigned field of `width` bytes; a number that does not fit has none. -/
def unsigned? (width : Nat) (n : Int) : Option Bytes :=
  if 0 ≤ n ∧ n < 256 ^ width then some (ofNat width n.toNat) else none

/-- A two's complement field of `width` bytes; a number that does not fit has none. -/
def signed? (width : Nat) (n : Int) : Option Bytes :=
  if -(256 ^ width / 2) ≤ n ∧ n < 256 ^ width / 2 then
    some (ofNat width (n % 256 ^ width).toNat)
  else none

/-- How many blanks follow the byte at an offset up to the next multiple of four. -/
def padding (offset : Nat) : Nat := (4 - (offset + 1) % 4) % 4

/-- There are at least `n` bytes. Looks at no more than `n` of them. -/
def hasAtLeast : Nat → Bytes → Bool
  | 0, _ => true
  | _ + 1, [] => false
  | n + 1, _ :: rest => hasAtLeast n rest

/-! ## Small laws -/

@[simp] theorem length_ofNat (width n : Nat) : (ofNat width n).length = width := by
  induction width generalizing n with
  | zero => rfl
  | succ width ih => simp [ofNat, ih]

theorem toNat_append_singleton (bytes : Bytes) (b : UInt8) :
    toNat (bytes ++ [b]) = bytes.toNat * 256 + b.toNat := by
  simp [toNat]

/-- Reading a field gives back the number written, modulo the size of the field. -/
theorem toNat_ofNat (width n : Nat) : toNat (ofNat width n) = n % 256 ^ width := by
  induction width generalizing n with
  | zero => simp [ofNat, toNat, Nat.mod_one]
  | succ width ih =>
    rw [ofNat, toNat_append_singleton, ih, Nat.pow_succ, Nat.mul_comm (256 ^ width) 256,
      Nat.mod_mul, UInt8.toNat_ofNat']
    omega

theorem hasAtLeast_iff {n : Nat} {bytes : Bytes} : hasAtLeast n bytes = true ↔ n ≤ bytes.length := by
  induction n generalizing bytes with
  | zero => simp [hasAtLeast]
  | succ n ih => cases bytes <;> simp [hasAtLeast, ih]

end Bytes

end ClassTree
