/-
# ClassTree.Number.Binary — binary floating point, by its bits

A class file holds single and double precision numbers, and both are kept here as their bits, so
that equality of numbers is equality of encodings and nothing depends on the arithmetic of the
machine. The bits are decoded into a sign and `m · 2 ^ q`; conversions round such a product to the
nearest value of the other format, a tie to the even neighbour.
-/
import ClassTree.Bytes

namespace ClassTree.Number

/-- A binary format: `precision` counts the bits of the significand, the implied one included, and
`exponentBits` those of the exponent. -/
structure Format where
  precision : Nat
  exponentBits : Nat

namespace Format

/-- Single precision. -/
def single : Format := ⟨24, 8⟩

/-- Double precision. -/
def double : Format := ⟨53, 11⟩

/-- The least exponent `q` of a value `m · 2 ^ q` with a full significand. -/
def leastExponent (f : Format) : Int := 3 - 2 ^ (f.exponentBits - 1) - f.precision

/-- The weight of the sign bit. -/
def signWeight (f : Format) : Nat := 2 ^ (f.precision - 1 + f.exponentBits)

/-- The bits of positive infinity; smaller ones are the finite magnitudes, in order of size. -/
def infinity (f : Format) : Nat := (2 ^ f.exponentBits - 1) * 2 ^ (f.precision - 1)

/-- The uppermost bit of a fraction, which marks a quiet not-a-number. -/
def quietBit (f : Format) : Nat := 2 ^ (f.precision - 2)

/-- The bits of a quiet not-a-number with this payload. -/
def quiet (f : Format) (payload : Nat) : Nat := f.infinity + f.quietBit + payload % f.quietBit

/-- How much larger the payload is in double precision than in single precision. -/
def payloadScale : Nat := 2 ^ (double.precision - single.precision)

end Format

/-- What the bits of a number say. -/
inductive Decoded where
  /-- The number `m · 2 ^ q`, or its negative. -/
  | finite (negative : Bool) (m : Nat) (q : Int)
  | infinite (negative : Bool)
  /-- Not a number; `payload` is the fraction field, which is not zero. -/
  | nan (negative : Bool) (payload : Nat)
  deriving DecidableEq, Repr

namespace Format

/-- Reads the bits of a number. A zero exponent field marks a significand without the implied bit,
a full one infinity or not a number. -/
def decode (f : Format) (bits : Nat) : Decoded :=
  let unit := 2 ^ (f.precision - 1)
  let negative := bits / f.signWeight % 2 = 1
  let exponent := bits / unit % 2 ^ f.exponentBits
  let fraction := bits % unit
  if exponent = 2 ^ f.exponentBits - 1 then
    if fraction = 0 then .infinite negative else .nan negative fraction
  else if exponent = 0 then .finite negative fraction f.leastExponent
  else .finite negative (unit + fraction) (f.leastExponent + (exponent - 1))

/-- `m / 2 ^ shift` to the nearest integer, a tie to the even one. -/
def roundShift (m shift : Nat) : Nat :=
  let quotient := m / 2 ^ shift
  let twice := 2 * (m % 2 ^ shift)
  if twice < 2 ^ shift || (twice = 2 ^ shift && quotient % 2 = 0) then quotient else quotient + 1

/-- The bits of the magnitude nearest to `m · 2 ^ q`, or none if that is beyond the largest finite
one. In these bits a carry out of the significand is a carry into the exponent, so that rounding up
to the next power of two needs no case of its own. -/
def round? (f : Format) (m : Nat) (q : Int) : Option Nat :=
  if m = 0 then some 0
  else
    let length := m.log2 + 1
    let exponent := max (q + length - f.precision) f.leastExponent
    let shift := exponent - q
    let significand :=
      if shift ≤ 0 then m * 2 ^ (-shift).toNat else roundShift m shift.toNat
    let bits := (exponent - f.leastExponent).toNat * 2 ^ (f.precision - 1) + significand
    if bits < f.infinity then some bits else none

/-- A magnitude with its sign. -/
def signed (f : Format) (negative : Bool) (magnitude : Nat) : Nat :=
  if negative then f.signWeight + magnitude else magnitude

end Format

/-- A single precision number. -/
structure Single where
  bits : UInt32
  deriving DecidableEq, Hashable, Repr

/-- A double precision number. -/
structure Double where
  bits : UInt64
  deriving DecidableEq, Hashable, Repr

namespace Single

/-- What the bits say. -/
def decode (x : Single) : Decoded := Format.single.decode x.bits.toNat

/-- The same number in double precision. A not-a-number keeps its sign and the bits of its payload
and becomes a quiet one. -/
def toDouble (x : Single) : Double :=
  let f := Format.double
  let bits := match x.decode with
    | .finite negative m q => f.signed negative ((f.round? m q).getD 0)
    | .infinite negative => f.signed negative f.infinity
    | .nan negative payload => f.signed negative (f.quiet (payload * Format.payloadScale))
  ⟨UInt64.ofNat bits⟩

end Single

namespace Double

/-- What the bits say. -/
def decode (x : Double) : Decoded := Format.double.decode x.bits.toNat

/-- The bits stand for no number. -/
def isNaN (x : Double) : Bool := match x.decode with
  | .nan _ _ => true
  | _ => false

/-- Positive or negative zero. -/
def isZero (x : Double) : Bool := match x.decode with
  | .finite _ m _ => m = 0
  | _ => false

/-- Equality of values: both zeros are equal, and not-a-number equals nothing. -/
def sameValue (x y : Double) : Bool :=
  !x.isNaN && !y.isNaN && (x = y || (x.isZero && y.isZero))

/-- The single precision number nearest to this one; none if it is finite and too large. A
not-a-number keeps its sign and the upper bits of its payload and becomes a quiet one. -/
def toSingle? (x : Double) : Option Single :=
  let f := Format.single
  let bits? := match x.decode with
    | .finite negative m q => (f.round? m q).map (f.signed negative)
    | .infinite negative => some (f.signed negative f.infinity)
    | .nan negative payload => some (f.signed negative (f.quiet (payload / Format.payloadScale)))
  bits?.map fun bits => ⟨UInt32.ofNat bits⟩

/-- The number nearest to an integer; none if that is too large. -/
def ofInt? (n : Int) : Option Double :=
  let f := Format.double
  (f.round? n.natAbs 0).map fun bits => ⟨UInt64.ofNat (f.signed (n < 0) bits)⟩

/-- The integer part; infinities and not-a-number have none. -/
def truncate? (x : Double) : Option Int := match x.decode with
  | .finite negative m q =>
    let magnitude : Nat := if 0 ≤ q then m * 2 ^ q.toNat else m / 2 ^ (-q).toNat
    some (if negative then -magnitude else magnitude)
  | _ => none

/-- The integer that the number is, if it is one. -/
def toInt? (x : Double) : Option Int := match x.decode with
  | .finite _ m q => if 0 ≤ q ∨ m % 2 ^ (-q).toNat = 0 then x.truncate? else none
  | _ => none

end Double

end ClassTree.Number
