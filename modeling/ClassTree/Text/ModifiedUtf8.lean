/-
# ClassTree.Text.ModifiedUtf8 — the string form of class files

A class file stores a string as UTF-16 units, each unit in one to three bytes. The zero unit takes
two bytes, so that no byte of a string is zero, and a code point above `0xFFFF` takes three bytes
for each of its two surrogates. Decoding accepts longer spellings of small units too and joins a
high surrogate with a low one that follows it.
-/
import ClassTree.Bytes
import ClassTree.Text.Basic

namespace ClassTree.ModifiedUtf8

/-! ## Encoding -/

/-- The UTF-16 units of a code point. -/
def unitsOf (c : CodePoint) : List Nat :=
  if c.val < 0x10000 then [c.val]
  else [0xD800 + (c.val - 0x10000) / 0x400, 0xDC00 + (c.val - 0x10000) % 0x400]

/-- The bytes of a unit: one for `1 … 0x7F`, two for zero and up to `0x7FF`, otherwise three. -/
def encodeUnit (u : Nat) : Bytes :=
  if 0 < u ∧ u < 0x80 then [UInt8.ofNat u]
  else if u < 0x800 then [UInt8.ofNat (0xC0 + u / 0x40), UInt8.ofNat (0x80 + u % 0x40)]
  else
    [UInt8.ofNat (0xE0 + u / 0x1000), UInt8.ofNat (0x80 + u / 0x40 % 0x40),
      UInt8.ofNat (0x80 + u % 0x40)]

/-- The bytes of a text. -/
def encode (t : Text) : Bytes := (t.flatMap unitsOf).flatMap encodeUnit

/-! ## Decoding -/

/-- The byte that starts no unit, and its position. -/
structure Fault where
  byte : UInt8
  position : Nat
  deriving DecidableEq, Repr

/-- A byte `0x80 … 0xBF`. -/
def isTail (b : UInt8) : Bool := b.toNat / 0x40 = 2

/-- Reads units onto the reversed units `acc`; `position` counts the bytes read. A unit in one byte
is not zero; the lead byte of two is `110xxxxx`, of three `1110xxxx`. -/
def unitsFrom : Bytes → Nat → List Nat → Except Fault (List Nat)
  | [], _, acc => .ok acc.reverse
  | a :: rest, position, acc =>
    let n := a.toNat
    if 0 < n ∧ n < 0x80 then unitsFrom rest (position + 1) (n :: acc)
    else if n / 0x20 = 6 then
      match rest with
      | b :: rest =>
        if isTail b then
          unitsFrom rest (position + 2) ((n % 0x20 * 0x40 + b.toNat % 0x40) :: acc)
        else .error ⟨a, position⟩
      | [] => .error ⟨a, position⟩
    else if n / 0x10 = 14 then
      match rest with
      | b :: c :: rest =>
        if isTail b && isTail c then
          unitsFrom rest (position + 3)
            ((n % 0x10 * 0x1000 + b.toNat % 0x40 * 0x40 + c.toNat % 0x40) :: acc)
        else .error ⟨a, position⟩
      | _ => .error ⟨a, position⟩
    else .error ⟨a, position⟩

/-- A unit that opens a surrogate pair. -/
def isHigh (u : Nat) : Bool := 0xD800 ≤ u && u < 0xDC00

/-- A unit that closes a surrogate pair. -/
def isLow (u : Nat) : Bool := 0xDC00 ≤ u && u < 0xE000

/-- Joins surrogate pairs and keeps every other unit, onto the reversed text `acc`. -/
def joinFrom : List Nat → Text → Text
  | [], acc => acc.reverse
  | [u], acc => (Fin.ofNat _ u :: acc).reverse
  | u :: v :: rest, acc =>
    if isHigh u && isLow v then
      joinFrom rest (Fin.ofNat _ (0x10000 + (u - 0xD800) * 0x400 + (v - 0xDC00)) :: acc)
    else joinFrom (v :: rest) (Fin.ofNat _ u :: acc)

/-- The text of a string of a class file. -/
def decode (bytes : Bytes) : Except Fault Text :=
  (unitsFrom bytes 0 []).map fun units => joinFrom units []

end ClassTree.ModifiedUtf8
