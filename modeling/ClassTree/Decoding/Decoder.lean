/-
# ClassTree.Decoding.Decoder — reading bytes in order

A decoder reads from the front of a byte string and keeps count of the position, which every fault
reports. Reading never goes past the end: it fails there, with the number of bytes it wanted. Only
`skip` may move past the end, and then the next read fails.
-/
import ClassTree.Error

namespace ClassTree.Decoding

/-- A place in a byte string: how many bytes came before, and those that follow. -/
structure Cursor where
  position : Nat
  rest : Bytes

/-- The place some bytes further on, which may be past the end. -/
def Cursor.skip (c : Cursor) (count : Nat) : Cursor := ⟨c.position + count, c.rest.drop count⟩

/-- A reader of a value from bytes. -/
abbrev Decoder := StateT Cursor (Except Error)

namespace Decoder

variable {α β : Type}

/-- Fails at an offset. -/
def refuse (cause : Malformed) (offset : Nat) : Decoder α := throw (.malformed cause offset)

/-- The present offset. -/
def position : Decoder Nat := do return (← get).position

/-- Fails at the present offset. -/
def refuseHere (cause : Malformed) : Decoder α := do refuse cause (← position)

/-- Checks that so many bytes follow. -/
def need (count : Nat) : Decoder Unit := do
  let c ← get
  unless Bytes.hasAtLeast count c.rest do refuse (.unexpectedEnd count) c.position

/-- Moves on without reading. -/
def skip (count : Nat) : Decoder Unit := modify fun c => c.skip count

/-- Takes so many bytes. -/
def bytes (count : Nat) : Decoder Bytes := do
  need count
  let c ← get
  set (c.skip count)
  return c.rest.take count

/-- An unsigned number of a width in bytes. -/
def unsigned (width : Nat) : Decoder Nat := do return (← bytes width).toNat

/-- A two's complement number of a width in bytes. -/
def signed (width : Nat) : Decoder Int := do return (← bytes width).toInt

/-- A byte. -/
def byte : Decoder UInt8 := do return UInt8.ofNat (← unsigned 1)

/-- An unsigned number of one byte. -/
def u1 : Decoder Nat := unsigned 1

/-- An unsigned number of two bytes. -/
def u2 : Decoder Nat := unsigned 2

/-- An unsigned number of four bytes. -/
def u4 : Decoder Nat := unsigned 4

/-- Runs a decoder so many times, onto the reversed values `acc`. The first failure ends it. -/
def timesOnto : Nat → Decoder α → List α → Decoder (List α)
  | 0, _, acc => return acc.reverse
  | n + 1, d, acc => do
    let a ← d
    timesOnto n d (a :: acc)

/-- Runs a decoder so many times. -/
def times (n : Nat) (d : Decoder α) : Decoder (List α) := timesOnto n d []

/-- A two-byte count and then so many values. -/
def listOf (d : Decoder α) : Decoder (List α) := do times (← u2) d

/-- Reads elsewhere and comes back. -/
def elsewhere (c : Cursor) (d : Decoder α) : Decoder α := do
  let here ← get
  set c
  let a ← d
  set here
  return a

end Decoder

end ClassTree.Decoding
