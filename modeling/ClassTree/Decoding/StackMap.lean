/-
# ClassTree.Decoding.StackMap — stack map frames in class files

A stack map lists its frames in order of code offset, each offset as the distance from the one
before less one; the first is counted from an imaginary frame at offset minus one. The tag byte of a
frame holds its kind, and for the short kinds the distance too. In a raw frame an uninitialized type
carries a code offset.
-/
import ClassTree.Decoding.Table

namespace ClassTree.Decoding

open Decoder

/-- A frame with its code offset. -/
structure RawFrame where
  offset : Nat
  frame : Frame

/-- A verification type. -/
def readType (t : Table) : Decoder VerificationType := do
  let start ← position
  let tag ← byte
  match tag.toNat with
  | 0 => return .top
  | 1 => return .integer
  | 2 => return .float
  | 3 => return .double
  | 4 => return .long
  | 5 => return .null
  | 6 => return .uninitializedThis
  | 7 => return .object (← t.className (← u2))
  | 8 => return .uninitialized (.position (← u2))
  | _ => refuse (.verificationTag tag) start

/-- A frame and its distance: the offset is that of the frame before, plus the distance, plus one.
-/
def readFrame (t : Table) : Decoder (Nat × Frame) := do
  let start ← position
  let code ← byte
  let tag := code.toNat
  if tag < 64 then return (tag, ⟨.same, [], [], 0⟩)
  else if tag < 128 then return (tag - 64, ⟨.sameLocals1, [], [← readType t], 0⟩)
  else if tag < 247 then refuse (.reservedFrame code) start
  else
    let delta ← u2
    if tag = 247 then return (delta, ⟨.sameLocals1Extended, [], [← readType t], 0⟩)
    else if tag < 251 then return (delta, ⟨.chop, [], [], 251 - tag⟩)
    else if tag = 251 then return (delta, ⟨.sameExtended, [], [], 0⟩)
    else if tag < 255 then
      return (delta, ⟨.append, ← times (tag - 251) (readType t), [], 0⟩)
    else
      let locals ← listOf (readType t)
      return (delta, ⟨.full, locals, ← listOf (readType t), 0⟩)

/-- Gives each frame its offset, onto the reversed frames `acc`; `next` is the least offset that the
first one can have. -/
def placeFrames (next : Nat) : List (Nat × Frame) → List RawFrame → List RawFrame
  | [], acc => acc.reverse
  | (delta, frame) :: rest, acc => placeFrames (next + delta + 1) rest (⟨next + delta, frame⟩ :: acc)

/-- The frames of a stack map. -/
def readStackMap (t : Table) : Decoder (List RawFrame) := do
  return placeFrames 0 (← listOf (readFrame t)) []

end ClassTree.Decoding
