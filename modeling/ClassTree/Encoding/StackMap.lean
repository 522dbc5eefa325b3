/-
# ClassTree.Encoding.StackMap — stack map frames being written

Frames are written with the distance to the frame before, less one. A frame of one of the two short
kinds turns into its extended kind when the distance does not fit into the tag.
-/
import ClassTree.Encoding.Layout

namespace ClassTree.Encoding

open Encoder

/-- The index of the class of an object. What is no name takes an entry too, but one without bytes.
-/
def objectIndex : Payload → Encoder Bytes
  | .name n => index (Pool.addClass (some n))
  | .none => index (Pool.addClass none)
  | .site (.label l) => index do Pool.add (.type (← Pool.add (.irregular 1 [.label l])))
  | .site (.position p) => index do Pool.add (.type (← Pool.add (.irregular 1 [.int p])))

/-- A verification type. An uninitialized value names its `new` by the offset. -/
def verificationType (l : Layout) (v : VerificationType) : Encoder Bytes := do
  let tag ← u1 v.tag
  if v.tag = 7 then return tag ++ (← objectIndex v.payload)
  else if v.tag = 8 then
    match v.payload with
    | .site (.position p) => return tag ++ (← u2 (l.offset p))
    | .site (.label label) => return tag ++ (← u2 (← l.resolve label))
    | _ => throw (.undefined .kind)
  else return tag

/-- The one stack item of a frame. -/
def stackItem (l : Layout) (f : Frame) : Encoder Bytes :=
  match f.stack with
  | v :: _ => verificationType l v
  | [] => throw (.undefined .stackItem)

/-- The greatest distance that fits into a tag. -/
def maxShortDistance : Nat := 63

/-- A frame at a distance from the one before. -/
def frame (l : Layout) (place : Text) (position distance : Nat) (f : Frame) : Encoder Bytes := do
  let tagged (tag : Int) : Encoder Bytes := do return (← u1 tag) ++ (← u2 distance)
  let short := distance ≤ maxShortDistance
  match f.kind with
  | .same => if short then u1 distance else tagged 251
  | .sameExtended => tagged 251
  | .sameLocals1 =>
    let head ← if short then u1 (64 + distance : Nat) else tagged 247
    return head ++ (← stackItem l f)
  | .sameLocals1Extended => return (← tagged 247) ++ (← stackItem l f)
  | .chop => tagged (251 - f.chop)
  | .append => return (← tagged (251 + f.locals.length : Nat)) ++ (← all (verificationType l) f.locals)
  | .full =>
    let head ← tagged 255
    let locals ← listOf (verificationType l) f.locals
    return head ++ locals ++ (← listOf (verificationType l) f.stack)
  | .unknown name => throw (.unverified (.frameKind name) (some place) (some position))

/-- Frames with their positions in the body, onto the reversed parts `acc`; `next` is the least
offset that the first one may have. -/
def framesFrom (l : Layout) (place : Text) (next : Nat) :
    List (Nat × Frame) → List Bytes → Encoder Bytes
  | [], acc => return acc.reverse.flatten
  | (position, f) :: rest, acc => do
    let offset := l.offset position
    if offset < next then
      throw (.unverified (.frameOrder offset) (some place) (some position))
    let part ← frame l place position (offset - next) f
    framesFrom l place (offset + 1) rest (part :: acc)

/-- The stack map of a body. -/
def stackMap (l : Layout) (place : Text) (frames : List (Nat × Frame)) : Encoder Bytes := do
  let count ← u2 frames.length
  return count ++ (← framesFrom l place 0 frames [])

end ClassTree.Encoding
