/-
# ClassTree.Encoding.Element — annotations being written

A value is the letter of its tag and an index, two indices, an annotation, or a list of values. The
visibility of an annotation decides which attribute lists it and is not written itself.
-/
import ClassTree.Encoding.Encoder
import ClassTree.Encoding.Constant

namespace ClassTree.Encoding

open Encoder

/-- The byte of a tag. A text that is no tag has one only if it is a single code point of a byte. -/
def tagByte (tag : ElementTag) : Encoder Bytes :=
  match tag.letter with
  | [c] => if c.val < 0x100 then return [UInt8.ofNat c.val] else throw (.undefined .kind)
  | _ => throw (.undefined .kind)

/-- Adds a scalar value. -/
def addScalar (tag : ElementTag) (v : Constant) : Encoder Nat :=
  match tag with
  | .byte | .char | .int | .short | .boolean => addInteger v
  | .long => addLong v
  | .float => addFloat v
  | .double => addDouble v
  | .text | .type | .unknown _ => addText v

mutual

/-- A value. -/
def element : ElementValue → Encoder Bytes
  | .scalar tag v => do
    let tag_ ← tagByte tag
    let i ← addScalar tag v
    return tag_ ++ (← u2 i)
  | .enum descriptor name => do
    let d ← pooled (Pool.addUtf8 descriptor)
    let n ← pooled (Pool.addUtf8 name)
    return 0x65 :: ((← u2 d) ++ (← u2 n))
  | .nested descriptor _ values => do
    let d ← index (Pool.addUtf8 descriptor)
    let count ← u2 values.length
    return 0x40 :: (d ++ count ++ (← named values []))
  | .array es => do
    let count ← u2 es.length
    return 0x5B :: (count ++ (← elements es []))

/-- Values, onto the reversed parts `acc`. -/
def elements (es : List ElementValue) (acc : List Bytes) : Encoder Bytes :=
  match es with
  | [] => return acc.reverse.flatten
  | v :: rest => do
    let part ← element v
    elements rest (part :: acc)

/-- Named values, onto the reversed parts `acc`. -/
def named (values : List (Text × ElementValue)) (acc : List Bytes) : Encoder Bytes :=
  match values with
  | [] => return acc.reverse.flatten
  | (name, v) :: rest => do
    let name ← index (Pool.addUtf8 name)
    let part ← element v
    named rest ((name ++ part) :: acc)

end

/-- An annotation. -/
def annotationUse (a : AnnotationUse) : Encoder Bytes := do
  let d ← index (Pool.addUtf8 a.descriptor)
  let count ← u2 a.values.length
  return d ++ count ++ (← named a.values [])

/-- The annotations of an attribute. -/
def annotationUses (as : List AnnotationUse) : Encoder Bytes := listOf annotationUse as

/-- The annotations of a visibility. -/
def ofVisibility (visible : Bool) (as : List AnnotationUse) : List AnnotationUse :=
  as.filter fun a => a.visible = visible

/-- The attributes that list the annotations of an entity. -/
def annotationPieces (as : List AnnotationUse) : List Piece :=
  [true, false].flatMap fun visible =>
    let selected := ofVisibility visible as
    pieceIf (!selected.isEmpty) (AttributeName.annotations visible) (annotationUses selected)

end ClassTree.Encoding
