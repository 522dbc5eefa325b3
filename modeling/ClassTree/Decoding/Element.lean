/-
# ClassTree.Decoding.Element — annotations in class files

An annotation value is a tag and what the tag asks for: an index of a constant, two names, an
annotation, or a list of values. Annotations are not marked as visible or invisible themselves; the
attribute that lists them is.
-/
import ClassTree.Decoding.Table

namespace ClassTree.Decoding

open Decoder

/-- A name and a value each; `value` reads the value. -/
def readNamed (t : Table) (value : Decoder ElementValue) :
    Decoder (List (Text × ElementValue)) :=
  listOf do
    let name ← t.utf8 (← u2)
    return (name, ← value)

/-- A value. Values nest; each level takes at least the byte of its tag, so `fuel` levels with one
byte each are enough for any input of fewer bytes. -/
def readElementWith (t : Table) (visible : Bool) : Nat → Decoder ElementValue
  | 0 => refuseHere (.unexpectedEnd 1)
  | fuel + 1 => do
    let start ← position
    let code ← byte
    match ElementTag.ofLetter? [Fin.ofNat _ code.toNat] with
    | some .text => return .scalar .text (.text (← t.utf8 (← u2)))
    | some .type => return .scalar .type (.text (← t.utf8 (← u2)))
    | some tag => return .scalar tag (← t.constant (← u2)).2
    | none =>
      if code = 0x65 then
        let descriptor ← t.utf8 (← u2)
        return .enum descriptor (← t.utf8 (← u2))
      else if code = 0x40 then
        let descriptor ← t.utf8 (← u2)
        return .nested descriptor visible (← readNamed t (readElementWith t visible fuel))
      else if code = 0x5B then
        return .array (← listOf (readElementWith t visible fuel))
      else refuse (.elementTag code) start

/-- Levels of nesting that no value in the rest of the input exceeds. -/
def nesting : Decoder Nat := do return (← get).rest.length + 1

/-- A value that stands alone. -/
def readElement (t : Table) (visible : Bool) : Decoder ElementValue := do
  readElementWith t visible (← nesting)

/-- An annotation whose values nest no deeper than `fuel`. -/
def readAnnotationUse (t : Table) (visible : Bool) (fuel : Nat) : Decoder AnnotationUse := do
  let descriptor ← t.utf8 (← u2)
  return { descriptor, visible, values := ← readNamed t (readElementWith t visible fuel) }

/-- The annotations of an attribute. -/
def readAnnotationUses (t : Table) (visible : Bool) : Decoder (List AnnotationUse) := do
  listOf (readAnnotationUse t visible (← nesting))

end ClassTree.Decoding
