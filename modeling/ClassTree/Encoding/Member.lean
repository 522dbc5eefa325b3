/-
# ClassTree.Encoding.Member — fields and methods being written

A member is its access flags, the indices of its name and its descriptor, and its attributes. The
attributes about parameters cover all of them unless the method says how many; a parameter that they
leave out must not have what they would say.
-/
import ClassTree.Encoding.Code
import ClassTree.Encoding.Element

namespace ClassTree.Encoding

open Encoder

/-- The flags, the name and the descriptor of a member. -/
def memberHead (access : Int) (name descriptor : Text) : Encoder Bytes := do
  let name ← pooled (Pool.addUtf8 name)
  let descriptor ← pooled (Pool.addUtf8 descriptor)
  return (← u2 access) ++ (← u2 name) ++ (← u2 descriptor)

/-! ## Fields -/

/-- The attributes of a field. -/
def fieldPieces (f : Field) : List Piece :=
  pieceOf? AttributeName.constantValue
      (fun v => do u2 (← addFieldConstant f.descriptor v)) f.value
    ++ signaturePiece f.signature ++ annotationPieces f.annotations ++ rawPieces f.attributes

/-- A field. -/
def field (f : Field) : Encoder Bytes := do
  let head ← memberHead f.access f.name f.descriptor
  return head ++ (← attributes (fieldPieces f) f.attributeOrder)

/-! ## Parameters -/

/-- How many parameters an attribute covers: all of them, or as many as the method says. -/
def parameterCount (place : Text) (m : Method) (given : Option Int) : Result Int :=
  let arity := m.parameters.length
  match given with
  | none => .ok arity
  | some count =>
    if 0 ≤ count ∧ count ≤ min arity maxByte then .ok count
    else .error (.unverified (.parameterCount count arity) (some place) none)

/-- The count of covered parameters in a byte. -/
def countByte (count : Int) : Encoder Bytes := u1 count

/-- The parameter has an annotation of a visibility. -/
def isAnnotated (visible : Bool) (p : Parameter) : Bool := !(ofVisibility visible p.annotations).isEmpty

/-- The parameter has a name or flags. -/
def isNamed (p : Parameter) : Bool := p.name.isSome || p.access ≠ 0

/-- The annotations of the last parameters. -/
def parameterAnnotations (place : Text) (m : Method) (visible : Bool) (given : Option Int) :
    Encoder Bytes := do
  let count ← parameterCount place m given
  let skipped := m.parameters.length - count.toNat
  match (m.parameters.take skipped).find? (isAnnotated visible) with
  | some p => throw (.unverified (.annotatedParameter p.index count) (some place) none)
  | none =>
    let head ← countByte count
    return head ++ (← all (fun p => annotationUses (ofVisibility visible p.annotations))
      (m.parameters.drop skipped))

/-- The name and the flags of a parameter. -/
def parameter (p : Parameter) : Encoder Bytes := do
  let name ← match p.name with
    | some n => pooled (Pool.addUtf8 n)
    | none => pure 0
  return (← u2 name) ++ (← u2 p.access)

/-- The names and flags of the first parameters. -/
def methodParameters (place : Text) (m : Method) : Encoder Bytes := do
  let count ← parameterCount place m m.parameterCount
  match (m.parameters.drop count.toNat).find? isNamed with
  | some p => throw (.unverified (.namedParameter p.index count) (some place) none)
  | none =>
    let head ← countByte count
    return head ++ (← all parameter (m.parameters.take count.toNat))

/-- The annotations of parameters of a visibility, if there are any or if the method says how many
parameters they cover. -/
def parameterAnnotationPiece (place : Text) (m : Method) (visible : Bool) (given : Option Int) :
    List Piece :=
  pieceIf (given.isSome || m.parameters.any (isAnnotated visible))
    (AttributeName.parameterAnnotations visible) (parameterAnnotations place m visible given)

/-! ## Methods -/

/-- The attributes of a method of a class. -/
def methodPieces (owner : Text) (verify stackMaps : Bool) (m : Method) : List Piece :=
  let place := Flow.Program.placeOf owner m
  pieceIf m.hasCode AttributeName.code (code owner verify stackMaps m)
    ++ pieceIf (!m.exceptions.isEmpty) AttributeName.exceptions
      (listOf (fun e => index (Pool.addClass e)) m.exceptions)
    ++ signaturePiece m.signature ++ annotationPieces m.annotations
    ++ parameterAnnotationPiece place m true m.visibleCount
    ++ parameterAnnotationPiece place m false m.invisibleCount
    ++ pieceOf? AttributeName.annotationDefault element m.default
    ++ pieceIf (m.parameterCount.isSome || m.parameters.any isNamed)
      AttributeName.methodParameters (methodParameters place m)
    ++ rawPieces m.attributes

/-- A method of a class. -/
def method (owner : Text) (verify stackMaps : Bool) (m : Method) : Encoder Bytes := do
  let head ← memberHead m.access m.name m.descriptor
  return head
    ++ (← attributes (methodPieces owner verify stackMaps m) m.layout.attributeOrder)

end ClassTree.Encoding
