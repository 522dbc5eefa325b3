/-
# ClassTree.Decoding.Member — fields and methods being read

A member is its access flags, its name and its descriptor, followed by attributes. Each attribute
adds to the member; of a repeated attribute that holds a single value the last one counts, and
annotations accumulate.

The attributes about parameters may cover fewer parameters than the descriptor has. Annotations
then belong to the last ones, since the leading parameters are those that a compiler adds; names and
flags belong to the first ones. How many are covered is kept only where the parameters themselves do
not tell.
-/
import ClassTree.Decoding.Code
import ClassTree.Decoding.Element
import ClassTree.Descriptor

namespace ClassTree.Decoding

open Decoder

/-! ## Fields -/

/-- Reads an attribute of a field. -/
def readFieldAttribute (t : Table) (name : Text) (length : Nat) (f : Field) : Decoder Field := do
  let f := { f with attributeOrder := f.attributeOrder ++ [name] }
  if name = AttributeName.constantValue then
    return { f with value := some (← t.constant (← u2)).2 }
  else if name = AttributeName.signature then
    return { f with signature := some (← t.utf8 (← u2)) }
  else if name = AttributeName.annotations true then
    return { f with annotations := f.annotations ++ (← readAnnotationUses t true) }
  else if name = AttributeName.annotations false then
    return { f with annotations := f.annotations ++ (← readAnnotationUses t false) }
  else
    return { f with attributes := f.attributes ++ [⟨name, ← bytes length⟩] }

/-- A field. -/
def readField (t : Table) : Decoder Field := do
  let access ← u2
  let name ← t.utf8 (← u2)
  let descriptor ← t.utf8 (← u2)
  attributes t (readFieldAttribute t) { access, name, descriptor }

/-! ## Parameters -/

/-- How many parameters the attribute `name` covers. -/
def readParameterCount (name : Text) (arity : Nat) : Decoder Nat := do
  let start ← position
  let count ← u1
  if count > arity then refuse (.parameterCount name count arity) start
  return count

/-- Reads on for each of some parameters, onto the reversed parameters `acc`. -/
def readParametersOnto (read : Parameter → Decoder Parameter) :
    List Parameter → List Parameter → Decoder (List Parameter)
  | [], acc => return acc.reverse
  | p :: rest, acc => do
    let p ← read p
    readParametersOnto read rest (p :: acc)

/-- The parameter has an annotation of a visibility. -/
def isAnnotated (visible : Bool) (p : Parameter) : Bool :=
  p.annotations.any fun a => a.visible = visible

/-- The parameter has a name or flags. -/
def isNamed (p : Parameter) : Bool := p.name.isSome || p.access ≠ 0

/-- Reads annotations for the last parameters. -/
def readParameterAnnotations (t : Table) (visible : Bool) (m : Method) : Decoder Method := do
  let arity := m.parameters.length
  let count ← readParameterCount (AttributeName.parameterAnnotations visible) arity
  let leading := m.parameters.take (arity - count)
  let annotated ← readParametersOnto
    (fun p => do
      return { p with annotations := p.annotations ++ (← readAnnotationUses t visible) })
    (m.parameters.drop (arity - count)) []
  let m := { m with parameters := leading ++ annotated }
  if count = arity ∧ m.parameters.any (isAnnotated visible) then return m
  else if visible then return { m with visibleCount := some count }
  else return { m with invisibleCount := some count }

/-- Reads names and flags for the first parameters. -/
def readMethodParameters (t : Table) (m : Method) : Decoder Method := do
  let arity := m.parameters.length
  let count ← readParameterCount AttributeName.methodParameters arity
  let named ← readParametersOnto
    (fun p => do
      let name ← t.utf8? (← u2)
      return { p with name, access := ← u2 })
    (m.parameters.take count) []
  let m := { m with parameters := named ++ m.parameters.drop count }
  if count = arity ∧ m.parameters.any isNamed then return m
  else return { m with parameterCount := some count }

/-! ## Methods -/

/-- Reads the code of a method. -/
def readMethodCode (t : Table) (m : Method) : Decoder Method := do
  let code ← readCode t { place := m.name ++ m.descriptor }
  return { m with
    maxima := some code.maxima, body := code.body, handlers := code.handlers,
    localVariables := code.localVariables, codeAttributes := code.attributes,
    layout := { m.layout with codeOrder := code.order, lineTables := code.lineTables } }

/-- Reads an attribute of a method. -/
def readMethodAttribute (t : Table) (name : Text) (length : Nat) (m : Method) :
    Decoder Method := do
  let m := { m with
    layout := { m.layout with attributeOrder := m.layout.attributeOrder ++ [name] } }
  if name = AttributeName.code then
    readMethodCode t m
  else if name = AttributeName.exceptions then
    return { m with exceptions := ← listOf do t.className (← u2) }
  else if name = AttributeName.signature then
    return { m with signature := some (← t.utf8 (← u2)) }
  else if name = AttributeName.annotations true then
    return { m with annotations := m.annotations ++ (← readAnnotationUses t true) }
  else if name = AttributeName.annotations false then
    return { m with annotations := m.annotations ++ (← readAnnotationUses t false) }
  else if name = AttributeName.parameterAnnotations true then
    readParameterAnnotations t true m
  else if name = AttributeName.parameterAnnotations false then
    readParameterAnnotations t false m
  else if name = AttributeName.annotationDefault then
    return { m with default := some (← readElement t true) }
  else if name = AttributeName.methodParameters then
    readMethodParameters t m
  else
    return { m with attributes := m.attributes ++ [⟨name, ← bytes length⟩] }

/-- The parameters that a descriptor lists. -/
def parametersOf (types : List Text) : List Parameter :=
  types.zipIdx.map fun (descriptor, index) => { index := index, descriptor }

/-- A method. -/
def readMethod (t : Table) : Decoder Method := do
  let access ← u2
  let name ← t.utf8 (← u2)
  let descriptor ← t.utf8 (← u2)
  match Descriptor.arguments descriptor with
  | .ok types =>
    attributes t (readMethodAttribute t)
      { access, name, descriptor, parameters := parametersOf types }
  | .error (.invalid _) | .error (.undefined .descriptorEnd) =>
    refuseHere (.methodDescriptor descriptor)
  | .error e => throw e

end ClassTree.Decoding
