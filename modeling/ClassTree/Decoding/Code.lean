/-
# ClassTree.Decoding.Code — the code of a method being read

The code attribute holds the instructions and, around them, tables that refer to code offsets:
exception handlers, line numbers, local variables and the stack map. Reading turns every offset into
a label and weaves the tables into the list of instructions as markers. Labels are issued in a fixed
order — handlers, instructions, variables, frames — so that equal code gets equal labels.
-/
import ClassTree.Decoding.Attributes
import ClassTree.Decoding.Operation
import ClassTree.Decoding.StackMap
import ClassTree.Label.Registry

namespace ClassTree.Decoding

open Decoder

/-! ## Tables -/

/-- A line number table entry: the line of the code from an offset on. -/
structure RawLine where
  offset : Nat
  line : Nat

/-- A local variable table entry; `descriptor` may be that of the type table. -/
structure RawVariable where
  start : Nat
  length : Nat
  name : Text
  descriptor : Text
  slot : Nat

/-- An exception handler. -/
structure RawHandler where
  start : Nat
  stop : Nat
  target : Nat
  type : Option Text

/-- Everything that the code attribute holds besides its instructions. -/
structure CodeTables where
  /-- The entries of each line number table. -/
  lines : List (List RawLine) := []
  /-- The variables with their descriptors. -/
  described : List RawVariable := []
  /-- Generic signatures, at most one for each variable, in order of first mention. -/
  signatures : List RawVariable := []
  frames : List RawFrame := []
  attributes : List Attribute := []
  /-- The names of all attributes. -/
  order : List Text := []

/-- An entry of the exception table. -/
def readHandler (t : Table) : Decoder RawHandler := do
  let start ← u2
  let stop ← u2
  let target ← u2
  return { start, stop, target, type := ← t.className (← u2) }

/-- An entry of a line number table. -/
def readLine : Decoder RawLine := do
  let offset ← u2
  return { offset, line := ← u2 }

/-- An entry of a table of local variables. -/
def readVariable (t : Table) : Decoder RawVariable := do
  let start ← u2
  let length ← u2
  let nameIndex ← u2
  let descriptorIndex ← u2
  let slot ← u2
  let name ← t.utf8 nameIndex
  return { start, length, name, descriptor := ← t.utf8 descriptorIndex, slot }

/-- Two entries are about the same variable. -/
def RawVariable.sameVariable (v w : RawVariable) : Bool :=
  v.start = w.start && v.length = w.length && v.slot = w.slot && v.name = w.name

/-- Puts a signature in the place of an earlier one for the same variable, or at the end. -/
def putSignature (signatures : List RawVariable) (v : RawVariable) : List RawVariable :=
  if signatures.any v.sameVariable then
    signatures.map fun w => if v.sameVariable w then v else w
  else signatures ++ [v]

/-- Reads an attribute of the code. -/
def readCodeAttribute (t : Table) (name : Text) (length : Nat) (tables : CodeTables) :
    Decoder CodeTables := do
  let tables := { tables with order := tables.order ++ [name] }
  if name = AttributeName.lineNumbers then
    return { tables with lines := tables.lines ++ [← listOf readLine] }
  else if name = AttributeName.localVariables then
    return { tables with described := tables.described ++ (← listOf (readVariable t)) }
  else if name = AttributeName.localVariableTypes then
    return { tables with
      signatures := (← listOf (readVariable t)).foldl putSignature tables.signatures }
  else if name = AttributeName.stackMap then
    return { tables with frames := ← readStackMap t }
  else
    return { tables with attributes := tables.attributes ++ [⟨name, ← bytes length⟩] }

/-! ## Labels -/

/-- The label of an offset, in the registry. -/
def labelAt (offset : Int) : StateM Label.Registry Label := modifyGet fun r => r.atOffset offset

/-- Labels the offsets of a handler. -/
def labelHandler (h : RawHandler) : StateM Label.Registry Handler := do
  let start ← labelAt h.start
  let stop ← labelAt h.stop
  let target ← labelAt h.target
  return { start, stop, target, type := h.type }

/-- Labels the range of a variable. -/
def labelVariable (v : RawVariable) (descriptor signature : Option Text) :
    StateM Label.Registry LocalVariable := do
  let start ← labelAt v.start
  let stop ← labelAt (v.start + v.length : Nat)
  return { name := v.name, descriptor, start, stop, slot := v.slot, signature }

/-- Splits off the signature of a variable. -/
def takeSignature (signatures : List RawVariable) (v : RawVariable) :
    Option Text × List RawVariable :=
  match signatures.find? v.sameVariable with
  | some w => (some w.descriptor, signatures.filter fun w => !v.sameVariable w)
  | none => (none, signatures)

/-- Joins variables with their signatures, onto the reversed variables `acc`. A signature is used
up by the first variable that it is about; those left over become variables of their own. -/
def labelVariables : List RawVariable → List RawVariable → List LocalVariable →
    StateM Label.Registry (List LocalVariable)
  | [], signatures, acc => do
    let rest ← signatures.mapM fun v => labelVariable v none (some v.descriptor)
    return acc.reverse ++ rest
  | v :: described, signatures, acc => do
    let (signature, signatures) := takeSignature signatures v
    let labelled ← labelVariable v (some v.descriptor) signature
    labelVariables described signatures (labelled :: acc)

/-- Labels the offset of an uninitialized type. -/
def labelType : VerificationType → StateM Label.Registry VerificationType
  | .uninitialized (.position offset) => do return .uninitialized (.label (← labelAt offset))
  | v => return v

/-- Labels a frame. -/
def labelFrame (f : Frame) : StateM Label.Registry Frame := do
  let locals ← f.locals.mapM labelType
  let stack ← f.stack.mapM labelType
  return { f with locals, stack }

/-! ## Markers -/

/-- Values by code offset; those of one offset in the order in which they came, reversed. -/
abbrev ByOffset (α : Type) := Std.HashMap Int (List α)

/-- Adds a value at an offset. -/
def ByOffset.push {α : Type} (m : ByOffset α) (offset : Int) (a : α) : ByOffset α :=
  m.insert offset (a :: m.getD offset [])

/-- The values at an offset in the order in which they came. -/
def ByOffset.at_ {α : Type} (m : ByOffset α) (offset : Int) : List α := (m.getD offset []).reverse

/-- What stands before the instructions, by code offset. -/
structure Markers where
  labels : ByOffset Label := {}
  /-- Line entries by their place among all entries. -/
  lines : ByOffset (Nat × Nat) := {}
  frames : ByOffset Frame := {}

/-- The items of a body under way: the items, reversed, and how the line markers were numbered. -/
structure Weaving where
  items : List Item := []
  markers : Nat := 0
  /-- The marker of each line entry. -/
  markerOf : Std.HashMap Nat Nat := {}

namespace Weaving

/-- Adds the marker of a line entry. -/
def line (w : Weaving) (entry : Nat × Nat) : Weaving :=
  { items := .line entry.2 :: w.items, markers := w.markers + 1,
    markerOf := w.markerOf.insert entry.1 w.markers }

/-- Adds the markers of an offset — labels, lines, frame — and then the instruction there, which the
end of the code does not have. -/
def offset (m : Markers) (w : Weaving) (place : Int) (instruction : Option (Instruction Label)) :
    Weaving :=
  let w := { w with items := ((m.labels.at_ place).map Item.label).reverseAux w.items }
  let w := (m.lines.at_ place).foldl line w
  let w := { w with items := ((m.frames.at_ place).map Item.frame).reverseAux w.items }
  match instruction with
  | some i => { w with items := .instruction i :: w.items }
  | none => w

end Weaving

/-! ## The attribute -/

/-- A code attribute as it stands in the file, with code offsets in the place of labels. -/
structure RawCode where
  maxima : Maxima
  /-- The offset of the code in the file. -/
  start : Nat
  /-- The length of the code. -/
  length : Nat
  handlers : List RawHandler
  /-- The instructions with their offsets. -/
  instructions : List (Nat × Instruction Int)
  tables : CodeTables

/-- Reads a code attribute. The instructions stand ahead of the tables but are read behind them. -/
def readRawCode (t : Table) : Decoder RawCode := do
  let maxStack ← u2
  let maxLocals ← u2
  let length ← u4
  let code ← get
  need length
  skip length
  let handlers ← listOf (readHandler t)
  let tables ← attributes t (readCodeAttribute t) {}
  let instructions ← elsewhere code (readOperations t length)
  return { maxima := ⟨maxStack, maxLocals⟩, start := code.position, length, handlers, instructions,
           tables }

/-- What refers to code offsets, with labels in their place. -/
structure LabelledCode where
  handlers : List Handler
  instructions : List (Instruction Label)
  localVariables : List LocalVariable
  /-- The frames with their offsets. -/
  frames : List (Nat × Frame)

/-- What a code attribute adds to its method. -/
structure Code where
  maxima : Maxima
  body : List Item
  handlers : List Handler
  localVariables : List LocalVariable
  attributes : List Attribute
  order : List Text
  lineTables : List (List Int)

/-- Numbers the entries of all line tables through. -/
def numberLines (tables : List (List RawLine)) : List (List (Nat × RawLine)) :=
  (tables.foldl (fun (next, acc) table =>
    (next + table.length, (table.zipIdx next).map Prod.swap :: acc)) (0, [])).2.reverse

namespace RawCode

/-- Labels a code attribute: handlers, instructions, variables, frames. -/
def label (r : RawCode) : StateM Label.Registry LabelledCode := do
  let handlers ← r.handlers.mapM labelHandler
  let instructions ← r.instructions.mapM fun (p : Nat × Instruction Int) => p.2.mapTargets labelAt
  let localVariables ← labelVariables r.tables.described r.tables.signatures []
  let frames ← r.tables.frames.mapM fun (f : RawFrame) => do return (f.offset, ← labelFrame f.frame)
  return { handlers, instructions, localVariables, frames }

/-- The offsets of the instructions. -/
def offsets (r : RawCode) : Std.HashSet Int := r.instructions.foldl (fun s p => s.insert p.1) {}

/-- The entries of the line tables with their numbers. -/
def lines (r : RawCode) : List (List (Nat × RawLine)) := numberLines r.tables.lines

/-- Refuses what is not at an instruction. Only a label may be at the end of the code too. -/
def check (r : RawCode) (seen : List (Int × Label)) : Decoder Unit := do
  let inside := r.offsets
  let boundary := inside.insert r.length
  r.tables.frames.forM fun (f : RawFrame) => do
    unless inside.contains f.offset do refuse (.frameOffset f.offset) (r.start + f.offset)
  seen.forM fun (p : Int × Label) => do
    unless boundary.contains p.1 do refuse (.targetInside p.1) (r.start + p.1.toNat)
  r.lines.forM fun (table : List (Nat × RawLine)) => table.forM fun (p : Nat × RawLine) => do
    unless inside.contains p.2.offset do
      refuse (.lineOffset p.2.offset) (r.start + p.2.offset)

/-- What stands before the instructions. -/
def markers (r : RawCode) (seen : List (Int × Label)) (frames : List (Nat × Frame)) : Markers where
  labels := seen.foldl (fun m p => ByOffset.push m p.1 p.2) {}
  lines := r.lines.flatten.foldl (fun m p => ByOffset.push m p.2.offset (p.1, p.2.line)) {}
  frames := frames.foldl (fun m p => ByOffset.push m p.1 p.2) {}

/-- Weaves the markers into the instructions. -/
def weave (r : RawCode) (m : Markers) (instructions : List (Instruction Label)) : Weaving :=
  let woven := (r.instructions.zip instructions).foldl
    (fun w p => w.offset m p.1.1 (some p.2)) ({} : Weaving)
  woven.offset m r.length none

/-- The markers of the entries of the line tables. -/
def lineTables (r : RawCode) (woven : Weaving) : Decoder (List (List Int)) :=
  r.lines.mapM fun (table : List (Nat × RawLine)) => table.mapM fun (p : Nat × RawLine) =>
    match woven.markerOf[p.1]? with
    | some (marker : Nat) => return (marker : Int)
    | none => throw (.undefined .index)

/-- The code of a code attribute with the registry `registry` for its labels. -/
def assemble (r : RawCode) (registry : Label.Registry) : Decoder Code := do
  let (labelled, registry) := r.label.run registry
  let seen := registry.seen.toList
  r.check seen
  let woven := r.weave (r.markers seen labelled.frames) labelled.instructions
  return {
    maxima := r.maxima
    body := woven.items.reverse
    handlers := labelled.handlers
    localVariables := labelled.localVariables
    attributes := r.tables.attributes
    order := r.tables.order
    lineTables := ← r.lineTables woven }

end RawCode

/-- The code of a method with the registry `registry` for its labels. -/
def readCode (t : Table) (registry : Label.Registry) : Decoder Code := do
  (← readRawCode t).assemble registry

end ClassTree.Decoding
