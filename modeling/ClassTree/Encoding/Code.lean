/-
# ClassTree.Encoding.Code — the code of a method being written

Before anything is written the labels of the method are checked: each is defined once, and each one
that is referred to is defined. Sizes that a method does not give are computed. A verified method
also gets frames if it has none; if it has some, they must cover the places behind far conditional
jumps, where control arrives in the written code only.
-/
import ClassTree.Encoding.Encoder
import ClassTree.Encoding.Operation
import ClassTree.Encoding.StackMap
import ClassTree.Flow.Frames
import ClassTree.Label.Registry

namespace ClassTree.Encoding

open Encoder

/-! ## Labels -/

/-- Labels that are referred to, with the places of the references. A payload of an uninitialized
type that is no label counts as one that nobody can define. -/
abbrev References := List (Option Label × Text)

/-- The label of an uninitialized type. -/
def siteOf (v : VerificationType) : Option Label :=
  match v.payload with
  | .site (.label l) => some l
  | _ => none

/-- What an item at a position refers to. -/
def itemReferences (place : Text) (item : Item) (position : Nat) : References :=
  match item with
  | .instruction i =>
    i.targets.map fun l =>
      (some l, Text.concat [place, " instruction ", Text.ofNat position])
  | .frame f =>
    ((f.locals ++ f.stack).filter fun v => v.tag = 8).map fun v =>
      (siteOf v, Text.concat [place, " frame ", Text.ofNat position])
  | _ => []

/-- What a method refers to: first its body, then its handlers, then its local variables. -/
def referencesOf (place : Text) (m : Method) : References :=
  let body := m.body.zipIdx.flatMap fun (item, position) => itemReferences place item position
  let handlers := m.handlers.flatMap fun h =>
    [h.start, h.stop, h.target].map fun l => (some l, place ++ " try-catch")
  let locals := m.localVariables.flatMap fun v =>
    [v.start, v.stop].map fun l => (some l, Text.concat [place, " local ", v.name])
  body ++ handlers ++ locals

/-- Checks the labels of a method. -/
def checkLabels (place : Text) (m : Method) : Result Unit := do
  let defined ← m.labels.foldlM Label.Registry.define { place }
  let references := referencesOf place m
  let labelled := references.takeWhile fun r => r.1.isSome
  let registry := labelled.foldl
    (fun (r : Label.Registry) (label?, at_) => match label? with
      | some l => r.reference l at_
      | none => r)
    defined
  registry.close
  unless labelled.length = references.length do throw (.undefined .kind)

/-! ## Sizes and frames -/

/-- The first major version whose classes have stack maps. -/
def stackMapMajor : Int := 50

/-- The frames of a body with their positions. -/
def ownFrames (body : List Item) : List (Nat × Frame) :=
  body.zipIdx.filterMap fun (item, position) => item.frame?.map fun f => (position, f)

/-- A frame stands among the markers directly before an instruction, at some positions of a body;
`marked` tells whether one stands there so far. -/
def checkLandings (place : Text) (positions : List Nat) (index : Nat) (marked : Bool) :
    List Item → Result Unit
  | [] => .ok ()
  | item :: rest =>
    match positions with
    | [] => .ok ()
    | position :: later =>
      if index = position then
        if marked then checkLandings place later (index + 1) false rest
        else .error (.unverified .missingFrame (some place) (some position))
      else
        let marked := item.frame?.isSome || (marked && item.isMarker)
        checkLandings place positions (index + 1) marked rest

/-- The sizes and the frames that the code is written with. -/
def verified (owner : Text) (verify stackMaps : Bool) (m : Method) (l : Layout) :
    Result (Maxima × List (Nat × Frame)) := do
  let own := ownFrames m.body
  let landings := l.landings m.body
  let place := Flow.Program.placeOf owner m
  if verify && stackMaps && own.isEmpty then
    let (computed, frames) ← Flow.computeFrames owner m (landings.map Int.ofNat)
    return (m.maxima.getD computed, frames)
  let sizes ← match m.maxima with
    | some given => do
      if verify then let _ ← Flow.computeMaxima owner m
      pure given
    | none => Flow.computeMaxima owner m
  if verify && stackMaps then checkLandings place landings 0 false m.body
  return (sizes, own)

/-! ## Tables -/

/-- An entry of the exception table. -/
def handler (l : Layout) (h : Handler) : Encoder Bytes := do
  let start ← l.resolve h.start
  let stop ← l.resolve h.stop
  let target ← l.resolve h.target
  let type ← match h.type with
    | some (c :: rest) => pooled (Pool.addClass (some (c :: rest)))
    | _ => pure 0
  return (← u2 start) ++ (← u2 stop) ++ (← u2 target) ++ (← u2 type)

/-- The line markers of a body with their offsets. -/
def linesOf (l : Layout) (body : List Item) : Array (Nat × Int) :=
  (body.zipIdx.filterMap fun (item, position) => match item with
    | .line n => some (l.offset position, n)
    | _ => none).toArray

/-- How line markers are shared out among tables: as the layout of the method says, if that names
each marker once, and in one table otherwise. -/
def lineTables (tables : List (List Int)) (count : Nat) : List (List Nat) :=
  let markers := List.range count
  if tables.flatten.mergeSort = markers.map Int.ofNat then
    tables.map fun table => table.map Int.toNat
  else if count = 0 then [] else [markers]

/-- A line number table. -/
def lineTable (entries : List (Nat × Int)) : Encoder Bytes :=
  listOf (fun (offset, line) => do return (← u2 offset) ++ (← u2 line)) entries

/-- An entry of one of the tables of local variables. -/
def localVariable (l : Layout) (v : LocalVariable) (type : Text) : Encoder Bytes := do
  let start ← l.resolve v.start
  let stop ← l.resolve v.stop
  let name ← pooled (Pool.addUtf8 v.name)
  let type ← pooled (Pool.addUtf8 type)
  return (← u2 start) ++ (← u2 ((stop : Int) - start)) ++ (← u2 name) ++ (← u2 type)
    ++ (← u2 v.slot)

/-- A table of those local variables that have a type of some sort. -/
def localVariablePiece (name : Text) (l : Layout) (typeOf : LocalVariable → Option Text)
    (locals : List LocalVariable) : List Piece :=
  let typed := locals.filterMap fun v => (typeOf v).map fun type => (v, type)
  pieceIf (!typed.isEmpty) name (listOf (fun (v, type) => localVariable l v type) typed)

/-- The attributes of the code. -/
def codePieces (m : Method) (l : Layout) (place : Text) (frames : List (Nat × Frame)) :
    List Piece :=
  let lines := linesOf l m.body
  let lineNumbers := (lineTables m.layout.lineTables lines.size).map fun table =>
    Piece.mk AttributeName.lineNumbers (lineTable (table.filterMap fun i => lines[i]?))
  lineNumbers
    ++ localVariablePiece AttributeName.localVariables l LocalVariable.descriptor m.localVariables
    ++ localVariablePiece AttributeName.localVariableTypes l LocalVariable.signature
      m.localVariables
    ++ pieceIf (!frames.isEmpty) AttributeName.stackMap (stackMap l place frames)
    ++ rawPieces m.codeAttributes

/-! ## The attribute -/

/-- The code of a method of a class. -/
def code (owner : Text) (verify stackMaps : Bool) (m : Method) : Encoder Bytes := do
  let place := Flow.Program.placeOf owner m
  checkLabels place m
  let l ← Layout.of m.body
  let (sizes, frames) ← verified owner verify stackMaps m l
  let bytes ← operations l place m.body
  if bytes.length > maxCodeLength then
    throw (.unverified (.codeLength bytes.length) (some place) none)
  let stack ← u2 sizes.stack
  let locals ← u2 sizes.locals
  let length ← u4 bytes.length
  let handlers ← listOf (handler l) m.handlers
  let attributes ← attributes (codePieces m l place frames) m.layout.codeOrder
  return stack ++ locals ++ length ++ bytes ++ handlers ++ attributes

end ClassTree.Encoding
