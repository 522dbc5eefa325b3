/-
# ClassTree.Tree.Read — trees from text

The events of a document are put together with a stack of open nodes. A node is checked when it
ends, so of several faults the one in the node that ends first counts; faults of the text itself
come before all of these.
-/
import ClassTree.Text.Digits
import ClassTree.Tree.Event

namespace ClassTree.Tree

/-- A node under way, everything in reverse order. -/
structure OpenNode where
  attributes : List (Text × Text) := []
  text : Option Text := none
  children : List Node := []

/-- The names of the attributes that a node may have. -/
def attributeNames : List Text := ["base", "name", "line", "data"]

/-- The first attribute in order whose name is unknown or was given before. -/
def checkAttributes : List (Text × Text) → List Text → Result Unit
  | [], _ => .ok ()
  | (name, _) :: rest, given =>
    if name ∉ attributeNames then .error (.misformatted (.unknownAttribute name) none)
    else if name ∈ given then .error (.misformatted (.repeatedAttribute name) none)
    else checkAttributes rest (name :: given)

/-- The number of a line marker. Digits of any script count; some of them belong to no numeral. -/
def lineNumber (value : Text) : Result Int :=
  if Text.isNumeric value then
    match Text.toNat? value with
    | some n => .ok n
    | none => .error (.undefined .numeral)
  else .error (.misformatted (.lineMarker value) none)

/-- Ends a node. -/
def OpenNode.close (open_ : OpenNode) : Result Node := do
  let attributes := open_.attributes.reverse
  checkAttributes attributes []
  let value? (name : Text) : Option Text := (attributes.find? fun a => a.1 = name).map Prod.snd
  let line ← (value? "line").mapM lineNumber
  return { base := value? "base", name := value? "name", line, data := value? "data",
           text := open_.text, children := open_.children.reverse }

/-- The open nodes, the innermost first, and the last node that ended outside all of them. -/
structure Assembly where
  stack : List OpenNode := []
  root : Option Node := none

/-- Changes the innermost open node. -/
def Assembly.modifyTop (a : Assembly) (f : OpenNode → OpenNode) : Assembly :=
  match a.stack with
  | top :: rest => { a with stack := f top :: rest }
  | [] => a

/-- Takes an event. -/
def Assembly.step (a : Assembly) (event : Event) : Result Assembly :=
  match event with
  | .opening => .ok { a with stack := {} :: a.stack }
  | .attribute_ name value =>
    .ok (a.modifyTop fun top => { top with attributes := (name, value) :: top.attributes })
  | .text value => .ok (a.modifyTop fun top => { top with text := some value })
  | .closing =>
    match a.stack with
    | [] => .ok a
    | top :: rest => do
      let node ← top.close
      let outer : Assembly := { a with stack := rest }
      if rest.isEmpty then return { outer with root := some node }
      return outer.modifyTop fun parent => { parent with children := node :: parent.children }

/-- The root node of the events of a document. -/
def Node.ofEvents (events : List Event) : Result Node := do
  let a ← events.foldlM Assembly.step {}
  match a.root with
  | some node => return node
  | none => throw (.misformatted (.position 1 1) none)

/-- The tree of a text. -/
def Node.read (t : Text) : Result Node :=
  match scan t with
  | .ok events => Node.ofEvents events
  | .error p => .error (.misformatted (.position p.line p.column) none)

end ClassTree.Tree
