/-
# ClassTree.Tree.OfBody — method bodies as trees

A body is a sequence of nodes, one for each item. A label is a leaf, every other item a node whose
children are its operands in a fixed order.
-/
import ClassTree.Tree.Part

namespace ClassTree.Tree

/-! ## Parts -/

/-- A structural node. -/
def entity (base : Text) (name : Option Text) (children : List Node) : Node :=
  { base := some base, name, children }

/-- A node that only groups others. -/
def group (name : Option Text) (children : List Node) : Node := entity "tuple" name children

/-- A leaf for an integer. -/
def intLeaf (n : Int) (name : Option Text) : Result Node := Node.leaf .int (.int n) name

/-- A leaf for a text. -/
def textLeaf (t : Text) (name : Option Text) : Result Node := Node.leaf .string (.text t) name

/-- A leaf for a text that has to be there. -/
def nameLeaf (t : Option Text) (name : Option Text) : Result Node :=
  match t with
  | some t => textLeaf t name
  | none => .error (.undefined .kind)

/-- A leaf for a label. -/
def labelLeaf (l : Label) (name : Option Text) : Result Node := Node.leaf .label (.label l) name

/-- A leaf for a truth value. -/
def boolLeaf (b : Bool) (name : Option Text) : Result Node := Node.leaf .bool (.bool b) name

/-- A leaf for what is there, and none for what is missing. -/
def optionLeaf {α : Type} (leaf : α → Option Text → Result Node) (value : Option α) (name : Text) :
    Result (List Node) :=
  match value with
  | some a => do return [← leaf a (some name)]
  | none => .ok []

/-! ## Operands -/

/-- A method handle. -/
def ofHandle (h : Handle) : Result Node := do
  return entity Literal.handleKind none
    [← intLeaf h.kind none, ← nameLeaf h.owner none, ← textLeaf h.name none,
      ← textLeaf h.descriptor none, ← boolLeaf h.interface none]

/-- A constant of a named kind. -/
def ofConstant (kind : Text) (value : Constant) : Result Node :=
  if kind = Literal.handleKind then
    match value with
    | .handle h => ofHandle h
    | _ => .error (.undefined .kind)
  else do
    return { base := some kind, data := some Node.leafMark,
             text := some (← Literal.encodeNamed kind value) }

/-- The operands of an instruction. -/
def ofOperands : Instruction Label → Result (List Node)
  | .plain _ => .ok []
  | .immediate _ n => do return [← intLeaf n none]
  | .variable _ slot => do return [← intLeaf slot none]
  | .increment slot amount => do return [← intLeaf slot none, ← intLeaf amount none]
  | .constant op value => do return [← ofConstant (Literal.loadedKind op value) value]
  | .type _ name =>
    match name with
    | some n => do return [← Node.leaf .reference (.reference n) none]
    | none => .error (.undefined .kind)
  | .field _ owner name descriptor => do
    return [← nameLeaf owner none, ← textLeaf name none, ← textLeaf descriptor none]
  | .method _ owner name descriptor interface => do
    return [← nameLeaf owner none, ← textLeaf name none, ← textLeaf descriptor none,
      ← boolLeaf interface none]
  | .callSite name descriptor bootstrap arguments => do
    let name ← textLeaf name none
    let descriptor ← textLeaf descriptor none
    let bootstrap ← ofHandle bootstrap
    let arguments ← arguments.mapM fun (kind, value) => ofConstant kind value
    return [name, descriptor, bootstrap, group (some "arguments") arguments]
  | .jump _ target => do return [← labelLeaf target none]
  | .tableSwitch low high otherwise targets => do
    let low ← intLeaf low none
    let high ← intLeaf high none
    let otherwise ← labelLeaf otherwise none
    let targets ← targets.mapM fun l => labelLeaf l none
    return [low, high, otherwise, group (some "labels") targets]
  | .lookupSwitch otherwise keys targets => do
    let otherwise ← labelLeaf otherwise none
    let keys ← keys.mapM fun k => intLeaf k none
    let targets ← targets.mapM fun l => labelLeaf l none
    return [otherwise, group (some "keys") keys, group (some "labels") targets]
  | .multiArray descriptor dimensions => do
    return [← nameLeaf descriptor none, ← intLeaf dimensions none]

/-! ## Frames -/

/-- The leaf under a verification type, which objects and uninitialized values have. A plain name
passes for a label. -/
def ofPayload (v : VerificationType) : Result (List Node) :=
  if v.tag = 7 then
    match v.payload with
    | .name n => do return [← textLeaf n none]
    | _ => .error (.undefined .kind)
  else if v.tag = 8 then
    match v.payload with
    | .site (.label l) => do return [← labelLeaf l none]
    | .name n => do return [← labelLeaf ⟨n⟩ none]
    | _ => .error (.undefined .kind)
  else .ok []

/-- A verification type. -/
def ofType (v : VerificationType) : Result Node := do
  let children ← ofPayload v
  return entity "vtype" (some (← typeName v.tag)) children

/-- A frame. -/
def ofFrame (f : Frame) : Result Node := do
  let locals ← f.locals.mapM ofType
  let stack ← f.stack.mapM ofType
  let chop ← if f.chop = 0 then pure [] else do pure [← intLeaf f.chop (some "chop")]
  return entity "frame" (some f.kind.name)
    ([group (some "locals") locals, group (some "stack") stack] ++ chop)

/-! ## Items -/

/-- An item of a body. -/
def ofItem : Item → Result Node
  | .label l => labelLeaf l none
  | .line n => do return entity "line-number" none [← intLeaf n none]
  | .frame f => ofFrame f
  | .instruction i => do return entity "opcode" (some (opcodeName i.opcode)) (← ofOperands i)

end ClassTree.Tree
