/-
# ClassTree.Tree.ToBody — method bodies from trees

Each child of the sequence node is an item of the body. Labels are resolved by name in the registry
of the method: a leaf in the sequence defines one, a leaf among operands refers to one. An
instruction is known by the number in its name; the mnemonic before it is for the reader.
-/
import ClassTree.Label.Registry
import ClassTree.Tree.Part

namespace ClassTree.Tree

/-- Reading with the labels of a method. -/
abbrev Labelled := StateT Label.Registry (Except Error)

/-- Where an item stands: its path in the tree, and its place in the class. Faults of a leaf and of
the form of a node name the path, missing parts and labels the place. -/
structure Location where
  path : Text
  place : Text

variable (at_ : Location)

/-- A fault in the form of a node. -/
def Location.refuse {α : Type} (cause : Misformatted) : Result α :=
  .error (.misformatted cause (some at_.path))

/-! ## Labels -/

/-- The label of a name. -/
def resolve (l : Label) : Labelled Label := modifyGet fun r => r.resolve l.name

/-- A reference to the label that a leaf names. -/
def readReference (n : Node) : Labelled Label := do
  let l ← resolve (← labelOf at_.path n)
  modify fun r => r.reference l at_.place
  return l

/-- The definition of the label that a leaf names. -/
def readDefinition (n : Node) : Labelled Label := do
  let l ← resolve (← labelOf at_.path n)
  set (← (← get).define l)
  return l

/-! ## Operands -/

/-- A method handle. -/
def readHandle (n : Node) : Result Handle := do
  unless n.base = some Literal.handleKind do at_.refuse (.expectedHandle n.base)
  let part (i : Nat) : Result Node := n.operand i (at_.place ++ " handle")
  let kind ← intOf at_.path (← part 0)
  let owner ← textOf at_.path (← part 1)
  let name ← textOf at_.path (← part 2)
  let descriptor ← textOf at_.path (← part 3)
  let interface ← boolOf at_.path (← part 4)
  return { kind, owner := some owner, name, descriptor, interface }

/-- A constant of one of some kinds, or a method handle. -/
def readLoaded (kinds : List Literal.Kind) (n : Node) : Result Constant :=
  if n.base = some Literal.handleKind then do return .handle (← readHandle at_ n)
  else constantOf at_.path kinds n

/-- The kinds of constants that an instruction may load. -/
def loadable (op : Opcode) : List Literal.Kind :=
  if op = .ldc2_w then [.long, .double]
  else [.int, .float, .string, .reference, .methodType]

/-- An argument of a bootstrap method with the name of its kind. -/
def readArgument (n : Node) : Result (Text × Constant) := do
  let value ← readLoaded at_ [.int, .float, .long, .double, .string, .reference, .methodType] n
  return (n.base.getD [], value)

/-- A call site. Its arguments are read before its other operands. -/
def readCallSite (n : Node) : Result (Instruction Label) := do
  let arguments ← (← n.operand 3 at_.place).children.mapM (readArgument at_)
  let name ← textOf at_.path (← n.operand 0 at_.place)
  let descriptor ← textOf at_.path (← n.operand 1 at_.place)
  let bootstrap ← readHandle at_ (← n.operand 2 at_.place)
  return .callSite name descriptor bootstrap arguments

/-- A switch over a range of keys. Its targets are read before its bounds. -/
def readTableSwitch (n : Node) : Labelled (Instruction Label) := do
  let otherwise ← readReference at_ (← n.operand 2 at_.place)
  let targets ← (← n.operand 3 at_.place).children.mapM (readReference at_)
  let low ← intOf at_.path (← n.operand 0 at_.place)
  let high ← intOf at_.path (← n.operand 1 at_.place)
  return .tableSwitch low high otherwise targets

/-- A switch over single keys. -/
def readLookupSwitch (n : Node) : Labelled (Instruction Label) := do
  let otherwise ← readReference at_ (← n.operand 0 at_.place)
  let keys ← (← n.operand 1 at_.place).children.mapM fun k => (intOf at_.path k : Labelled Int)
  let targets ← (← n.operand 2 at_.place).children.mapM (readReference at_)
  unless keys.length = targets.length do at_.refuse .lookupLabels
  return .lookupSwitch otherwise keys targets

/-- The instruction of a code. -/
def readOperands (op : Opcode) (n : Node) : Labelled (Instruction Label) := do
  let int (i : Nat) : Result Int := do intOf at_.path (← n.operand i at_.place)
  let text (i : Nat) : Result Text := do textOf at_.path (← n.operand i at_.place)
  match op.family with
  | .plain => return .plain op
  | .widening => at_.refuse (.wideningCode op)
  | .immediate => return .immediate op (← int 0)
  | .variable => return .variable op (← int 0)
  | .increment =>
    let slot ← int 0
    return .increment slot (← int 1)
  | .constant => return .constant op (← readLoaded at_ (loadable op) (← n.operand 0 at_.place))
  | .type => return .type op (some (← referenceOf at_.path (← n.operand 0 at_.place)))
  | .field =>
    let owner ← text 0
    let name ← text 1
    return .field op (some owner) name (← text 2)
  | .method =>
    let owner ← text 0
    let name ← text 1
    let descriptor ← text 2
    return .method op (some owner) name descriptor
      (← boolOf at_.path (← n.operand 3 at_.place))
  | .callSite => readCallSite at_ n
  | .jump => return .jump op (← readReference at_ (← n.operand 0 at_.place))
  | .tableSwitch => readTableSwitch at_ n
  | .lookupSwitch => readLookupSwitch at_ n
  | .multiArray =>
    let descriptor ← text 0
    return .multiArray (some descriptor) (← int 1)

/-- The code that the name of an instruction node gives: the number between its first and its second
hyphen. -/
def opcodeOf? (name : Option Text) : Option Opcode := do
  let number ← (Text.splitOn hyphen (name.getD []))[1]?
  let code ← Text.toInt? number
  if code < 0 then none else Opcode.ofCode? code.toNat

/-! ## Frames -/

/-- A verification type. -/
def readType (n : Node) : Labelled VerificationType := do
  match n.name.bind fun name => VerificationType.names.idxOf? name with
  | none => at_.refuse (.verificationType n.name)
  | some 7 => return .object (some (← textOf at_.path (← n.operand 0 at_.place)))
  | some 8 => return .uninitialized (.label (← readReference at_ (← n.operand 0 at_.place)))
  | some tag => return .ofParts tag .none

/-- A frame. -/
def readFrame (n : Node) : Labelled Frame := do
  match n.name.bind FrameKind.ofName? with
  | none => at_.refuse (.frameKind n.name)
  | some kind =>
    let locals ← (n.grouped "locals").mapM (readType at_)
    let stack ← (n.grouped "stack").mapM (readType at_)
    let chop ← optional (intOf at_.path) n "chop"
    return { kind, locals, stack, chop := chop.getD 0 }

/-! ## Items -/

/-- An item of a body. -/
def readItem (n : Node) : Labelled Item := do
  if n.base = some "label" then return .label (← readDefinition at_ n)
  else if n.base = some "line-number" then
    return .line (← intOf at_.path (← n.operand 0 at_.place))
  else if n.base = some "frame" then return .frame (← readFrame at_ n)
  else if n.base = some "opcode" then
    match opcodeOf? n.name with
    | some op => return .instruction (← readOperands at_ op n)
    | none => at_.refuse (.opcodeName n.name)
  else at_.refuse (.sequenceNode n.base)

/-- The location of an item in a body at a location. -/
def Location.item (index : Nat) : Location :=
  { path := step at_.path (Text.concat ["body[", Text.ofNat index, "]"])
    place := Text.concat [at_.place, " instruction ", Text.ofNat index] }

/-- The items of a body. -/
def readItems (n : Node) : Labelled (List Item) :=
  n.children.zipIdx.mapM fun (child, index) => readItem (at_.item index) child

end ClassTree.Tree
