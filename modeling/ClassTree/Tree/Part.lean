/-
# ClassTree.Tree.Part — the parts of an entity in its tree

An entity finds its parts among the children of its node: metadata by name, operands by place. A
field or a method may be named like a part of its class, so members are passed over when a part is
looked for. A part that is a leaf is decoded in one of the kinds that its use allows; a fault in it
is reported with the path of nodes that leads to the leaf.

Most nodes are named by a fixed word. Other names are made from what the node stands for, in the
same way in both directions of the tree form: that of an instruction from its mnemonic and number,
that of a parameter from its type and place, and that of a frame type from its tag.
-/
import ClassTree.Class.Basic
import ClassTree.Literal.Kind
import ClassTree.Text.Digits
import ClassTree.Text.Utf8
import ClassTree.Tree.Node

namespace ClassTree.Tree

/-- The sign between the parts of a name. -/
def hyphen : CodePoint := 0x2D

/-! ## Names of nodes -/

/-- The name of an instruction node: the mnemonic and the number of the code. -/
def opcodeName (op : Opcode) : Text := op.mnemonic ++ hyphen :: Text.ofNat op.code

/-- The word before the type and the place of a parameter. -/
def parameterWord : Text := "param"

/-- The name of a parameter node: the type in base 64 and the place. A type with a surrogate has no
name. -/
def parameterName (descriptor : Text) (index : Int) : Result Text :=
  if descriptor.isScalar then
    .ok (Text.join [hyphen]
      [parameterWord, Base64.render (Utf8.encode descriptor), Text.ofInt index])
  else .error (.undefined .alphabet)

/-- The name of a verification type by its tag; tags below zero count from the end. -/
def typeName (tag : Int) : Result Text :=
  let count : Int := VerificationType.names.length
  let i := if tag < 0 then tag + count else tag
  if i < 0 then .error (.undefined .index)
  else match VerificationType.names[i.toNat]? with
    | some name => .ok name
    | none => .error (.undefined .index)

/-! ## Finding parts -/

namespace Node

/-- The node of a field or a method. -/
def isMember (n : Node) : Bool := n.base = some "field" || n.base = some "method"

/-- The first part of a given name. -/
def part? (n : Node) (name : Text) : Option Node :=
  n.children.find? fun c => c.name = some name && !c.isMember

/-- The children of a part, none if it is missing. -/
def grouped (n : Node) (name : Text) : List Node :=
  match n.part? name with
  | some p => p.children
  | none => []

/-- A part that has to be there. -/
def part (n : Node) (name place : Text) : Result Node :=
  match n.part? name with
  | some p => .ok p
  | none => .error (.missingElement name place)

/-- A child that has to be there. -/
def operand (n : Node) (index : Nat) (place : Text) : Result Node :=
  match n.children[index]? with
  | some c => .ok c
  | none => .error (.missingElement ("operand " ++ Text.ofNat index) place)

/-- What a node is called in a path: its name, or the name of its kind. -/
def title (n : Node) : Text :=
  match n.name, n.base with
  | some [], some b => b
  | some [], none => "None"
  | some name, _ => name
  | none, some b => b
  | none, none => "None"

end Node

/-! ## Reading leaves -/

/-- A path and one more step. -/
def step (path title : Text) : Text := Text.concat [path, "/", title]

/-- The constant of a leaf of one of some kinds. -/
def constantOf (path : Text) (kinds : List Literal.Kind) (n : Node) : Result Constant :=
  let refuse {α : Type} (cause : Misformatted) : Result α :=
    .error (.misformatted cause (some (step path n.title)))
  if n.isLeaf then
    if kinds.any fun k => n.base = some k.name then
      match n.literal with
      | .error (.misformatted cause _) => refuse cause
      | other => other
    else refuse (.expectedKinds (kinds.map Literal.Kind.name) n.base)
  else refuse (.expectedLeaf n.base)

/-- The integer of a leaf. -/
def intOf (path : Text) (n : Node) : Result Int := do
  match ← constantOf path [.int] n with
  | .int i => return i
  | _ => throw (.undefined .kind)

/-- The text of a leaf. -/
def textOf (path : Text) (n : Node) : Result Text := do
  match ← constantOf path [.string] n with
  | .text t => return t
  | _ => throw (.undefined .kind)

/-- The truth value of a leaf. -/
def boolOf (path : Text) (n : Node) : Result Bool := do
  match ← constantOf path [.bool] n with
  | .bool b => return b
  | _ => throw (.undefined .kind)

/-- The bytes of a leaf. -/
def bytesOf (path : Text) (n : Node) : Result Bytes := do
  match ← constantOf path [.bytes] n with
  | .bytes b => return b
  | _ => throw (.undefined .kind)

/-- The label that a leaf names. -/
def labelOf (path : Text) (n : Node) : Result Label := do
  match ← constantOf path [.label] n with
  | .label l => return l
  | _ => throw (.undefined .kind)

/-- The type that a leaf names. -/
def referenceOf (path : Text) (n : Node) : Result Text := do
  match ← constantOf path [.reference] n with
  | .reference name => return name
  | _ => throw (.undefined .kind)

/-- What a part holds, if it is there. -/
def optional {α : Type} (read : Node → Result α) (n : Node) (name : Text) : Result (Option α) :=
  match n.part? name with
  | some p => do return some (← read p)
  | none => .ok none

/-- What a part holds, which has to be there. -/
def required {α : Type} (read : Node → Result α) (n : Node) (name place : Text) : Result α := do
  read (← n.part name place)

end ClassTree.Tree
