/-
# ClassTree.Tree.Node — canonical trees

A tree is made of nodes. A structural node names the kind of its entity in `base` and has ordered
children; a leaf names the kind of a literal, is marked by `data="bytes"`, and carries the
hexadecimal text of the literal. The `line` marker of a node is decoration: nodes that differ in
markers only are `same`.

As text a node is written as `(o`, its attributes in the order base, name, line, data, its text, its
children, and `)`. Each child starts a line of its own, two spaces deeper than its parent; the
closing parenthesis follows the last child directly. Between double quotes, a quote and a backslash
have a backslash in front, and everything else stands for itself.
-/
import ClassTree.Literal.Codec

namespace ClassTree.Tree

/-- A node of a tree. -/
structure Node where
  base : Option Text := none
  name : Option Text := none
  line : Option Int := none
  data : Option Text := none
  text : Option Text := none
  children : List Node := []

namespace Node

/-- The mark of a leaf. -/
def leafMark : Text := "bytes"

/-- The node carries a literal. -/
def isLeaf (n : Node) : Bool := n.data = some leafMark

/-- A leaf that holds a constant in a kind. -/
def leaf (kind : Literal.Kind) (value : Constant) (name : Option Text) : Result Node := do
  return { base := some kind.name, name, data := some leafMark,
           text := some (← Literal.encodeAs kind value) }

/-- The constant of a literal whose kind may be missing; a missing kind is no kind. -/
def literal (n : Node) : Result Constant :=
  match n.base with
  | some kind => Literal.decode kind n.text
  | none => .error (.misformatted (.unknownKind "None") none)

/-- The constant that a leaf holds. -/
def value (n : Node) : Result Constant :=
  if n.isLeaf then n.literal else .error (.misformatted (.notLeaf n.base) none)

/-- The first child of a given name. -/
def child? (n : Node) (name : Text) : Option Node := n.children.find? fun c => c.name = some name

/-- The children of a given kind. -/
def childrenOf (n : Node) (base : Text) : List Node :=
  n.children.filter fun c => c.base = some base

mutual

/-- The node and everything below it, each node before its children, onto the reversed list `acc`.
-/
def walkOnto (n : Node) (acc : List Node) : List Node :=
  match n with
  | ⟨base, name, line, data, text, children⟩ =>
    walkAllOnto children (⟨base, name, line, data, text, children⟩ :: acc)

/-- The same for a list of nodes. -/
def walkAllOnto (ns : List Node) (acc : List Node) : List Node :=
  match ns with
  | [] => acc
  | n :: rest => walkAllOnto rest (walkOnto n acc)

end

/-- The node and everything below it, each node before its children. -/
def walk (n : Node) : List Node := (walkOnto n []).reverse

mutual

/-- Equality up to the line markers. -/
def same : Node → Node → Bool
  | ⟨base, name, _, data, text, children⟩, ⟨base', name', _, data', text', children'⟩ =>
    base = base' && name = name' && data = data' && text = text' && sameAll children children'

/-- Equality of lists of nodes up to the line markers. -/
def sameAll : List Node → List Node → Bool
  | [], [] => true
  | n :: rest, n' :: rest' => if same n n' then sameAll rest rest' else false
  | _, _ => false

end

/-! ## Line markers

Structural nodes are numbered from one in the order in which they end: the children of a node come
before it. Leaves have no number. Since `same` looks past the markers, numbering a tree never
changes what it stands for. -/

mutual

/-- Numbers a tree, of which `n` nodes before it have been numbered. -/
def numberFrom (n : Nat) (node : Node) : Node × Nat :=
  match node with
  | ⟨base, name, line, data, text, children⟩ =>
    let (children, n) := numberAllFrom n children []
    if data = some leafMark then (⟨base, name, line, data, text, children⟩, n)
    else (⟨base, name, some ((n : Int) + 1), data, text, children⟩, n + 1)

/-- Numbers a list of trees, onto the reversed trees `acc`. -/
def numberAllFrom (n : Nat) (nodes : List Node) (acc : List Node) : List Node × Nat :=
  match nodes with
  | [] => (acc.reverse, n)
  | node :: rest =>
    let (node, n) := numberFrom n node
    numberAllFrom n rest (node :: acc)

end

/-- A tree with its structural nodes numbered. -/
def numbered (node : Node) : Node := (numberFrom 0 node).1

end Node

/-! ## Trees as text -/

/-- The quote of attribute values and texts. -/
def quoteSign : CodePoint := 0x22

/-- The sign in front of an escaped code point. -/
def escapeSign : CodePoint := 0x5C

/-- A text between quotes. -/
def quote (t : Text) : Text :=
  quoteSign ::
    (t.flatMap (fun c => if c = quoteSign ∨ c = escapeSign then [escapeSign, c] else [c])
      ++ [quoteSign])

/-- An attribute with a space in front, nothing if it is missing. -/
def attributeText (name : Text) (value : Option Text) : Text :=
  match value with
  | some v => Text.concat [" ", name, "=", quote v]
  | none => []

/-- A node up to its children. -/
def Node.head (n : Node) : Text :=
  Text.concat ["(o", attributeText "base" n.base, attributeText "name" n.name,
    attributeText "line" (n.line.map Text.ofInt), attributeText "data" n.data,
    match n.text with
    | some t => 0x20 :: quote t
    | none => []]

/-- A line break and the indentation of a depth. -/
def lineBreak (depth : Nat) : Text := 0x0A :: List.replicate (2 * depth) 0x20

namespace Node

mutual

/-- The text of a node at a depth, onto the reversed text `acc`. -/
def renderOnto (n : Node) (depth : Nat) (acc : Text) : Text :=
  match n with
  | ⟨base, name, line, data, text, children⟩ =>
    let head := Node.head ⟨base, name, line, data, text, []⟩
    0x29 :: renderAllOnto children (depth + 1) (head.reverseAux acc)

/-- The texts of nodes at a depth, each on a line of its own. -/
def renderAllOnto (ns : List Node) (depth : Nat) (acc : Text) : Text :=
  match ns with
  | [] => acc
  | n :: rest =>
    renderAllOnto rest depth (renderOnto n depth ((lineBreak depth).reverseAux acc))

end

/-- The text of a tree, ended by a line feed. -/
def render (n : Node) : Text := (0x0A :: renderOnto n 0 []).reverse

end Node

end ClassTree.Tree
