/-
# ClassTree.Form — a class as it is given

A class comes as the bytes of a class file or as a tree. Each of the two forms has a class, a name,
a tree and bytes; the form it is given in is handed back as it is, and only the other one is made.
-/
import ClassTree.Decoding.ClassFile
import ClassTree.Encoding.ClassFile
import ClassTree.Tree.Node
import ClassTree.Tree.OfClass
import ClassTree.Tree.Read
import ClassTree.Tree.ToClass

namespace ClassTree

/-! ## Ways through the other forms -/

namespace Class

/-- The tree of a class as text. -/
def toText (c : Class) : Result Text := do return (← c.toTree).render

/-- The class whose tree a text holds. -/
def ofText (t : Text) : Result Class := do Class.ofTree (← Tree.Node.read t)

/-- The class that is read back from its own class file. -/
def throughBytes (c : Class) (verify : Bool) : Result Class := do Class.ofBytes (← c.toBytes verify)

/-- The class that is read back from its own text. -/
def throughText (c : Class) : Result Class := do Class.ofText (← c.toText)

end Class

/-! ## Forms -/

/-- A class as it is given. -/
inductive Form where
  | binary (data : Bytes)
  | tree (root : Tree.Node)

namespace Form

/-- The class of a form. -/
def toClass : Form → Result Class
  | .binary data => Class.ofBytes data
  | .tree root => Class.ofTree root

/-- The name of the class of a form. -/
def name (f : Form) : Result Text := do return (← f.toClass).name

/-- The tree of a form. -/
def toTree : Form → Result Tree.Node
  | .binary data => do (← Class.ofBytes data).toTree
  | .tree root => .ok root

/-- The text of a form. -/
def toText (f : Form) : Result Text := do return (← f.toTree).render

/-- The bytes of a form. With `verify`, those of a tree get frames and sizes of their own. -/
def toBytes (f : Form) (verify : Bool) : Result Bytes :=
  match f with
  | .binary data => .ok data
  | .tree root => do (← Class.ofTree root).toBytes verify

/-- The bytes of the class of a form, written anew. -/
def reencoded (f : Form) (verify : Bool) : Result Bytes := do (← f.toClass).toBytes verify

end Form

end ClassTree
