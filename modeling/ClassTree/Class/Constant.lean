/-
# ClassTree.Class.Constant — the values that code and metadata name

Constants are loaded by instructions, initialise fields, fill annotations and parametrise call
sites. Two constants are compared in two ways: identity of form, which is `=`, and `same`, which
compares numbers by value across their forms. Models are compared by the latter.
-/
import ClassTree.Bytes
import ClassTree.Number.Shortest
import ClassTree.Text.Quoted

namespace ClassTree

/-- A place in a method body, told apart from the others of that method by its name alone. -/
structure Label where
  name : Text
  deriving DecidableEq, Hashable, Repr

/-- A method handle: its kind, and the field or method that it names. The class of the member is
missing where a class file leaves the reference open. -/
structure Handle where
  kind : Int
  owner : Option Text
  name : Text
  descriptor : Text
  interface : Bool
  deriving DecidableEq, Hashable, Repr

/-- A constant. -/
inductive Constant where
  | null
  | bool (value : Bool)
  | int (value : Int)
  | float (value : Number.Double)
  | text (value : Text)
  | bytes (value : Bytes)
  /-- A class or array type by its internal name. -/
  | reference (name : Text)
  | methodType (descriptor : Text)
  | label (value : Label)
  | handle (value : Handle)
  deriving DecidableEq, Hashable, Repr

namespace Constant

/-! ## Comparison by value -/

/-- The integer that a constant equals: truth values count as zero and one, and a floating point
number may be whole. -/
def toInt? : Constant → Option Int
  | .bool b => some b.toNat
  | .int n => some n
  | .float x => x.toInt?
  | _ => none

/-- Equality by value. -/
def same (a b : Constant) : Bool :=
  match a, b with
  | .float x, .float y => x.sameValue y
  | a, b =>
    match a.toInt?, b.toInt? with
    | some m, some n => m = n
    | _, _ => a = b

/-! ## Constants in messages -/

/-- A text in a message, `None` where it is missing. -/
def showOptional : Option Text → Text
  | some t => Text.quoted t
  | none => "None"

/-- A truth value in a message. -/
def showBool (b : Bool) : Text := if b then "True" else "False"

/-- A constant in a message: a record with its fields where it has any. -/
def display : Constant → Text
  | .null => "None"
  | .bool b => showBool b
  | .int n => Text.ofInt n
  | .float x => Number.Layout.message.render x
  | .text t => Text.quoted t
  | .bytes b => Text.quotedBytes b
  | .reference name => Text.concat ["Reference(internal_name=", Text.quoted name, ")"]
  | .methodType d => Text.concat ["MethodType(descriptor=", Text.quoted d, ")"]
  | .label l => Text.concat ["Label(name=", Text.quoted l.name, ")"]
  | .handle h => Text.concat
      ["Handle(tag=", Text.ofInt h.kind, ", owner=", showOptional h.owner, ", name=",
        Text.quoted h.name, ", descriptor=", Text.quoted h.descriptor, ", interface=",
        showBool h.interface, ")"]

end Constant

end ClassTree
