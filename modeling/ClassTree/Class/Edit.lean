/-
# ClassTree.Class.Edit — looking members up and exchanging parts

A class is changed by exchanging one of its members, or a stretch of a method body, for another.
The operations here say what such a step needs: a class keeps a name, a member that is asked for
has to be there, and a stretch of a body ends where the body ends.
-/
import ClassTree.Error

namespace ClassTree

namespace Class

/-! ## Names -/

/-- The class itself, unless it has no name. -/
def named (c : Class) : Result Class :=
  if c.name.isEmpty then .error (.invalid .emptyClassName) else .ok c

/-! ## Looking up -/

/-- The first method of a name and, where one is given, a descriptor. -/
def findMethod (c : Class) (name : Text) (descriptor : Option Text) : Result Method :=
  match c.methods.find? fun m => m.name = name && descriptor.all (· = m.descriptor) with
  | some m => .ok m
  | none => .error (.notFound (Text.concat [c.name, ".", name, descriptor.getD []]))

/-- The first field of a name. -/
def findField (c : Class) (name : Text) : Result Field :=
  match c.fields.find? fun f => f.name = name with
  | some f => .ok f
  | none => .error (.notFound (Text.concat [c.name, ".", name]))

/-- The method at an index. -/
def methodAt (c : Class) (index : Nat) : Result Method :=
  match c.methods[index]? with
  | some m => .ok m
  | none => .error (.undefined .index)

/-- The field at an index. -/
def fieldAt (c : Class) (index : Nat) : Result Field :=
  match c.fields[index]? with
  | some f => .ok f
  | none => .error (.undefined .index)

/-! ## Exchanging -/

/-- The class with another method at an index; an index without a method changes nothing. -/
def setMethod (c : Class) (index : Nat) (m : Method) : Class :=
  { c with methods := c.methods.set index m }

/-- The class with another field at an index; an index without a field changes nothing. -/
def setField (c : Class) (index : Nat) (f : Field) : Class :=
  { c with fields := c.fields.set index f }

theorem methodAt_setMethod {c : Class} {index : Nat} (m : Method) (h : index < c.methods.length) :
    (c.setMethod index m).methodAt index = .ok m := by
  simp [methodAt, setMethod, h]

theorem fieldAt_setField {c : Class} {index : Nat} (f : Field) (h : index < c.fields.length) :
    (c.setField index f).fieldAt index = .ok f := by
  simp [fieldAt, setField, h]

end Class

/-- The method with the `remove` items of its body from `position` on exchanged for `insert`; what
reaches past the end of the body is clipped. -/
def Method.splice (m : Method) (position remove : Nat) (insert : List Item) : Method :=
  { m with body := m.body.take position ++ insert ++ m.body.drop (position + remove) }

/-- Exchanging nothing for nothing leaves the body as it is. -/
theorem Method.splice_nil (m : Method) (position : Nat) : m.splice position 0 [] = m := by
  simp [Method.splice]

end ClassTree
