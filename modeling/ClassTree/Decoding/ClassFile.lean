/-
# ClassTree.Decoding.ClassFile — class files as classes

A class file is a magic number, a version, the constant pool, and the class itself with its members
and attributes. The bootstrap table stands at the very end but is needed by the members, so it is
looked up ahead; that changes nothing about where reading goes on. The pool, the bootstrap table and
the order of attributes become the layout of the class, so that writing the class again finds every
index where it was.
-/
import ClassTree.Decoding.Member

namespace ClassTree.Decoding

open Decoder

/-- The first four bytes of a class file. -/
def magic : Nat := 0xCAFEBABE

/-- The oldest major version. -/
def oldestMajor : Nat := 45

/-- The newest major version. -/
def newestMajor : Nat := 65

/-- The version, major number first, after the magic number. -/
def readVersion : Decoder (Nat × Nat) := do
  let found ← u4
  unless found = magic do refuse (.magic found) 0
  let minor ← u2
  let major ← u2
  unless oldestMajor ≤ major ∧ major ≤ newestMajor do refuse (.version major minor) 4
  return (major, minor)

/-- The name of the class that the file is about; it must be there. -/
def readClassName (t : Table) : Decoder Text := do
  let start ← position
  match ← t.className (← u2) with
  | none => refuse .className start
  | some [] => refuse .className start
  | some name => return name

/-- An entry of the table of inner classes. -/
def readInnerClass (t : Table) : Decoder InnerClass := do
  let innerIndex ← u2
  let outerIndex ← u2
  let nameIndex ← u2
  let access ← u2
  let inner ← t.className innerIndex
  let outer ← t.className outerIndex
  return { inner, outer, name := ← t.utf8? nameIndex, access }

/-- The method around a local class. -/
def readEnclosingMethod (t : Table) : Decoder EnclosingMethod := do
  let owner ← t.className (← u2)
  let i ← u2
  if i = 0 then return { owner, name := none, descriptor := none }
  let (n, d) ← t.nameAndType i
  let name ← t.utf8 n
  return { owner, name := some name, descriptor := some (← t.utf8 d) }

/-- Reads an attribute of a class. The bootstrap table has been read already. -/
def readClassAttribute (t : Table) (name : Text) (length : Nat) (c : Class) : Decoder Class := do
  let c := { c with
    layout := { c.layout with attributeOrder := c.layout.attributeOrder ++ [name] } }
  if name = AttributeName.signature then
    return { c with signature := some (← t.utf8 (← u2)) }
  else if name = AttributeName.sourceFile then
    return { c with sourceFile := some (← t.utf8 (← u2)) }
  else if name = AttributeName.annotations true then
    return { c with annotations := c.annotations ++ (← readAnnotationUses t true) }
  else if name = AttributeName.annotations false then
    return { c with annotations := c.annotations ++ (← readAnnotationUses t false) }
  else if name = AttributeName.innerClasses then
    return { c with innerClasses := c.innerClasses ++ (← listOf (readInnerClass t)) }
  else if name = AttributeName.enclosingMethod then
    return { c with enclosing := some (← readEnclosingMethod t) }
  else if name = AttributeName.bootstrapMethods then
    skip length
    return c
  else
    return { c with attributes := c.attributes ++ [⟨name, ← bytes length⟩] }

/-- The constant pool together with the bootstrap table, which is looked up ahead. -/
def readTable : Decoder Table := do
  let t : Table := { entries := ← Table.readPool, bootstrap := #[] }
  let bootstrap ← elsewhere (← get) (scanBootstrap t)
  return { t with bootstrap := bootstrap.toArray }

/-- A whole class file. -/
def readClassFile : Decoder Class := do
  let (major, minor) ← readVersion
  let t ← readTable
  let access ← u2
  let name ← readClassName t
  let super ← t.className (← u2)
  let interfaces ← listOf do t.className (← u2)
  let fields ← listOf (readField t)
  let methods ← listOf (readMethod t)
  let c ← attributes t (readClassAttribute t)
    { name, access, major, minor, super, interfaces, fields, methods
      layout := { pool := t.entries.toList, bootstrap := t.bootstrap.toList } }
  let after := (← get).rest.length
  unless after = 0 do refuseHere (.trailing after)
  return c

end ClassTree.Decoding

namespace ClassTree.Class

/-- The class of a class file. -/
def ofBytes (bytes : Bytes) : Result Class :=
  match (Decoding.readClassFile).run ⟨0, bytes⟩ with
  | .ok (c, _) => .ok c
  | .error e => .error e

end ClassTree.Class
