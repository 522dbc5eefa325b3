/-
# ClassTree.Decoding.Outline — class files by their parts

A class file can be taken apart without a look into its attributes: members and attributes are found
by their names and lengths alone. The outline of a class file keeps every attribute as its bytes,
and the outline of a code attribute does the same with the instructions and the tables around them.
-/
import ClassTree.Decoding.Attributes

namespace ClassTree

open Decoding Decoder

/-- A field or a method by its parts. -/
structure MemberOutline where
  access : Nat
  name : Text
  descriptor : Text
  attributes : List Attribute

/-- A class file by its parts. -/
structure Outline where
  /-- The constant pool. -/
  table : Table
  fields : List MemberOutline
  methods : List MemberOutline
  attributes : List Attribute

/-- A code attribute by its parts. -/
structure CodeOutline where
  maxStack : Nat
  maxLocals : Nat
  instructions : Bytes
  attributes : List Attribute

namespace Outline

/-- Attributes as their bytes. -/
def readAttributes (t : Table) : Decoder (List Attribute) :=
  Decoding.attributes t (fun name length as => do return as ++ [⟨name, ← bytes length⟩]) []

/-- A field or a method. -/
def readMember (t : Table) : Decoder MemberOutline := do
  let access ← u2
  let name ← t.utf8 (← u2)
  let descriptor ← t.utf8 (← u2)
  return { access, name, descriptor, attributes := ← readAttributes t }

/-- A class file: magic number and version, the pool, the class with its superclass, its interfaces,
its members and its attributes. -/
def readFile : Decoder Outline := do
  skip 8
  let t : Table := { entries := ← Table.readPool, bootstrap := #[] }
  skip 6
  skip (2 * (← u2))
  let fields ← listOf (readMember t)
  let methods ← listOf (readMember t)
  return { table := t, fields, methods, attributes := ← readAttributes t }

/-- A code attribute: two sizes, the instructions, the handlers and the attributes. -/
def readCode (t : Table) : Decoder CodeOutline := do
  let maxStack ← u2
  let maxLocals ← u2
  let instructions ← bytes (← u4)
  skip (8 * (← u2))
  return { maxStack, maxLocals, instructions, attributes := ← readAttributes t }

/-- Reads all of some bytes. -/
def whole {α : Type} (d : Decoder α) (bytes : Bytes) : Result α := do
  let (a, c) ← d.run ⟨0, bytes⟩
  unless c.rest.isEmpty do throw (.malformed (.trailing c.rest.length) c.position)
  return a

/-- The outline of a class file. -/
def ofBytes (bytes : Bytes) : Result Outline := whole readFile bytes

/-- The constant pool of a class file; the magic number and the version stand before it. -/
def poolOf (bytes : Bytes) : Result (Array (Option Pool.Entry)) := do
  let (entries, _) ← (do skip 8; Table.readPool).run ⟨0, bytes⟩
  return entries

end Outline

/-- The first attribute with a name. -/
def Attribute.named (name : Text) (as : List Attribute) : Option Attribute :=
  as.find? fun a => a.name = name

/-- The outline of the code of a method. -/
def MemberOutline.code? (t : Table) (m : MemberOutline) : Option (Result CodeOutline) :=
  (Attribute.named AttributeName.code m.attributes).map fun a =>
    Outline.whole (Outline.readCode t) a.data

end ClassTree
