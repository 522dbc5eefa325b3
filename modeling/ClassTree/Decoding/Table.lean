/-
# ClassTree.Decoding.Table — the constant pool of a class file being read

The pool is read entry by entry and then looked up by index from everywhere else. A lookup checks
that the index has an entry and that the entry is of a kind that the place asks for; it fails at the
present offset otherwise. Index zero stands for a missing class where a class may be missing.
-/
import ClassTree.Decoding.Decoder

namespace ClassTree.Decoding

open Decoder

/-- The constant pool and the bootstrap table of a class file. -/
structure Table where
  entries : Array (Option Pool.Entry)
  bootstrap : Array Bootstrap

namespace Table

/-! ## Reading -/

/-- The operands of an entry with a tag; `start` is the offset of the tag. -/
def readBody (tag : Pool.Tag) (start : Nat) : Decoder Pool.Entry := do
  match tag with
  | .utf8 =>
    let data ← bytes (← u2)
    match ModifiedUtf8.decode data with
    | .ok t => return .utf8 t
    | .error fault => refuse (.utf8 fault) start
  | .integer => return .integer (← signed 4)
  | .float => return .float ⟨UInt32.ofNat (← u4)⟩
  | .long => return .long (← signed 8)
  | .double => return .double ⟨UInt64.ofNat (← unsigned 8)⟩
  | .type => return .type (← u2)
  | .string => return .string (← u2)
  | .methodType => return .methodType (← u2)
  | .module_ => return .module_ (← u2)
  | .package => return .package (← u2)
  | .methodHandle =>
    let kind ← u1
    return .methodHandle kind (← u2)
  | .fieldref =>
    let a ← u2
    return .fieldref a (← u2)
  | .methodref =>
    let a ← u2
    return .methodref a (← u2)
  | .interfaceMethodref =>
    let a ← u2
    return .interfaceMethodref a (← u2)
  | .nameAndType =>
    let a ← u2
    return .nameAndType a (← u2)
  | .dynamic =>
    let a ← u2
    return .dynamic a (← u2)
  | .invokeDynamic =>
    let a ← u2
    return .invokeDynamic a (← u2)

/-- An entry. -/
def readEntry : Decoder Pool.Entry := do
  let start ← position
  let code ← u1
  match Pool.Tag.ofCode? code with
  | some tag => readBody tag start
  | none => refuse (.unknownTag code) start

/-- Reads entries until so many indices are filled. A long or a double fills two, and must not
begin at the last one. -/
def readEntries (entries : Array (Option Pool.Entry)) : Nat → Decoder (Array (Option Pool.Entry))
  | 0 => return entries
  | 1 => do
    let e ← readEntry
    if e.isWide then refuseHere .poolOverflow else return entries.push (some e)
  | n + 2 => do
    let e ← readEntry
    if e.isWide then readEntries ((entries.push (some e)).push none) n
    else readEntries (entries.push (some e)) (n + 1)

/-- The entries by index. The count includes index zero, so it cannot be zero itself. -/
def readPool : Decoder (Array (Option Pool.Entry)) := do
  match ← u2 with
  | 0 => refuseHere .poolOverflow
  | n + 1 => readEntries #[none] n

/-! ## Lookup -/

variable (t : Table)

/-- The entry at an index. -/
def entry (i : Nat) : Decoder Pool.Entry :=
  match t.entries[i]? with
  | some (some e) => return e
  | _ => refuseHere (.poolIndex i)

/-- Refuses an entry of another kind than expected. -/
def wrongTag {α : Type} (expected : List Pool.Tag) (i : Nat) (e : Pool.Entry) : Decoder α :=
  refuseHere (.poolTag expected i e.tagCode)

/-- The text at an index. -/
def utf8 (i : Nat) : Decoder Text := do
  match ← t.entry i with
  | .utf8 s => return s
  | e => wrongTag [.utf8] i e

/-- The text at an index, missing for index zero. -/
def utf8? (i : Nat) : Decoder (Option Text) :=
  if i = 0 then return none else do return some (← t.utf8 i)

/-- The name of the class at an index, missing for index zero. -/
def className (i : Nat) : Decoder (Option Text) := do
  if i = 0 then return none
  match ← t.entry i with
  | .type n => return some (← t.utf8 n)
  | e => wrongTag [.type] i e

/-- The name and the descriptor at an index. -/
def nameAndType (i : Nat) : Decoder (Nat × Nat) := do
  match ← t.entry i with
  | .nameAndType n d => return (n, d)
  | e => wrongTag [.nameAndType] i e

/-- A field or a method. -/
structure Member where
  owner : Option Text
  name : Text
  descriptor : Text
  interface : Bool

/-- The member whose class and name are at these indices. -/
def memberOf (interface : Bool) (ownerIndex memberIndex : Nat) : Decoder Member := do
  let (n, d) ← t.nameAndType memberIndex
  let owner ← t.className ownerIndex
  let name ← t.utf8 n
  let descriptor ← t.utf8 d
  return { owner, name, descriptor, interface }

/-- The field or method at an index. -/
def member (i : Nat) : Decoder Member := do
  match ← t.entry i with
  | .fieldref o m => t.memberOf false o m
  | .methodref o m => t.memberOf false o m
  | .interfaceMethodref o m => t.memberOf true o m
  | e => wrongTag [.fieldref, .methodref, .interfaceMethodref] i e

/-- The method handle at an index. -/
def handle (i : Nat) : Decoder Handle := do
  match ← t.entry i with
  | .methodHandle kind target =>
    let m ← t.member target
    return { kind, owner := m.owner, name := m.name, descriptor := m.descriptor,
             interface := m.interface }
  | e => wrongTag [.methodHandle] i e

/-- The constant at an index, with the name of its kind. Only entries that can be loaded count. -/
def constant (i : Nat) : Decoder (Text × Constant) := do
  match ← t.entry i with
  | .integer n => return ("int", .int n)
  | .float x => return ("float", .float x.toDouble)
  | .long n => return ("long", .int n)
  | .double x => return ("double", .float x)
  | .string n => return ("string", .text (← t.utf8 n))
  | .type n => return ("reference", .reference (← t.utf8 n))
  | .methodType n => return ("method-type", .methodType (← t.utf8 n))
  | .methodHandle _ _ => return ("handle", .handle (← t.handle i))
  | e => refuseHere (.notLoadable e.tagCode i)

end Table

end ClassTree.Decoding
