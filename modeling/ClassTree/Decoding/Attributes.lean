/-
# ClassTree.Decoding.Attributes — the frame of attributes

Classes, fields, methods and code carry attributes: a count, and for each its name, the length of
its content and the content. Reading a content must end exactly where its length says, whatever the
content is. The bootstrap table is an attribute that stands behind the members that use it, so it is
looked for ahead of them by skipping over everything else.
-/
import ClassTree.Class.Basic
import ClassTree.Decoding.Table

namespace ClassTree.Decoding

open Decoder

variable {σ : Type}

/-- One attribute: `read` gets its name and length and must consume just that many bytes. -/
def attribute_ (t : Table) (read : Text → Nat → σ → Decoder σ) (state : σ) : Decoder σ := do
  let name ← t.utf8 (← u2)
  let length ← u4
  let start ← position
  need length
  let state ← read name length state
  let stop ← position
  unless stop = start + length do
    refuse (.attributeLength name length (stop - start)) start
  return state

/-- So many attributes, one after another. -/
def attributeCount (t : Table) (read : Text → Nat → σ → Decoder σ) : Nat → σ → Decoder σ
  | 0, state => return state
  | n + 1, state => do
    let state ← attribute_ t read state
    attributeCount t read n state

/-- The attributes of an entity. -/
def attributes (t : Table) (read : Text → Nat → σ → Decoder σ) (state : σ) : Decoder σ := do
  attributeCount t read (← u2) state

/-- Skips the attributes of an entity. -/
def skipAttributes (t : Table) : Decoder Unit :=
  attributes t (fun _ length _ => skip length) ()

/-! ## The bootstrap table, ahead of time -/

/-- A bootstrap method. -/
def readBootstrap : Decoder Bootstrap := do
  let handle ← u2
  return ⟨handle, ← listOf u2⟩

/-- Skips the fields or the methods of a class. -/
def skipMembers (t : Table) : Decoder Unit := do
  let _ ← listOf do
    skip 6
    skipAttributes t

/-- Reads the bootstrap tables among the class attributes, from the access flags of the class on. A
table may end before or behind the length of its attribute; only the length counts here. -/
def scanBootstrap (t : Table) : Decoder (List Bootstrap) := do
  skip 6
  let interfaces ← u2
  skip (2 * interfaces)
  skipMembers t
  skipMembers t
  let tables ← attributes t (fun name length found => do
    let start ← get
    let table ← if name = AttributeName.bootstrapMethods then listOf readBootstrap else pure []
    set (start.skip length)
    return table :: found) []
  return tables.reverse.flatten

end ClassTree.Decoding
