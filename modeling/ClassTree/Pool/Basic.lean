/-
# ClassTree.Pool.Basic — a constant pool that grows

A pool is the list of entries of a class file together with its bootstrap table. Adding an entry
that is already there gives the first index of it and changes nothing; a new entry goes to the end,
and a long or a double takes the index after it too. A pool can be seeded with the entries of a
class file: no seed entry ever moves, so an unchanged class finds all its indices again.
-/
import ClassTree.Class.Basic
import Std.Data.HashMap

namespace ClassTree

/-- A constant pool under construction. -/
structure Pool where
  /-- The entries by index. There is none at index zero and behind a long or a double. -/
  entries : Array (Option Pool.Entry)
  /-- The first index of each entry, by its key. -/
  index : Std.HashMap Pool.Entry Nat
  bootstrap : Array Bootstrap
  /-- The first index of each bootstrap method. -/
  bootstrapIndex : Std.HashMap Bootstrap Nat

namespace Pool

/-! ## Building -/

/-- The pool with nothing in it. -/
def empty : Pool := ⟨#[none], {}, #[], {}⟩

/-- Appends a seed entry at the next index. -/
def seedEntry (p : Pool) (entry : Option Entry) : Pool :=
  let next := p.entries.size
  { p with
    entries := p.entries.push entry
    index := match entry with
      | none => p.index
      | some e => if p.index.contains e.key then p.index else p.index.insert e.key next }

/-- Appends a seed bootstrap method. -/
def seedBootstrap (p : Pool) (method : Bootstrap) : Pool :=
  let next := p.bootstrap.size
  { p with
    bootstrap := p.bootstrap.push method
    bootstrapIndex :=
      if p.bootstrapIndex.contains method then p.bootstrapIndex
      else p.bootstrapIndex.insert method next }

/-- The entries of a seed without the empty slot at index zero, if it has that. -/
def seedEntries : List (Option Entry) → List (Option Entry)
  | none :: rest => rest
  | entries => entries

/-- A pool with the entries and the bootstrap table of a class file. -/
def seeded (entries : List (Option Entry)) (bootstrap : List Bootstrap) : Pool :=
  bootstrap.foldl seedBootstrap ((seedEntries entries).foldl seedEntry empty)

/-- The number of indices, index zero included. -/
def size (p : Pool) : Nat := p.entries.size

/-! ## Adding -/

/-- The index of an entry, which is added if it is not there. -/
def insert (p : Pool) (entry : Entry) : Nat × Pool :=
  match p.index[entry.key]? with
  | some i => (i, p)
  | none =>
    let next := p.entries.size
    let entries := p.entries.push (some entry)
    (next, { p with
      entries := if entry.isWide then entries.push none else entries
      index := p.index.insert entry.key next })

/-- The index of a bootstrap method, which is added if it is not there. -/
def insertBootstrap (p : Pool) (method : Bootstrap) : Nat × Pool :=
  match p.bootstrapIndex[method]? with
  | some i => (i, p)
  | none =>
    let next := p.bootstrap.size
    (next, { p with
      bootstrap := p.bootstrap.push method
      bootstrapIndex := p.bootstrapIndex.insert method next })

/-- Adds an entry. -/
def add (entry : Entry) : StateM Pool Nat := modifyGet fun p => p.insert entry

/-- Adds a text. -/
def addUtf8 (t : Text) : StateM Pool Nat := add (.utf8 t)

/-- Adds a text that may be missing. A missing text takes an entry too, but one without bytes. -/
def addName : Option Text → StateM Pool Nat
  | some t => addUtf8 t
  | none => add (.irregular 1 [.null])

/-- Adds a class by its name. -/
def addClass (name : Option Text) : StateM Pool Nat := do add (.type (← addName name))

/-- Adds a string constant. -/
def addString (t : Text) : StateM Pool Nat := do add (.string (← addUtf8 t))

/-- Adds a method type. -/
def addMethodType (descriptor : Text) : StateM Pool Nat := do
  add (.methodType (← addUtf8 descriptor))

/-- Adds a name with a descriptor. -/
def addNameAndType (name : Text) (descriptor : Option Text) : StateM Pool Nat := do
  let n ← addUtf8 name
  let d ← addName descriptor
  add (.nameAndType n d)

/-- Adds the class and the name of a member, and then the entry made of their indices. -/
def addMember (entry : Nat → Nat → Entry) (owner : Option Text) (name descriptor : Text) :
    StateM Pool Nat := do
  let o ← addClass owner
  let m ← addNameAndType name (some descriptor)
  add (entry o m)

/-- Adds a field. -/
def addField (owner : Option Text) (name descriptor : Text) : StateM Pool Nat :=
  addMember .fieldref owner name descriptor

/-- Adds a method of a class or of an interface. -/
def addMethod (interface : Bool) (owner : Option Text) (name descriptor : Text) :
    StateM Pool Nat :=
  addMember (if interface then .interfaceMethodref else .methodref) owner name descriptor

/-- The largest kind of a handle on a field; the kinds above are handles on methods. -/
def lastFieldKind : Int := 4

/-- Adds a method handle. -/
def addHandle (h : Handle) : StateM Pool Nat := do
  let target ←
    if h.kind ≤ lastFieldKind then addField h.owner h.name h.descriptor
    else addMethod h.interface h.owner h.name h.descriptor
  add (.methodHandle h.kind target)

/-- Adds a bootstrap method. -/
def addBootstrap (handle : Nat) (arguments : List Nat) : StateM Pool Nat :=
  modifyGet fun p => p.insertBootstrap ⟨handle, arguments⟩

/-- Adds a call site. -/
def addInvokeDynamic (bootstrap : Nat) (name descriptor : Text) : StateM Pool Nat := do
  let m ← addNameAndType name (some descriptor)
  add (.invokeDynamic bootstrap m)

end Pool

end ClassTree
