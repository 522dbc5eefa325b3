/-
# ClassTree.Label.Registry — the labels of one method

A registry hands out the labels of a method, either fresh ones for code offsets or those that a
document names, and watches that every label that is referenced is defined exactly once. Fresh and
symbolic names live in one name space: a fresh name is the first `L0, L1, …`, from the counter on,
that nobody has used.
-/
import ClassTree.Error
import Std.Data.HashMap
import Std.Data.HashSet

namespace ClassTree.Label

/-- The name of the `n`-th fresh label. -/
def numbered (n : Nat) : Text := "L" ++ Text.ofNat n

/-- The first number from `n` on whose name is not taken, among `fuel + 1` candidates. -/
def firstFree (names : Std.HashSet Text) : Nat → Nat → Nat
  | 0, n => n
  | fuel + 1, n => if names.contains (numbered n) then firstFree names fuel (n + 1) else n

/-- The labels of one method. -/
structure Registry where
  /-- Where the method is, for messages. -/
  place : Text
  /-- Every fresh name given out so far has a smaller number. -/
  counter : Nat := 0
  /-- The names in use. -/
  names : Std.HashSet Text := {}
  /-- The labels of code offsets. -/
  offsets : Std.HashMap Int Label := {}
  /-- The same labels in the order in which their offsets were first seen. -/
  seen : Array (Int × Label) := #[]
  defined : Std.HashSet Label := {}
  /-- The labels that have been referenced. -/
  referenced : Std.HashSet Label := {}
  /-- Each of them with the place of its first reference, in that order. -/
  references : Array (Label × Text) := #[]

namespace Registry

/-- A fresh label. Among one more candidates than there are names in use, one is free. -/
def issue (r : Registry) : Label × Registry :=
  let n := firstFree r.names r.names.size r.counter
  let name := numbered n
  (⟨name⟩, { r with counter := n + 1, names := r.names.insert name })

/-- The label of a symbolic name. -/
def resolve (r : Registry) (name : Text) : Label × Registry :=
  (⟨name⟩, { r with names := r.names.insert name })

/-- The label of a code offset, issued when the offset is first seen. -/
def atOffset (r : Registry) (offset : Int) : Label × Registry :=
  match r.offsets[offset]? with
  | some label => (label, r)
  | none =>
    let (label, r) := r.issue
    (label, { r with
      offsets := r.offsets.insert offset label, seen := r.seen.push (offset, label) })

/-- Records the definition of a label, which must be its first. -/
def define (r : Registry) (label : Label) : Result Registry :=
  if r.defined.contains label then .error (.duplicateLabel label.name r.place)
  else .ok { r with defined := r.defined.insert label }

/-- Records a reference to a label; only the place of the first one is kept. -/
def reference (r : Registry) (label : Label) (place : Text) : Registry :=
  if r.referenced.contains label then r
  else { r with
    referenced := r.referenced.insert label, references := r.references.push (label, place) }

/-- Fails at the first reference whose label is not defined. -/
def close (r : Registry) : Result Unit :=
  match r.references.find? fun (label, _) => !r.defined.contains label with
  | some (label, place) =>
    .error (.danglingLabel label.name (if place.isEmpty then r.place else place))
  | none => .ok ()

end Registry

end ClassTree.Label
