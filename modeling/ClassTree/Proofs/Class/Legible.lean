/-
# ClassTree.Proofs.Class.Legible — classes whose class files can be read

A tree is read, and a class file is written, without a look at all that the reader of class files
asks for. Bytes that are kept under the name of an attribute that is taken apart are written as they
are; a table of targets may have another length than its range of keys; a jump may lead behind the
last instruction. A class is *legible* if nothing of the sort is in it.

A scalar annotation value is written with the letter of its tag. A class is *tagged* if every scalar
in its annotations, to any depth, has one of the ten tags that there are.
-/
import ClassTree.Class.Basic
import ClassTree.Encoding.Member
import ClassTree.Literal.Kind
import ClassTree.Proofs.Decoding.Raw
import ClassTree.Proofs.Operation

namespace ClassTree

namespace ElementValue

mutual

/-- Every scalar has a tag that asks for a kind of constants. -/
def IsTagged : ElementValue → Prop
  | .scalar tag _ => (Literal.elementKind? tag).isSome
  | .enum _ _ => True
  | .nested _ _ values => AreTaggedNamed values
  | .array elements => AreTagged elements

/-- All values are tagged. -/
def AreTagged : List ElementValue → Prop
  | [] => True
  | v :: rest => IsTagged v ∧ AreTagged rest

/-- All named values are tagged. -/
def AreTaggedNamed : List (Text × ElementValue) → Prop
  | [] => True
  | (_, v) :: rest => IsTagged v ∧ AreTaggedNamed rest

end

theorem areTagged_iff {vs : List ElementValue} : AreTagged vs ↔ ∀ v ∈ vs, v.IsTagged := by
  induction vs with
  | nil => simp [AreTagged]
  | cons v vs ih => simp [AreTagged, ih]

theorem areTaggedNamed_iff {vs : List (Text × ElementValue)} :
    AreTaggedNamed vs ↔ ∀ v ∈ vs, v.2.IsTagged := by
  induction vs with
  | nil => simp [AreTaggedNamed]
  | cons v vs ih => simp [AreTaggedNamed, ih]

end ElementValue

/-- All values of the annotation are tagged. -/
def AnnotationUse.IsTagged (a : AnnotationUse) : Prop := ElementValue.AreTaggedNamed a.values

/-- A method with tagged annotations, of its own and of its parameters, and a tagged default. -/
structure Method.IsTagged (m : Method) : Prop where
  annotations : ∀ a ∈ m.annotations, a.IsTagged
  parameters : ∀ p ∈ m.parameters, ∀ a ∈ p.annotations, a.IsTagged
  default : ∀ v ∈ m.default, v.IsTagged

/-- A class in which all annotations are tagged. -/
structure Class.IsTagged (c : Class) : Prop where
  annotations : ∀ a ∈ c.annotations, a.IsTagged
  fields : ∀ f ∈ c.fields, ∀ a ∈ f.annotations, a.IsTagged
  methods : ∀ m ∈ c.methods, m.IsTagged

open Encoding

/-! ## Code -/

/-- An instruction stands at a position of a body or behind it. -/
def IsFollowed (body : List Item) (position : Nat) : Prop :=
  ∃ i, Item.instruction i ∈ body.drop position

/-- No more than three locals are chopped or appended. -/
def Frame.IsLegible (f : Frame) : Prop :=
  match f.kind with
  | .chop => 0 ≤ f.chop ∧ f.chop ≤ 3
  | .append => f.locals.length ≤ 3
  | _ => True

/-- A body whose switches have the targets that their keys ask for, and in which an instruction
follows wherever the reader wants one: on a label that is jumped to, on a line, on a frame, and on a
conditional jump that has to be made far. -/
structure LegibleBody (body : List Item) : Prop where
  switches : ∀ i, .instruction i ∈ body → i.HasTargets
  targets : ∀ i, .instruction i ∈ body → ∀ label ∈ i.targets, ∀ position : Nat,
    body[position]? = some (.label label) → IsFollowed body position
  conditionals : ∀ p l q, Layout.of body p = .ok (l, q) → ∀ (position : Nat) i,
    body[position]? = some (.instruction i) → i.opcode.isConditional = true →
      l.isFar position = true → IsFollowed body (position + 1)
  lines : ∀ (position : Nat) n, body[position]? = some (.line n) → IsFollowed body position
  frames : ∀ (position : Nat) f, body[position]? = some (.frame f) →
    IsFollowed body position ∧ f.IsLegible

/-- A body that is legible in a layout of it, where only jumps that are far there matter. -/
structure LegibleIn (l : Layout) (body : List Item) : Prop where
  switches : ∀ i, .instruction i ∈ body → i.HasTargets
  targets : ∀ i, .instruction i ∈ body → ∀ label ∈ i.targets, ∀ position : Nat,
    body[position]? = some (.label label) → IsFollowed body position
  conditionals : ∀ (position : Nat) i, body[position]? = some (.instruction i) →
    i.opcode.isConditional = true → l.isFar position = true → IsFollowed body (position + 1)
  lines : ∀ (position : Nat) n, body[position]? = some (.line n) → IsFollowed body position
  frames : ∀ (position : Nat) f, body[position]? = some (.frame f) →
    IsFollowed body position ∧ f.IsLegible

theorem LegibleBody.legibleIn {body : List Item} {l : Layout} {p q : Pool} (h : LegibleBody body)
    (hl : Layout.of body p = .ok (l, q)) : LegibleIn l body :=
  ⟨h.switches, h.targets, h.conditionals p l q hl, h.lines, h.frames⟩

/-- Where a body ends with an instruction, everything in it is followed by one. -/
theorem isFollowed_concat {front : List Item} {i : Instruction Label} {position : Nat}
    (h : position < (front ++ [Item.instruction i]).length) :
    IsFollowed (front ++ [Item.instruction i]) position := by
  rw [List.length_append, List.length_singleton] at h
  refine ⟨i, ?_⟩
  rw [List.drop_append_of_le_length (by omega)]
  simp

/-- A body that ends with an instruction, and not with a conditional jump, is legible if its
switches and its frames are. -/
theorem LegibleBody.concat {front : List Item} {i : Instruction Label}
    (hlast : i.opcode.isConditional = false)
    (hswitches : ∀ j, .instruction j ∈ front ++ [.instruction i] → j.HasTargets)
    (hframes : ∀ f, .frame f ∈ front → f.IsLegible) : LegibleBody (front ++ [.instruction i]) where
  switches := hswitches
  targets := fun _ _ _ _ _ h => isFollowed_concat (List.getElem?_eq_some_iff.1 h).1
  conditionals := by
    intro p l q _ position j hj hconditional _
    obtain ⟨hlt, heq⟩ := List.getElem?_eq_some_iff.1 hj
    refine isFollowed_concat (lt_of_le_of_ne hlt fun hend => ?_)
    -- the last instruction is no conditional jump
    have hposition : position = front.length := by simpa using hend
    subst hposition
    rw [List.getElem_concat_length rfl] at heq
    cases heq
    rw [hlast] at hconditional
    cases hconditional
  lines := fun _ _ h => isFollowed_concat (List.getElem?_eq_some_iff.1 h).1
  frames := by
    intro position f hf
    refine ⟨isFollowed_concat (List.getElem?_eq_some_iff.1 hf).1, hframes f ?_⟩
    have hmem := List.mem_of_getElem? hf
    simpa using hmem

/-! ## Members -/

/-- An attribute about parameters is there if its number is given or if a parameter has something to
say; then it covers no more of them than there are in the descriptor. -/
def Method.Covers (m : Method) (given : Option Int) (tells : Parameter → Bool) (arity : Nat) : Prop :=
  (given.isSome || m.parameters.any tells) = true → given.getD m.parameters.length ≤ arity

/-- A method with a legible body whose attributes about parameters fit its descriptor. -/
structure Method.IsLegible (m : Method) : Prop where
  body : LegibleBody m.body
  parameters : ∀ types, Descriptor.arguments m.descriptor = .ok types →
    m.Covers m.visibleCount (isAnnotated true) types.length ∧
      m.Covers m.invisibleCount (isAnnotated false) types.length ∧
      m.Covers m.parameterCount isNamed types.length
  attributes : ∀ a ∈ m.attributes, a.name ∉ AttributeName.ofMethod
  codeAttributes : m.hasCode = true → ∀ a ∈ m.codeAttributes, a.name ∉ AttributeName.ofCode

/-- A class with legible methods that keeps no attribute as bytes that would be taken apart. -/
structure Class.IsLegible (c : Class) : Prop where
  fields : ∀ f ∈ c.fields, ∀ a ∈ f.attributes, a.name ∉ AttributeName.ofField
  methods : ∀ m ∈ c.methods, m.IsLegible
  attributes : ∀ a ∈ c.attributes, a.name ∉ AttributeName.ofClass

end ClassTree
