/-
# ClassTree.Proofs.Class.Drawn — classes as they are drawn from class files

A class file bounds what is in it: counts and indices have two bytes, texts come from the pool, a
stack map has frames of a few shapes. A part of a class is *drawn* from a class file if it keeps
within all of these bounds, which are also those of the fields that it is written to.
-/
import ClassTree.Proofs.Pool.Fit
import ClassTree.Proofs.StackMap

namespace ClassTree

open Encoding

/-- The number fits into two bytes without a sign. -/
def IsWord (n : Int) : Prop := 0 ≤ n ∧ n < 0x10000

theorem isWord_ofNat {n : Nat} (h : n < 0x10000) : IsWord n := ⟨by omega, by omega⟩

/-! ## Annotations -/

namespace ElementValue

mutual

/-- A value with one of the ten tags, or of other values that can be counted. -/
def IsDrawn : ElementValue → Prop
  | .scalar tag v => tag ∈ ElementTag.all ∧ v.IsStorable
  | .enum descriptor name => descriptor.IsStorable ∧ name.IsStorable
  | .nested descriptor _ values => descriptor.IsStorable ∧ values.length < 0x10000 ∧ AreDrawnNamed values
  | .array elements => elements.length < 0x10000 ∧ AreDrawn elements

/-- Values in a row. -/
def AreDrawn : List ElementValue → Prop
  | [] => True
  | v :: rest => IsDrawn v ∧ AreDrawn rest

/-- Named values in a row. -/
def AreDrawnNamed : List (Text × ElementValue) → Prop
  | [] => True
  | (name, v) :: rest => name.IsStorable ∧ IsDrawn v ∧ AreDrawnNamed rest

end

theorem areDrawn_iff {vs : List ElementValue} : AreDrawn vs ↔ ∀ v ∈ vs, v.IsDrawn := by
  induction vs with
  | nil => simp [AreDrawn]
  | cons v vs ih => rw [AreDrawn, ih, List.forall_mem_cons]

theorem areDrawnNamed_iff {vs : List (Text × ElementValue)} :
    AreDrawnNamed vs ↔ ∀ p ∈ vs, p.1.IsStorable ∧ p.2.IsDrawn := by
  induction vs with
  | nil => simp [AreDrawnNamed]
  | cons p vs ih => rw [AreDrawnNamed, ih, List.forall_mem_cons, and_assoc]

end ElementValue

/-- An annotation whose values can be counted. -/
structure AnnotationUse.IsDrawn (a : AnnotationUse) : Prop where
  descriptor : a.descriptor.IsStorable
  length : a.values.length < 0x10000
  values : ElementValue.AreDrawnNamed a.values

namespace ElementValue

mutual

/-- Every annotation inside has this visibility. -/
def IsSeen (visible : Bool) : ElementValue → Prop
  | .nested _ visible' values => visible' = visible ∧ AreSeenNamed visible values
  | .array es => AreSeen visible es
  | _ => True

/-- Values in a row. -/
def AreSeen (visible : Bool) : List ElementValue → Prop
  | [] => True
  | v :: rest => IsSeen visible v ∧ AreSeen visible rest

/-- Named values in a row. -/
def AreSeenNamed (visible : Bool) : List (Text × ElementValue) → Prop
  | [] => True
  | (_, v) :: rest => IsSeen visible v ∧ AreSeenNamed visible rest

end

theorem areSeen_iff {visible : Bool} {vs : List ElementValue} :
    AreSeen visible vs ↔ ∀ v ∈ vs, v.IsSeen visible := by
  induction vs with
  | nil => simp [AreSeen]
  | cons v vs ih => rw [AreSeen, ih, List.forall_mem_cons]

theorem areSeenNamed_iff {visible : Bool} {vs : List (Text × ElementValue)} :
    AreSeenNamed visible vs ↔ ∀ p ∈ vs, p.2.IsSeen visible := by
  induction vs with
  | nil => simp [AreSeenNamed]
  | cons p vs ih => rw [AreSeenNamed, ih, List.forall_mem_cons]

end ElementValue

/-- Every annotation inside has the visibility of the whole. -/
def AnnotationUse.IsSeen (a : AnnotationUse) : Prop := ElementValue.AreSeenNamed a.visible a.values

/-! ## Code -/

/-- The texts of an instruction can be stored, and the arguments of a call site can be counted. -/
def Instruction.IsDrawn {τ : Type} : Instruction τ → Prop
  | .constant _ v => v.IsStorable
  | .type _ name | .multiArray name _ => ∀ s ∈ name, s.IsStorable
  | .field _ owner name descriptor | .method _ owner name descriptor _ =>
    (∀ s ∈ owner, s.IsStorable) ∧ name.IsStorable ∧ descriptor.IsStorable
  | .callSite name descriptor bootstrap arguments =>
    (name.IsStorable ∧ descriptor.IsStorable) ∧ bootstrap.IsStorable ∧
      arguments.length < 0x10000 ∧ ∀ a ∈ arguments, a.2.IsStorable
  | _ => True

/-- The name of a class can be stored. -/
def VerificationType.IsDrawn : VerificationType → Prop
  | .object name => ∀ s ∈ name, s.IsStorable
  | _ => True

/-- A frame of one of the shapes of a stack map, with types that can be counted. -/
structure Frame.IsDrawn (f : Frame) : Prop where
  shape : f.HasShape
  one : f.kind = .sameLocals1 ∨ f.kind = .sameLocals1Extended → f.stack ≠ []
  locals : f.locals.length < 0x10000 ∧ ∀ v ∈ f.locals, v.IsDrawn
  stack : f.stack.length < 0x10000 ∧ ∀ v ∈ f.stack, v.IsDrawn

/-- The numbers and texts of an item fit. -/
def Item.IsDrawn : Item → Prop
  | .instruction i => i.IsDrawn
  | .line n => IsWord n
  | .frame f => f.IsDrawn
  | .label _ => True

/-- The texts of a local variable can be stored, and the slot fits. -/
structure LocalVariable.IsDrawn (v : LocalVariable) : Prop where
  name : v.name.IsStorable
  descriptor : ∀ s ∈ v.descriptor, s.IsStorable
  signature : ∀ s ∈ v.signature, s.IsStorable
  slot : IsWord v.slot

/-- The range of a local variable does not stop before it starts. -/
def LocalVariable.IsOrdered (body : List Item) (v : LocalVariable) : Prop :=
  ∃ start stop : Nat, start ≤ stop ∧ body[start]? = some (.label v.start) ∧
    body[stop]? = some (.label v.stop)

/-- Everything about the code of a method fits: its tables can be counted, its numbers fit into two
bytes and its ranges are in order. -/
structure Method.HasDrawnCode (m : Method) : Prop where
  maxima : ∀ sizes ∈ m.maxima, IsWord sizes.stack ∧ IsWord sizes.locals
  given : m.hasCode = true → m.maxima.isSome = true
  items : ∀ i ∈ m.body, i.IsDrawn
  handlers : m.handlers.length < 0x10000 ∧ ∀ h ∈ m.handlers, ∀ s ∈ h.type, s.IsStorable
  locals : ∀ v ∈ m.localVariables, v.IsDrawn ∧ v.IsOrdered m.body
  frames : (ownFrames m.body).length < 0x10000
  lines : ∀ l : Layout, ∀ table ∈ lineTables m.layout.lineTables (linesOf l m.body).size,
    table.length < 0x10000

/-! ## Members -/

/-- An attribute whose name can be stored and whose bytes can be counted. -/
structure Attribute.IsDrawn (a : Attribute) : Prop where
  name : a.name.IsStorable
  length : a.data.length < 0x100000000

/-- A field that keeps within the bounds of a class file. -/
structure Field.IsDrawn (f : Field) : Prop where
  access : IsWord f.access
  name : f.name.IsStorable
  descriptor : f.descriptor.IsStorable
  signature : ∀ s ∈ f.signature, s.IsStorable
  value : ∀ v ∈ f.value, v.IsStorable
  annotations : ∀ a ∈ f.annotations, a.IsDrawn
  attributes : ∀ a ∈ f.attributes, a.IsDrawn

/-- A parameter that keeps within the bounds of a class file. -/
structure Parameter.IsDrawn (p : Parameter) : Prop where
  name : ∀ s ∈ p.name, s.IsStorable
  access : IsWord p.access
  annotations : ∀ a ∈ p.annotations, a.IsDrawn

/-- A method that keeps within the bounds of a class file. A table about all parameters counts them
in one byte. -/
structure Method.IsDrawn (m : Method) : Prop where
  access : IsWord m.access
  name : m.name.IsStorable
  descriptor : m.descriptor.IsStorable
  signature : ∀ s ∈ m.signature, s.IsStorable
  exceptions : m.exceptions.length < 0x10000 ∧ ∀ e ∈ m.exceptions, ∀ s ∈ e, s.IsStorable
  parameters : ∀ p ∈ m.parameters, p.IsDrawn
  visible : m.visibleCount = none → m.parameters.any (Encoding.isAnnotated true) = true →
    m.parameters.length < 0x100
  invisible : m.invisibleCount = none → m.parameters.any (Encoding.isAnnotated false) = true →
    m.parameters.length < 0x100
  named : m.parameterCount = none → m.parameters.any Encoding.isNamed = true →
    m.parameters.length < 0x100
  code : m.HasDrawnCode
  annotations : ∀ a ∈ m.annotations, a.IsDrawn
  default : ∀ v ∈ m.default, v.IsDrawn
  attributes : ∀ a ∈ m.attributes, a.IsDrawn
  codeAttributes : ∀ a ∈ m.codeAttributes, a.IsDrawn

/-! ## Classes -/

/-- A member class that keeps within the bounds of a class file. -/
structure InnerClass.IsDrawn (i : InnerClass) : Prop where
  inner : ∀ s ∈ i.inner, s.IsStorable
  outer : ∀ s ∈ i.outer, s.IsStorable
  name : ∀ s ∈ i.name, s.IsStorable
  access : IsWord i.access

/-- The place of a local class; a method has a name and a descriptor. -/
structure EnclosingMethod.IsDrawn (e : EnclosingMethod) : Prop where
  owner : ∀ s ∈ e.owner, s.IsStorable
  member : ∀ name ∈ e.name, name.IsStorable ∧ ∃ descriptor, e.descriptor = some descriptor ∧
    descriptor.IsStorable

/-- A class that keeps within the bounds of a class file. -/
structure Class.IsDrawn (c : Class) : Prop where
  access : IsWord c.access
  version : IsWord c.major ∧ IsWord c.minor
  name : c.name.IsStorable
  super : ∀ s ∈ c.super, s.IsStorable
  interfaces : c.interfaces.length < 0x10000 ∧ ∀ i ∈ c.interfaces, ∀ s ∈ i, s.IsStorable
  fields : c.fields.length < 0x10000 ∧ ∀ f ∈ c.fields, f.IsDrawn
  methods : c.methods.length < 0x10000 ∧ ∀ m ∈ c.methods, m.IsDrawn
  annotations : ∀ a ∈ c.annotations, a.IsDrawn
  sourceFile : ∀ s ∈ c.sourceFile, s.IsStorable
  signature : ∀ s ∈ c.signature, s.IsStorable
  innerClasses : ∀ i ∈ c.innerClasses, i.IsDrawn
  enclosing : ∀ e ∈ c.enclosing, e.IsDrawn
  attributes : ∀ a ∈ c.attributes, a.IsDrawn
  pool : ∀ e, some e ∈ c.layout.pool → e.IsReadable
  bootstrap : ∀ b ∈ c.layout.bootstrap, b.IsFit

/-! ## Counts -/

namespace Encoding

theorem length_pieceIf (condition : Bool) (name : Text) (content : Encoder Bytes) :
    (pieceIf condition name content).length = condition.toNat := by
  cases condition <;> rfl

theorem length_pieceOf? {α : Type} (name : Text) (content : α → Encoder Bytes) (value : Option α) :
    (pieceOf? name content value).length = value.isSome.toNat := by
  cases value <;> rfl

theorem length_rawPieces (as : List Attribute) : (rawPieces as).length = as.length := List.length_map _

theorem length_annotationPieces (as : List AnnotationUse) : (annotationPieces as).length =
    (!(ofVisibility true as).isEmpty).toNat + (!(ofVisibility false as).isEmpty).toNat := by
  unfold annotationPieces
  rw [List.flatMap_cons, List.flatMap_singleton, List.length_append, length_pieceIf, length_pieceIf]

end Encoding

/-- The attributes of the code of a method can be counted. -/
def Method.HasCountedCode (m : Method) : Prop :=
  ∀ (l : Layout) (place : Text), (codePieces m l place (ownFrames m.body)).length < 0x10000

/-- The attributes of a method and of its code can be counted. -/
structure Method.IsCounted (m : Method) : Prop where
  pieces : (methodPieces [] false false m).length < 0x10000
  code : m.HasCountedCode

/-- The attributes of the members of a class can be counted. -/
structure Class.HasCountedMembers (c : Class) : Prop where
  fields : ∀ f ∈ c.fields, (fieldPieces f).length < 0x10000
  methods : ∀ m ∈ c.methods, m.IsCounted

end ClassTree
