/-
# ClassTree.Proofs.Class.Proper — classes that say what they should

A class file may leave out a class that an instruction needs, give a constant of the wrong kind, or
use the bits of no number; readers let all of that through. A class is *proper* if nothing of the
sort is in it: no name is empty, every class that has to be named is, every constant is of the kind
that its use calls for, and every floating point constant is a number.

Proper classes equal themselves, and they equal what is left of them without their layout.
-/
import ClassTree.Proofs.Class.Sound

namespace ClassTree

open Literal (Kind IsOf)

/-! ## Constants -/

namespace Constant

/-- The constant is no floating point value that stands for no number. -/
def IsNumber : Constant → Prop
  | .float x => x.isNaN = false
  | _ => True

/-- The constant is a number or none at all, and a handle names its class. -/
def IsProper : Constant → Prop
  | .float x => x.isNaN = false
  | .handle h => ∃ owner, h.owner = some owner
  | _ => True

/-- A proper constant is a number or none at all. -/
theorem IsProper.isNumber {v : Constant} (h : v.IsProper) : v.IsNumber := by
  cases v with
  | float x => exact h
  | _ => trivial

/-- A constant that is a number or none at all equals itself. -/
theorem IsNumber.same_self {v : Constant} (h : v.IsNumber) : v.same v = true := by
  cases v with
  | float x =>
    have hx : x.isNaN = false := h
    simp [same, Number.Double.sameValue, hx]
  | _ => simp [same, toInt?]

end Constant

/-! ## Annotations -/

namespace ElementValue

mutual

/-- Every scalar is of the kind of its tag and a number or none at all. -/
def IsProper : ElementValue → Prop
  | .scalar tag v => (∃ kind, Literal.elementKind? tag = some kind ∧ IsOf kind v) ∧ v.IsNumber
  | .enum _ _ => True
  | .nested _ _ values => AreProperNamed values
  | .array elements => AreProper elements

/-- All values are proper. -/
def AreProper : List ElementValue → Prop
  | [] => True
  | v :: rest => IsProper v ∧ AreProper rest

/-- All named values are proper. -/
def AreProperNamed : List (Text × ElementValue) → Prop
  | [] => True
  | (_, v) :: rest => IsProper v ∧ AreProperNamed rest

end

mutual

theorem same_self : ∀ {v : ElementValue}, v.IsProper → v.same v = true
  | .scalar tag v, h => by
    have hv := Constant.IsNumber.same_self h.2
    simp [same, hv]
  | .enum _ _, _ => by simp [same]
  | .nested _ _ values, h => by
    have hvalues : sameNamed values values = true := sameNamed_self h
    simp [same, hvalues]
  | .array elements, h => by
    have helements : sameAll elements elements = true := sameAll_self h
    simp [same, helements]

theorem sameAll_self : ∀ {vs : List ElementValue}, AreProper vs → sameAll vs vs = true
  | [], _ => rfl
  | v :: rest, h => by
    have hfirst := same_self h.1
    have hrest := sameAll_self h.2
    simp [sameAll, hfirst, hrest]

theorem sameNamed_self : ∀ {vs : List (Text × ElementValue)}, AreProperNamed vs →
    sameNamed vs vs = true
  | [], _ => rfl
  | (_, v) :: rest, h => by
    have hfirst := same_self h.1
    have hrest := sameNamed_self h.2
    simp [sameNamed, hfirst, hrest]

end

end ElementValue

namespace AnnotationUse

/-- All values of the annotation are proper. -/
def IsProper (a : AnnotationUse) : Prop := ElementValue.AreProperNamed a.values

theorem IsProper.same_self {a : AnnotationUse} (h : a.IsProper) : a.same a = true := by
  have hvalues := ElementValue.sameNamed_self h
  simp [same, hvalues]

end AnnotationUse

/-! ## Instructions -/

namespace Instruction

variable {τ : Type}

/-- The classes that the instruction needs are named, and a constant is of the kind that is loaded.
-/
def IsProper : Instruction τ → Prop
  | .constant op v => Literal.IsNamed (Literal.loadedKind op v) v ∧ v.IsProper
  | .type _ name => ∃ s, name = some s
  | .field _ owner _ _ => ∃ s, owner = some s
  | .method _ owner _ _ _ => ∃ s, owner = some s
  | .callSite _ _ bootstrap arguments =>
    (∃ s, bootstrap.owner = some s) ∧ ∀ a ∈ arguments, a.2.IsProper
  | .multiArray descriptor _ => ∃ s, descriptor = some s
  | _ => True

theorem IsProper.same_self [DecidableEq τ] {i : Instruction τ} (h : i.IsProper) :
    i.same i = true := by
  cases i with
  | constant op v => simp [same, h.2.isNumber.same_self]
  | callSite name descriptor bootstrap arguments =>
    have harguments : sameArguments arguments arguments = true := by
      simp only [sameArguments, decide_true, Bool.true_and, List.all_eq_true]
      intro p hp
      obtain ⟨a, ha, rfl⟩ : ∃ a ∈ arguments, p = (a, a) := by
        obtain ⟨i, hi, rfl⟩ := List.mem_iff_getElem.1 hp
        simp only [List.length_zip, Nat.min_self] at hi
        exact ⟨arguments[i], List.getElem_mem hi, by simp⟩
      simp [(h.2 a ha).isNumber.same_self]
    simp [same, harguments]
  | _ => simp [same]

end Instruction

namespace Item

/-- The classes that the item needs are named, and its constants are proper. -/
def IsProper : Item → Prop
  | .instruction i => i.IsProper
  | .frame f => ∀ v ∈ f.locals ++ f.stack, v ≠ .object none
  | .label _ | .line _ => True

theorem IsProper.same_self {i : Item} (h : i.IsProper) : i.same i = true := by
  cases i with
  | instruction i => exact Instruction.IsProper.same_self h
  | _ => simp [same]

end Item

/-! ## Members -/

/-- A field whose names are not empty and whose constants are proper. -/
structure Field.IsProper (f : Field) : Prop where
  name : f.name ≠ []
  value : ∀ v ∈ f.value, IsOf (Literal.fieldKind f.descriptor v) v ∧ v.IsNumber
  annotations : ∀ a ∈ f.annotations, a.IsProper
  attributes : ∀ a ∈ f.attributes, a.name ≠ []

/-- A method whose names are not empty, whose constants are proper, and which names all the classes
that it needs. -/
structure Method.IsProper (m : Method) : Prop where
  name : m.name ≠ []
  exceptions : ∀ e ∈ m.exceptions, ∃ s, e = some s
  parameters : ∀ p ∈ m.parameters, ∀ a ∈ p.annotations, AnnotationUse.IsProper a
  items : ∀ i ∈ m.body, i.IsProper
  annotations : ∀ a ∈ m.annotations, a.IsProper
  default : ∀ v ∈ m.default, v.IsProper
  attributes : ∀ a ∈ m.attributes ++ m.codeAttributes, a.name ≠ []

/-- A class whose names are not empty, whose constants are proper, and which names all the classes
that it needs. -/
structure Class.IsProper (c : Class) : Prop where
  name : c.name ≠ []
  interfaces : ∀ i ∈ c.interfaces, ∃ s, i = some s
  fields : ∀ f ∈ c.fields, f.IsProper
  methods : ∀ m ∈ c.methods, m.IsProper
  annotations : ∀ a ∈ c.annotations, a.IsProper
  innerClasses : ∀ i ∈ c.innerClasses, ∃ s, i.inner = some s
  enclosing : ∀ e ∈ c.enclosing, ∃ s, e.owner = some s
  attributes : ∀ a ∈ c.attributes, a.name ≠ []

/-! ## Layout left out -/

/-- The field without its layout. -/
def Field.bare (f : Field) : Field := { f with attributeOrder := [] }

/-- The method without its layout. -/
def Method.bare (m : Method) : Method := { m with layout := {} }

/-- The class without its layout and that of its members. -/
def Class.bare (c : Class) : Class :=
  { c with fields := c.fields.map Field.bare, methods := c.methods.map Method.bare, layout := {} }

/-- Lists are the same if their elements are, one by one. -/
theorem sameList_map {α : Type} (same : α → α → Bool) {f : α → α} {as : List α}
    (h : ∀ a ∈ as, same a (f a) = true) : sameList same as (as.map f) = true := by
  unfold sameList
  simp only [List.length_map, decide_true, Bool.true_and, List.all_eq_true]
  intro p hp
  obtain ⟨i, hi, rfl⟩ := List.mem_iff_getElem.1 hp
  simp only [List.length_zip, List.length_map, Nat.min_self] at hi
  simpa using h as[i] (List.getElem_mem hi)

/-- A list is the same as itself if its elements are. -/
theorem sameList_self {α : Type} (same : α → α → Bool) {as : List α}
    (h : ∀ a ∈ as, same a a = true) : sameList same as as = true := by
  have hmap := sameList_map same (f := id) h
  rwa [List.map_id] at hmap

/-- What may be missing is the same as itself if it is where it is there. -/
theorem sameOption_self {α : Type} (same : α → α → Bool) {a? : Option α}
    (h : ∀ a ∈ a?, same a a = true) : sameOption same a? a? = true := by
  cases a? with
  | none => rfl
  | some a => exact h a rfl

/-- A proper field equals what is left of it without its layout. -/
theorem Field.IsProper.same_bare {f : Field} (h : f.IsProper) : f.same f.bare = true := by
  have hvalue := sameOption_self Constant.same fun v hv => (h.value v hv).2.same_self
  have hannotations := sameList_self AnnotationUse.same fun a ha =>
    (h.annotations a ha).same_self
  simp [same, bare, hvalue, hannotations]

/-- A proper method equals what is left of it without its layout. -/
theorem Method.IsProper.same_bare {m : Method} (h : m.IsProper) : m.same m.bare = true := by
  have hannotations := sameList_self AnnotationUse.same fun a ha =>
    (h.annotations a ha).same_self
  have hparameters : sameList Parameter.same m.parameters m.parameters = true := by
    refine sameList_self _ fun p hp => ?_
    have huses := sameList_self AnnotationUse.same fun a ha =>
      (h.parameters p hp a ha).same_self
    simp [Parameter.same, huses]
  have hbody := sameList_self Item.same fun i hi => (h.items i hi).same_self
  have hdefault := sameOption_self ElementValue.same fun v hv =>
    ElementValue.same_self (h.default v hv)
  simp [same, bare, hannotations, hparameters, hbody, hdefault]

/-- A proper class equals what is left of it without its layout. -/
theorem Class.IsProper.same_bare {c : Class} (h : c.IsProper) : c.same c.bare = true := by
  have hfields := sameList_map Field.same fun f hf => (h.fields f hf).same_bare
  have hmethods := sameList_map Method.same fun m hm => (h.methods m hm).same_bare
  have hannotations := sameList_self AnnotationUse.same fun a ha =>
    (h.annotations a ha).same_self
  simp [same, bare, hfields, hmethods, hannotations]

end ClassTree
