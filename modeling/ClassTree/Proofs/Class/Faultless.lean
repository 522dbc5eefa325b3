/-
# ClassTree.Proofs.Class.Faultless — classes without what only the reader accepts

Each part of a class that is written asks for constants: for texts, for classes, for members. They
are listed here part by part, in no particular order, since a pool answers in any order. A pool is
within *reach* of a class if it comes from that of its layout by adding what the class asks for.

A class file may name no class where one is needed, give a constant of another kind than its use
asks for, or list more in several attributes of one name than one attribute can hold. The reader
takes all of that, and there are no bytes for it. A class is *faultless* if nothing of the sort is
in it and its pool has room for what it asks for.
-/
import ClassTree.Proofs.Pool.Fit

namespace ClassTree

open Encoder Encoding

namespace Encoding

/-! ## What is asked for: lists of additions -/

/-- Texts. -/
def textAsks (texts : List Text) : List (Encoder Nat) := texts.map fun t => pooled (Pool.addUtf8 t)

/-- Classes, which may be missing. -/
def referenceAsks (names : List (Option Text)) : List (Encoder Nat) :=
  names.map fun name => pooled (Pool.addClass name)

/-- The names of attributes. -/
def pieceAsks (pieces : List Piece) : List (Encoder Nat) := textAsks (pieces.map Piece.name)

/-! ## What is asked for: annotations -/

mutual

/-- A value. -/
def elementAsks : ElementValue → List (Encoder Nat)
  | .scalar tag v => [addScalar tag v]
  | .enum descriptor name => textAsks [descriptor, name]
  | .nested descriptor _ values => textAsks [descriptor] ++ namedAsks values
  | .array es => elementsAsks es

/-- Values. -/
def elementsAsks : List ElementValue → List (Encoder Nat)
  | [] => []
  | v :: rest => elementAsks v ++ elementsAsks rest

/-- Named values. -/
def namedAsks : List (Text × ElementValue) → List (Encoder Nat)
  | [] => []
  | (name, v) :: rest => textAsks [name] ++ elementAsks v ++ namedAsks rest

end

/-- An annotation. -/
def annotationAsks (a : AnnotationUse) : List (Encoder Nat) :=
  textAsks [a.descriptor] ++ namedAsks a.values

/-! ## What is asked for: code -/

/-- Adds a call site together with its bootstrap method. -/
def siteIndex (name descriptor : Text) (bootstrap : Handle) (arguments : List (Text × Constant)) :
    Encoder Nat := do
  let arguments ← arguments.mapM fun (kind, value) => addConstant kind value
  let handle ← pooled (Pool.addHandle bootstrap)
  let method ← pooled (Pool.addBootstrap handle arguments)
  pooled (Pool.addInvokeDynamic method name descriptor)

/-- A call site is written as its index and two blanks. -/
theorem callSite_eq (name descriptor : Text) (bootstrap : Handle) (arguments : List (Text × Constant)) :
    callSite name descriptor bootstrap arguments = do
      let i ← siteIndex name descriptor bootstrap arguments
      let i ← u2 i
      return codeByte .invokedynamic :: (i ++ [0, 0]) := by
  simp only [callSite, siteIndex, index, bind_assoc]

/-- An instruction. -/
def instructionAsks : Instruction Label → List (Encoder Nat)
  | .constant op v => [addLoaded op v]
  | .type _ name => referenceAsks [name]
  | .field _ owner name descriptor => [pooled (Pool.addField owner name descriptor)]
  | .method _ owner name descriptor interface => [pooled (Pool.addMethod interface owner name descriptor)]
  | .callSite name descriptor bootstrap arguments => [siteIndex name descriptor bootstrap arguments]
  | .multiArray descriptor _ => referenceAsks [descriptor]
  | _ => []

/-- A verification type. -/
def typeAsks : VerificationType → List (Encoder Nat)
  | .object name => referenceAsks [name]
  | _ => []

/-- An item of a body. -/
def itemAsks : Item → List (Encoder Nat)
  | .instruction i => instructionAsks i
  | .frame f => (f.locals ++ f.stack).flatMap typeAsks
  | .label _ | .line _ => []

/-- A local variable. -/
def variableAsks (v : LocalVariable) : List (Encoder Nat) :=
  textAsks (v.name :: (v.descriptor.toList ++ v.signature.toList))

/-- A layout of nothing. The names of the attributes of code do not depend on a layout. -/
def Layout.blank : Layout := ⟨#[], {}, #[]⟩

/-- The code of a method. -/
def codeAsks (m : Method) : List (Encoder Nat) :=
  m.body.flatMap itemAsks ++ m.handlers.map (fun h => classIndex h.type)
    ++ m.localVariables.flatMap variableAsks
    ++ pieceAsks (codePieces m .blank [] (ownFrames m.body))

/-! ## What is asked for: members and classes -/

/-- A field. -/
def fieldAsks (f : Field) : List (Encoder Nat) :=
  textAsks (f.name :: f.descriptor :: f.signature.toList)
    ++ f.value.toList.map (addFieldConstant f.descriptor)
    ++ f.annotations.flatMap annotationAsks ++ pieceAsks (fieldPieces f)

/-- A parameter. -/
def parameterAsks (p : Parameter) : List (Encoder Nat) :=
  givenName p.name :: p.annotations.flatMap annotationAsks

/-- A method. -/
def methodAsks (m : Method) : List (Encoder Nat) :=
  textAsks (m.name :: m.descriptor :: m.signature.toList) ++ referenceAsks m.exceptions
    ++ m.annotations.flatMap annotationAsks ++ m.parameters.flatMap parameterAsks
    ++ m.default.toList.flatMap elementAsks ++ (if m.hasCode then codeAsks m else [])
    ++ pieceAsks (methodPieces [] false false m)

/-- A member class. -/
def innerClassAsks (i : InnerClass) : List (Encoder Nat) :=
  [pooled (Pool.addClass i.inner), classIndex i.outer, nameIndex i.name]

/-- The method around a local class. -/
def enclosingAsks (e : EnclosingMethod) : List (Encoder Nat) :=
  [givenMember e, pooled (Pool.addClass e.owner)]

end Encoding

namespace Class

/-- Everything that a class asks for. -/
def asks (c : Class) : List (Encoder Nat) :=
  classIndex c.super :: (referenceAsks (some c.name :: c.interfaces)
    ++ c.fields.flatMap fieldAsks ++ c.methods.flatMap methodAsks
    ++ textAsks (c.sourceFile.toList ++ c.signature.toList) ++ c.innerClasses.flatMap innerClassAsks
    ++ c.enclosing.toList.flatMap enclosingAsks ++ c.annotations.flatMap annotationAsks
    ++ pieceAsks (classPieces c true))

/-- The pool that a class is written onto. -/
def seed (c : Class) : Pool := Pool.seeded c.layout.pool c.layout.bootstrap

/-- A pool that comes from that of a class by adding what the class asks for. -/
inductive Reaches (c : Class) : Pool → Prop
  | seed : c.Reaches c.seed
  | add {p q : Pool} {e : Encoder Nat} {i : Nat} (hp : c.Reaches p) (he : e ∈ c.asks)
      (h : e p = .ok (i, q)) : c.Reaches q

end Class

/-! ## Faultless annotations -/

namespace ElementValue

mutual

/-- Every scalar is of the kind of its tag. -/
def IsTyped : ElementValue → Prop
  | .scalar tag v => ∃ kind, Literal.elementKind? tag = some kind ∧ Literal.IsOf kind v
  | .enum _ _ => True
  | .nested _ _ values => AreTypedNamed values
  | .array elements => AreTyped elements

/-- Values in a row. -/
def AreTyped : List ElementValue → Prop
  | [] => True
  | v :: rest => IsTyped v ∧ AreTyped rest

/-- Named values in a row. -/
def AreTypedNamed : List (Text × ElementValue) → Prop
  | [] => True
  | (_, v) :: rest => IsTyped v ∧ AreTypedNamed rest

end

end ElementValue

/-- Annotations of which those of each visibility can be counted, with scalars of the kinds of their
tags. -/
structure AnnotationUse.AreFaultless (as : List AnnotationUse) : Prop where
  length : ∀ visible, (ofVisibility visible as).length < 0x10000
  values : ∀ a ∈ as, ElementValue.AreTypedNamed a.values

/-! ## Faultless code -/

/-- The classes that an instruction needs are named, a constant is of the kind that is loaded, and
the call of an interface method has a descriptor. -/
def Instruction.IsFaultless {τ : Type} : Instruction τ → Prop
  | .constant op v => Literal.IsNamed (Literal.loadedKind op v) v ∧ v.HasOwner
  | .type _ name | .multiArray name _ => ∃ s, name = some s
  | .field _ owner _ _ => ∃ s, owner = some s
  | .method op owner _ descriptor _ =>
    (∃ s, owner = some s) ∧ (op = .invokeinterface → ∃ types, Descriptor.arguments descriptor = .ok types)
  | .callSite _ _ bootstrap arguments =>
    (∃ s, bootstrap.owner = some s) ∧ ∀ a ∈ arguments, a.2.HasOwner
  | _ => True

/-- The classes that an item needs are named, and its constants are of the kinds of their uses. -/
def Item.IsFaultless : Item → Prop
  | .instruction i => i.IsFaultless
  | .frame f => ∀ v ∈ f.locals ++ f.stack, v ≠ .object none
  | .label _ | .line _ => True

/-! ## Attributes -/

/-- Whatever an attribute is written as with some pools, its length can be said. -/
def Encoding.Piece.IsBounded (reached : Pool → Prop) (p : Piece) : Prop :=
  ∀ q bytes q', reached q → p.content q = .ok (bytes, q') → bytes.length < 0x100000000

/-! ## Faultless members -/

/-- The constant of a field is of the kind that its descriptor asks for. -/
def Field.HasTyped (f : Field) (v : Constant) : Prop :=
  Literal.IsOf (Literal.fieldKind f.descriptor v) v ∧
    (f.descriptor = "Ljava/lang/String;" → ∃ t, v = .text t)

/-- A field with a constant that fits its descriptor, and with attributes that are not too much. -/
structure Field.IsFaultless (reached : Pool → Prop) (f : Field) : Prop where
  value : ∀ v ∈ f.value, f.HasTyped v
  annotations : AnnotationUse.AreFaultless f.annotations
  lengths : ∀ p ∈ fieldPieces f, p.IsBounded reached

/-- A method that names the classes that it needs, has constants that fit their uses, and attributes
that are not too much. -/
structure Method.IsFaultless (reached : Pool → Prop) (owner : Text) (m : Method) : Prop where
  exceptions : ∀ e ∈ m.exceptions, ∃ s, e = some s
  items : ∀ i ∈ m.body, i.IsFaultless
  described : (m.localVariables.filterMap LocalVariable.descriptor).length < 0x10000
  signed : (m.localVariables.filterMap LocalVariable.signature).length < 0x10000
  annotations : AnnotationUse.AreFaultless m.annotations
  parameters : ∀ p ∈ m.parameters, AnnotationUse.AreFaultless p.annotations
  default : ∀ v ∈ m.default, v.IsTyped
  lengths : ∀ stackMaps, ∀ p ∈ methodPieces owner false stackMaps m, p.IsBounded reached
  codeLengths : ∀ q l q', reached q → Layout.of m.body q = .ok (l, q') →
    ∀ p ∈ codePieces m l (Flow.Program.placeOf owner m) (ownFrames m.body), p.IsBounded reached

/-! ## Faultless classes -/

/-- A class that names the classes that it needs, has constants that fit their uses, and is not too
much for its pool and for its attributes. -/
structure Class.IsFaultless (c : Class) : Prop where
  interfaces : ∀ i ∈ c.interfaces, ∃ s, i = some s
  fields : ∀ f ∈ c.fields, f.IsFaultless c.Reaches
  methods : ∀ m ∈ c.methods, m.IsFaultless c.Reaches c.name
  annotations : AnnotationUse.AreFaultless c.annotations
  innerClasses : c.innerClasses.length < 0x10000 ∧ ∀ i ∈ c.innerClasses, ∃ s, i.inner = some s
  enclosing : ∀ e ∈ c.enclosing, ∃ s, e.owner = some s
  /-- There is room for a bootstrap table among the attributes. -/
  count : (classPieces c true).length < 0x10000
  lengths : ∀ p ∈ classPieces c true, p.IsBounded c.Reaches
  /-- Two bytes are enough for the indices of the pool, whatever is added of what the class asks
  for. -/
  room : ∀ p, c.Reaches p → p.IsSmall

end ClassTree
