/-
# ClassTree.Proofs.Encoding.Whole — classes whose texts are whole

Reading joins a high surrogate with a low one right behind it. A class is *whole* if none of its
texts has such a pair in it, so that each of them is read back as it is. The texts in a pool that
has been written with are those of the class, those that its pool was seeded with, and the names of
attributes. So the pool of a whole class has whole texts only: an encoder of a whole thing adds
nothing else.
-/
import ClassTree.Proofs.Acceptance.StackMap
import ClassTree.Proofs.Decoding.Raw
import ClassTree.Proofs.ElementCodec
import ClassTree.Proofs.Encoding.ClassFile
import ClassTree.Proofs.Pool.Seed

namespace ClassTree

/-! ## Whole classes -/

/-- The texts of a handle are whole. -/
structure Handle.IsWhole (h : Handle) : Prop where
  owner : ∀ s ∈ h.owner, s.IsWhole
  name : h.name.IsWhole
  descriptor : h.descriptor.IsWhole

/-- The texts of a constant are whole. -/
def Constant.IsWhole : Constant → Prop
  | .text s | .reference s | .methodType s => s.IsWhole
  | .handle h => h.IsWhole
  | _ => True

/-- The texts of an instruction are whole. -/
def Instruction.IsWhole {τ : Type} : Instruction τ → Prop
  | .constant _ v => v.IsWhole
  | .type _ name | .multiArray name _ => ∀ s ∈ name, s.IsWhole
  | .field _ owner name descriptor | .method _ owner name descriptor _ =>
    (∀ s ∈ owner, s.IsWhole) ∧ name.IsWhole ∧ descriptor.IsWhole
  | .callSite name descriptor bootstrap arguments =>
    name.IsWhole ∧ descriptor.IsWhole ∧ bootstrap.IsWhole ∧ ∀ a ∈ arguments, a.2.IsWhole
  | _ => True

/-- The name in a verification type is whole. -/
def VerificationType.IsWhole (v : VerificationType) : Prop := ∀ s, v.payload = .name s → s.IsWhole

/-- The texts of an item are whole. -/
def Item.IsWhole : Item → Prop
  | .instruction i => i.IsWhole
  | .frame f => ∀ v ∈ f.locals ++ f.stack, v.IsWhole
  | _ => True

/-- The texts of an annotation are whole. -/
structure AnnotationUse.IsWhole (a : AnnotationUse) : Prop where
  descriptor : a.descriptor.IsWhole
  values : ElementValue.AreWholeNamed a.values

/-- The texts of a local variable are whole. -/
structure LocalVariable.IsWhole (v : LocalVariable) : Prop where
  name : v.name.IsWhole
  descriptor : ∀ s ∈ v.descriptor, s.IsWhole
  signature : ∀ s ∈ v.signature, s.IsWhole

/-- The texts of a field are whole. -/
structure Field.IsWhole (f : Field) : Prop where
  name : f.name.IsWhole
  descriptor : f.descriptor.IsWhole
  signature : ∀ s ∈ f.signature, s.IsWhole
  value : ∀ v ∈ f.value, v.IsWhole
  annotations : ∀ a ∈ f.annotations, a.IsWhole
  attributes : ∀ a ∈ f.attributes, a.name.IsWhole

/-- The texts of a method are whole. -/
structure Method.IsWhole (m : Method) : Prop where
  name : m.name.IsWhole
  descriptor : m.descriptor.IsWhole
  signature : ∀ s ∈ m.signature, s.IsWhole
  exceptions : ∀ e ∈ m.exceptions, ∀ s ∈ e, s.IsWhole
  names : ∀ p ∈ m.parameters, ∀ s ∈ p.name, s.IsWhole
  parameters : ∀ p ∈ m.parameters, ∀ a ∈ p.annotations, a.IsWhole
  items : ∀ i ∈ m.body, i.IsWhole
  handlers : ∀ h ∈ m.handlers, ∀ s ∈ h.type, s.IsWhole
  localVariables : ∀ v ∈ m.localVariables, v.IsWhole
  annotations : ∀ a ∈ m.annotations, a.IsWhole
  default : ∀ v ∈ m.default, v.IsWhole
  attributes : ∀ a ∈ m.attributes, a.name.IsWhole
  codeAttributes : ∀ a ∈ m.codeAttributes, a.name.IsWhole

/-- The texts of an entry in the list of inner classes are whole. -/
structure InnerClass.IsWhole (i : InnerClass) : Prop where
  inner : ∀ s ∈ i.inner, s.IsWhole
  outer : ∀ s ∈ i.outer, s.IsWhole
  name : ∀ s ∈ i.name, s.IsWhole

/-- The texts of an enclosing method are whole. -/
structure EnclosingMethod.IsWhole (e : EnclosingMethod) : Prop where
  owner : ∀ s ∈ e.owner, s.IsWhole
  name : ∀ s ∈ e.name, s.IsWhole
  descriptor : ∀ s ∈ e.descriptor, s.IsWhole

/-- No text of the class has a high surrogate right before a low one. -/
structure Class.IsWhole (c : Class) : Prop where
  name : c.name.IsWhole
  super : ∀ s ∈ c.super, s.IsWhole
  interfaces : ∀ i ∈ c.interfaces, ∀ s ∈ i, s.IsWhole
  signature : ∀ s ∈ c.signature, s.IsWhole
  sourceFile : ∀ s ∈ c.sourceFile, s.IsWhole
  annotations : ∀ a ∈ c.annotations, a.IsWhole
  innerClasses : ∀ i ∈ c.innerClasses, i.IsWhole
  enclosing : ∀ e ∈ c.enclosing, e.IsWhole
  attributes : ∀ a ∈ c.attributes, a.name.IsWhole
  fields : ∀ f ∈ c.fields, f.IsWhole
  methods : ∀ m ∈ c.methods, m.IsWhole

namespace Encoder

open Pool (Grows)

/-- Whole texts and all bootstrap methods. -/
def wholeTexts : Pool.Scope := ⟨Text.IsWhole, True⟩

variable {α β : Type}

/-- An encoder adds no text to the pool that is not whole. -/
class AddsWhole (e : Encoder α) : Prop where
  grows : ∀ {p q : Pool} {a : α}, e p = .ok (a, q) → Grows wholeTexts p q

/-! ## Encoders in general -/

instance addsWhole_pure (a : α) : AddsWhole (pure a : Encoder α) where
  grows := by
    rintro p q b ⟨⟩
    exact .refl

instance addsWhole_bind (x : Encoder α) (f : α → Encoder β) [hx : AddsWhole x]
    [hf : ∀ a, AddsWhole (f a)] : AddsWhole (x >>= f) where
  grows := by
    intro p q b h
    obtain ⟨a, p', hxp, hfp⟩ := bind_eq_ok_iff.1 h
    exact (hx.grows hxp).trans ((hf a).grows hfp)

/-- Of two encoders in a row the second one may rely on what the first one has given. -/
theorem addsWhole_bind_of_ok {x : Encoder α} {f : α → Encoder β} (hx : AddsWhole x)
    (hf : ∀ a p q, x p = .ok (a, q) → AddsWhole (f a)) : AddsWhole (x >>= f) where
  grows := by
    intro p q b h
    obtain ⟨a, p', hxp, hfp⟩ := bind_eq_ok_iff.1 h
    exact (hx.grows hxp).trans ((hf a p p' hxp).grows hfp)

instance addsWhole_throw (e : Error) : AddsWhole (throw e : Encoder α) where
  grows := nofun

instance addsWhole_lift (r : Result α) : AddsWhole (liftM r : Encoder α) where
  grows := by
    intro p q a h
    obtain ⟨-, rfl⟩ := lift_eq_ok_iff.1 h
    exact .refl

instance addsWhole_ite (c : Prop) [Decidable c] (x y : Encoder α) [hx : AddsWhole x]
    [hy : AddsWhole y] : AddsWhole (if c then x else y) := by
  split
  · exact hx
  · exact hy

/-- Adding an entry that is no text, or a whole one. -/
theorem addsWhole_add_of_allowed {e : Pool.Entry} (he : e.Allowed wholeTexts) :
    AddsWhole (pooled (Pool.add e)) where
  grows := by
    intro p q i h
    have hinsert : p.insert e = (i, q) := Except.ok.inj h
    have hgrows : Grows wholeTexts p (p.insert e).2 := Grows.refl.entry he
    rwa [hinsert] at hgrows

instance addsWhole_addBootstrap (handle : Nat) (arguments : List Nat) :
    AddsWhole (pooled (Pool.addBootstrap handle arguments)) where
  grows := by
    intro p q i h
    have hinsert : p.insertBootstrap ⟨handle, arguments⟩ = (i, q) := Except.ok.inj h
    have hgrows : Grows wholeTexts p (p.insertBootstrap ⟨handle, arguments⟩).2 :=
      Grows.refl.bootstrap trivial _
    rwa [hinsert] at hgrows

instance addsWhole_pooled_bind (x : StateM Pool α) (f : α → StateM Pool β) [AddsWhole (pooled x)]
    [∀ a, AddsWhole (pooled (f a))] : AddsWhole (pooled (x >>= f)) := by
  rw [pooled_bind]
  infer_instance

instance addsWhole_fit (bytes? : Option Bytes) : AddsWhole (fit bytes?) := by
  unfold fit
  split <;> infer_instance

instance addsWhole_u1 (n : Int) : AddsWhole (u1 n) := addsWhole_fit _

instance addsWhole_u2 (n : Int) : AddsWhole (u2 n) := addsWhole_fit _

instance addsWhole_u4 (n : Int) : AddsWhole (u4 n) := addsWhole_fit _

instance addsWhole_s1 (n : Int) : AddsWhole (s1 n) := addsWhole_fit _

instance addsWhole_s2 (n : Int) : AddsWhole (s2 n) := addsWhole_fit _

instance addsWhole_s4 (n : Int) : AddsWhole (s4 n) := addsWhole_fit _

instance addsWhole_index (m : StateM Pool Nat) [AddsWhole (pooled m)] : AddsWhole (index m) := by
  unfold index
  infer_instance

/-- Things in a row, none of which adds another text. -/
theorem addsWhole_mapM {each : α → Encoder β} {things : List α}
    (h : ∀ a ∈ things, AddsWhole (each a)) : AddsWhole (things.mapM each) := by
  induction things with
  | nil =>
    rw [List.mapM_nil]
    infer_instance
  | cons a things ih =>
    rw [List.mapM_cons]
    have := h a (by simp)
    have := ih fun b hb => h b (by simp [hb])
    infer_instance

theorem addsWhole_all {each : α → Encoder Bytes} {things : List α}
    (h : ∀ a ∈ things, AddsWhole (each a)) : AddsWhole (all each things) := by
  have := addsWhole_mapM h
  unfold all
  infer_instance

theorem addsWhole_listOf {each : α → Encoder Bytes} {things : List α}
    (h : ∀ a ∈ things, AddsWhole (each a)) : AddsWhole (listOf each things) := by
  have := addsWhole_all h
  unfold listOf
  infer_instance

/-! ## Entries -/

/-- A text that is whole is added. -/
instance addsWhole_addUtf8 (s : Text) [hs : Fact s.IsWhole] : AddsWhole (pooled (Pool.addUtf8 s)) :=
  addsWhole_add_of_allowed hs.out

theorem addsWhole_add {e : Pool.Entry} (he : e.Allowed .all) (htext : ∀ s, e ≠ .utf8 s) :
    AddsWhole (pooled (Pool.add e)) := by
  refine addsWhole_add_of_allowed ?_
  cases e with
  | utf8 s => exact absurd rfl (htext s)
  | irregular => exact he
  | _ => trivial

/-- Texts that may be missing are whole. -/
abbrev AreWhole (name : Option Text) : Prop := ∀ s ∈ name, s.IsWhole

instance addsWhole_addName (name : Option Text) [hname : Fact (AreWhole name)] :
    AddsWhole (pooled (Pool.addName name)) := by
  cases name with
  | none => exact addsWhole_add (.inl rfl) nofun
  | some s =>
    have : Fact s.IsWhole := ⟨hname.out s rfl⟩
    exact addsWhole_addUtf8 s

instance addsWhole_addClass (name : Option Text) [Fact (AreWhole name)] :
    AddsWhole (pooled (Pool.addClass name)) := by
  have (n : Nat) : AddsWhole (pooled (Pool.add (.type n))) := addsWhole_add trivial nofun
  unfold Pool.addClass
  infer_instance

instance addsWhole_addMethodType (descriptor : Text) [Fact descriptor.IsWhole] :
    AddsWhole (pooled (Pool.addMethodType descriptor)) := by
  have (n : Nat) : AddsWhole (pooled (Pool.add (.methodType n))) := addsWhole_add trivial nofun
  unfold Pool.addMethodType
  infer_instance

instance addsWhole_addNameAndType (name : Text) (descriptor : Option Text) [Fact name.IsWhole]
    [Fact (AreWhole descriptor)] : AddsWhole (pooled (Pool.addNameAndType name descriptor)) := by
  have (a b : Nat) : AddsWhole (pooled (Pool.add (.nameAndType a b))) := addsWhole_add trivial nofun
  unfold Pool.addNameAndType
  infer_instance

/-- A text that is there. -/
instance fact_areWhole_some (s : Text) [hs : Fact s.IsWhole] : Fact (AreWhole (some s)) where
  out := by
    rintro _ ⟨⟩
    exact hs.out

/-- A member is added with its class, its name and its descriptor. -/
theorem addsWhole_addMember {make : Nat → Nat → Pool.Entry}
    (hmake : ∀ a b, AddsWhole (pooled (Pool.add (make a b)))) (owner : Option Text)
    (name descriptor : Text) [Fact (AreWhole owner)] [Fact name.IsWhole] [Fact descriptor.IsWhole] :
    AddsWhole (pooled (Pool.addMember make owner name descriptor)) := by
  unfold Pool.addMember
  infer_instance

instance addsWhole_addField (owner : Option Text) (name descriptor : Text) [Fact (AreWhole owner)]
    [Fact name.IsWhole] [Fact descriptor.IsWhole] :
    AddsWhole (pooled (Pool.addField owner name descriptor)) := by
  refine addsWhole_addMember (fun a b => ?_) owner name descriptor
  exact addsWhole_add trivial nofun

instance addsWhole_addMethod (interface : Bool) (owner : Option Text) (name descriptor : Text)
    [Fact (AreWhole owner)] [Fact name.IsWhole] [Fact descriptor.IsWhole] :
    AddsWhole (pooled (Pool.addMethod interface owner name descriptor)) := by
  refine addsWhole_addMember (fun a b => ?_) owner name descriptor
  cases interface <;> exact addsWhole_add trivial nofun

instance addsWhole_addHandle (h : Handle) [hh : Fact h.IsWhole] :
    AddsWhole (pooled (Pool.addHandle h)) := by
  have : Fact (AreWhole h.owner) := ⟨hh.out.owner⟩
  have : Fact h.name.IsWhole := ⟨hh.out.name⟩
  have : Fact h.descriptor.IsWhole := ⟨hh.out.descriptor⟩
  have (n : Nat) : AddsWhole (pooled (Pool.add (.methodHandle h.kind n))) :=
    addsWhole_add trivial nofun
  unfold Pool.addHandle
  split <;> infer_instance

instance addsWhole_addInvokeDynamic (bootstrap : Nat) (name descriptor : Text) [Fact name.IsWhole]
    [Fact descriptor.IsWhole] :
    AddsWhole (pooled (Pool.addInvokeDynamic bootstrap name descriptor)) := by
  have (n : Nat) : AddsWhole (pooled (Pool.add (.invokeDynamic bootstrap n))) :=
    addsWhole_add trivial nofun
  unfold Pool.addInvokeDynamic
  infer_instance

end Encoder

namespace Encoding

open Encoder
open Pool (Grows)

/-! ## Constants -/

instance addsWhole_addInteger (v : Constant) : AddsWhole (addInteger v) := by
  have (n : Int) : AddsWhole (pooled (Pool.add (.integer n))) := addsWhole_add trivial nofun
  unfold addInteger
  infer_instance

instance addsWhole_addLong (v : Constant) : AddsWhole (addLong v) := by
  unfold addLong
  split
  · exact addsWhole_add trivial nofun
  · exact addsWhole_add (.inr rfl) nofun

instance addsWhole_addFloat (v : Constant) : AddsWhole (addFloat v) := by
  have (x : Number.Single) : AddsWhole (pooled (Pool.add (.float x))) := addsWhole_add trivial nofun
  unfold addFloat
  infer_instance

instance addsWhole_addDouble (v : Constant) : AddsWhole (addDouble v) := by
  have (x : Number.Double) : AddsWhole (pooled (Pool.add (.double x))) := addsWhole_add trivial nofun
  unfold addDouble
  infer_instance

/-- A constant in the place of a text. -/
theorem addsWhole_addText {v : Constant} (hv : ∀ s, v = .text s → s.IsWhole) :
    AddsWhole (addText v) := by
  cases v with
  | text s =>
    have : Fact s.IsWhole := ⟨hv s rfl⟩
    exact addsWhole_addUtf8 s
  | _ =>
    refine addsWhole_add (.inl rfl) ?_
    rintro s ⟨⟩

theorem isWhole_of_text {v : Constant} (hv : v.IsWhole) : ∀ s, v = .text s → s.IsWhole := by
  rintro s rfl
  exact hv

instance addsWhole_addString (v : Constant) [hv : Fact v.IsWhole] : AddsWhole (addString v) := by
  have := addsWhole_addText (isWhole_of_text hv.out)
  have (n : Nat) : AddsWhole (pooled (Pool.add (.string n))) := addsWhole_add trivial nofun
  unfold addString
  infer_instance

instance addsWhole_addConstant (kind : Text) (v : Constant) [hv : Fact v.IsWhole] :
    AddsWhole (addConstant kind v) := by
  unfold addConstant
  split
  · split
    · next h =>
      have : Fact h.IsWhole := ⟨hv.out⟩
      infer_instance
    · infer_instance
  · split
    · infer_instance
    · infer_instance
    · infer_instance
    · infer_instance
    · infer_instance
    · next name _ =>
      have : Fact name.IsWhole := ⟨hv.out⟩
      infer_instance
    · next descriptor _ =>
      have : Fact descriptor.IsWhole := ⟨hv.out⟩
      infer_instance
    · infer_instance

instance addsWhole_addLoaded (op : Opcode) (v : Constant) [Fact v.IsWhole] :
    AddsWhole (addLoaded op v) := by
  unfold addLoaded
  split <;> infer_instance

instance addsWhole_addFieldConstant (descriptor : Text) (v : Constant) [Fact v.IsWhole] :
    AddsWhole (addFieldConstant descriptor v) := by
  unfold addFieldConstant
  infer_instance

/-! ## Annotations -/

instance addsWhole_tagByte (tag : ElementTag) : AddsWhole (tagByte tag) := by
  unfold tagByte
  split <;> infer_instance

theorem addsWhole_addScalar (tag : ElementTag) {v : Constant} (hv : ∀ s, v = .text s → s.IsWhole) :
    AddsWhole (addScalar tag v) := by
  have := addsWhole_addText hv
  unfold addScalar
  split <;> infer_instance

mutual

theorem addsWhole_element (v : ElementValue) (hv : v.IsWhole) : AddsWhole (element v) := by
  cases v with
  | scalar tag v =>
    have := addsWhole_addScalar tag hv
    unfold element
    infer_instance
  | enum descriptor name =>
    have : Fact descriptor.IsWhole := ⟨hv.1⟩
    have : Fact name.IsWhole := ⟨hv.2⟩
    unfold element
    infer_instance
  | nested descriptor visible values =>
    have : Fact descriptor.IsWhole := ⟨hv.1⟩
    have := addsWhole_named values [] hv.2
    unfold element
    infer_instance
  | array es =>
    have := addsWhole_elements es [] hv
    unfold element
    infer_instance

theorem addsWhole_elements (es : List ElementValue) (acc : List Bytes)
    (hes : ElementValue.AreWhole es) : AddsWhole (elements es acc) := by
  cases es with
  | nil =>
    unfold elements
    infer_instance
  | cons v rest =>
    have := addsWhole_element v hes.1
    have := fun part => addsWhole_elements rest (part :: acc) hes.2
    unfold elements
    infer_instance

theorem addsWhole_named (values : List (Text × ElementValue)) (acc : List Bytes)
    (hvalues : ElementValue.AreWholeNamed values) : AddsWhole (named values acc) := by
  match values with
  | [] =>
    unfold named
    infer_instance
  | (name, v) :: rest =>
    have : Fact name.IsWhole := ⟨hvalues.1⟩
    have := addsWhole_element v hvalues.2.1
    have := fun part => addsWhole_named rest (part :: acc) hvalues.2.2
    unfold named
    infer_instance

end

theorem addsWhole_annotationUses {as : List AnnotationUse} (has : ∀ a ∈ as, a.IsWhole)
    (visible : Bool) : AddsWhole (annotationUses (ofVisibility visible as)) := by
  refine addsWhole_listOf fun a ha => ?_
  have hwhole := has a (List.mem_filter.1 ha).1
  have : Fact a.descriptor.IsWhole := ⟨hwhole.descriptor⟩
  have := addsWhole_named a.values [] hwhole.values
  unfold annotationUse
  infer_instance

/-! ## Attributes -/

/-- The name of a piece is whole, and so is what its content adds. -/
structure Piece.AddsWhole (p : Piece) : Prop where
  name : p.name.IsWhole
  content : Encoder.AddsWhole p.content

/-- All pieces are of this sort. -/
def WholePieces (pieces : List Piece) : Prop := ∀ p ∈ pieces, p.AddsWhole

/-- Attributes are written of such pieces in any order. -/
theorem WholePieces.attributes {pieces : List Piece} (h : WholePieces pieces) (order : List Text) :
    AddsWhole (attributes pieces order) := by
  have : AddsWhole (all Piece.encode (Piece.ordered order pieces)) := addsWhole_all fun p hp => by
    have hp := h p ((ordered_perm order pieces).mem_iff.1 hp)
    have : Fact p.name.IsWhole := ⟨hp.name⟩
    have := hp.content
    unfold Piece.encode
    infer_instance
  unfold Encoding.attributes
  infer_instance

namespace WholePieces

variable {pieces pieces' : List Piece} {name : Text}

theorem append (h : WholePieces pieces) (h' : WholePieces pieces') : WholePieces (pieces ++ pieces') :=
  fun p hp => (List.mem_append.1 hp).elim (h p) (h' p)

theorem pieceIf (hname : name.IsWhole) {condition : Bool} {content : Encoder Bytes}
    (hcontent : AddsWhole content) : WholePieces (Encoding.pieceIf condition name content) := by
  intro p hp
  unfold Encoding.pieceIf at hp
  split at hp
  · obtain rfl := List.mem_singleton.1 hp
    exact ⟨hname, hcontent⟩
  · cases hp

theorem pieceOf? (hname : name.IsWhole) {α : Type} {content : α → Encoder Bytes} {value : Option α}
    (hcontent : ∀ a ∈ value, AddsWhole (content a)) :
    WholePieces (Encoding.pieceOf? name content value) := by
  intro p hp
  cases value with
  | none => cases hp
  | some a =>
    obtain rfl := List.mem_singleton.1 hp
    exact ⟨hname, hcontent a rfl⟩

theorem raw {as : List Attribute} (has : ∀ a ∈ as, a.name.IsWhole) : WholePieces (rawPieces as) := by
  intro p hp
  obtain ⟨a, ha, rfl⟩ := List.mem_map.1 hp
  exact ⟨has a ha, addsWhole_pure a.data⟩

theorem annotations {as : List AnnotationUse} (has : ∀ a ∈ as, a.IsWhole) :
    WholePieces (annotationPieces as) := by
  intro p hp
  obtain ⟨visible, -, hp⟩ := List.mem_flatMap.1 hp
  refine pieceIf ?_ (addsWhole_annotationUses has visible) p hp
  cases visible <;> decide

theorem signature {signature : Option Text} (h : AreWhole signature) :
    WholePieces (signaturePiece signature) := by
  refine pieceOf? (by decide) fun s hs => ?_
  have : Fact s.IsWhole := ⟨h s hs⟩
  infer_instance

end WholePieces

/-! ## Code -/

instance addsWhole_roomOf (i : Instruction Label) [hi : Fact i.IsWhole] : AddsWhole (roomOf i) := by
  unfold roomOf
  split
  case h_5 op v =>
    have : Fact v.IsWhole := ⟨hi.out⟩
    infer_instance
  all_goals infer_instance

theorem addsWhole_layoutOf {body : List Item} (hbody : ∀ i ∈ body, i.IsWhole) :
    AddsWhole (Layout.of body) := by
  have : AddsWhole (roomsOf body) := by
    unfold roomsOf
    refine addsWhole_mapM fun item hitem => ?_
    have hwhole := hbody item hitem
    cases item with
    | instruction i =>
      have : Fact i.IsWhole := ⟨hwhole⟩
      exact addsWhole_roomOf i
    | _ => exact addsWhole_pure _
  unfold Layout.of
  infer_instance

instance addsWhole_jump (op : Opcode) (isFar : Bool) (distance : Int) :
    AddsWhole (jump op isFar distance) := by
  unfold jump
  split
  · infer_instance
  · split
    · split <;> infer_instance
    · infer_instance

/-- A whole instruction adds nothing but whole texts to the pool, at whatever offset it is written.
The offset decides about blanks in a switch and about the form of a jump, neither of which asks the
pool for anything. -/
theorem addsWhole_operation (offset : Nat) (isFar : Bool) {i : Instruction Int} (hi : i.IsWhole) :
    AddsWhole (operation offset isFar i) := by
  cases i with
  | immediate op n =>
    unfold operation
    dsimp only
    split <;> infer_instance
  | constant op v =>
    have : Fact v.IsWhole := ⟨hi⟩
    unfold operation loadConstant
    infer_instance
  | type op name =>
    have : Fact (AreWhole name) := ⟨hi⟩
    unfold operation
    infer_instance
  | field op owner name descriptor =>
    have : Fact (AreWhole owner) := ⟨hi.1⟩
    have : Fact name.IsWhole := ⟨hi.2.1⟩
    have : Fact descriptor.IsWhole := ⟨hi.2.2⟩
    unfold operation
    infer_instance
  | method op owner name descriptor interface =>
    have : Fact (AreWhole owner) := ⟨hi.1⟩
    have : Fact name.IsWhole := ⟨hi.2.1⟩
    have : Fact descriptor.IsWhole := ⟨hi.2.2⟩
    unfold operation call
    infer_instance
  | callSite name descriptor bootstrap arguments =>
    have : Fact name.IsWhole := ⟨hi.1⟩
    have : Fact descriptor.IsWhole := ⟨hi.2.1⟩
    have : Fact bootstrap.IsWhole := ⟨hi.2.2.1⟩
    have : AddsWhole (arguments.mapM fun a => addConstant a.1 a.2) := addsWhole_mapM fun a ha => by
      have : Fact a.2.IsWhole := ⟨hi.2.2.2 a ha⟩
      infer_instance
    unfold operation callSite
    infer_instance
  | tableSwitch low high otherwise targets =>
    have : AddsWhole (all (fun t => s4 (t - offset)) targets) := addsWhole_all fun _ _ => inferInstance
    unfold operation
    infer_instance
  | lookupSwitch otherwise keys targets =>
    have : AddsWhole (all (fun p : Int × Int => do return (← s4 p.1) ++ (← s4 (p.2 - offset)))
      (keys.zip targets)) := addsWhole_all fun _ _ => inferInstance
    unfold operation
    infer_instance
  | multiArray descriptor dimensions =>
    have : Fact (AreWhole descriptor) := ⟨hi⟩
    unfold operation
    infer_instance
  | _ =>
    unfold operation
    infer_instance

/-- Placing the targets of an instruction leaves its texts and the pool as they are. -/
theorem isWhole_of_mapTargets {l : Layout} {i : Instruction Label} (hi : i.IsWhole) {j : Instruction Int}
    {p q : Pool} (h : (i.mapTargets fun label => return (← l.resolve label : Nat) :
      Encoder (Instruction Int)) p = .ok (j, q)) : j.IsWhole ∧ Grows wholeTexts p q := by
  have hgrows : AddsWhole (i.mapTargets fun label => return (← l.resolve label : Nat) :
      Encoder (Instruction Int)) := by
    have : AddsWhole (i.targets.mapM fun label => return (← l.resolve label : Nat) :
        Encoder (List Int)) := addsWhole_mapM fun _ _ => inferInstance
    cases i with
    | tableSwitch low high otherwise targets =>
      have : AddsWhole (targets.mapM fun label => return (← l.resolve label : Nat) :
        Encoder (List Int)) := addsWhole_mapM fun _ _ => inferInstance
      unfold Instruction.mapTargets
      infer_instance
    | lookupSwitch otherwise keys targets =>
      have : AddsWhole (targets.mapM fun label => return (← l.resolve label : Nat) :
        Encoder (List Int)) := addsWhole_mapM fun _ _ => inferInstance
      unfold Instruction.mapTargets
      infer_instance
    | _ =>
      unfold Instruction.mapTargets
      infer_instance
  refine ⟨?_, hgrows.grows h⟩
  cases i with
  | jump op target =>
    obtain ⟨_, _, -, h⟩ := bind_eq_ok_iff.1 h
    cases h
    trivial
  | tableSwitch low high otherwise targets =>
    obtain ⟨_, _, -, h⟩ := bind_eq_ok_iff.1 h
    obtain ⟨_, _, -, h⟩ := bind_eq_ok_iff.1 h
    cases h
    trivial
  | lookupSwitch otherwise keys targets =>
    obtain ⟨_, _, -, h⟩ := bind_eq_ok_iff.1 h
    obtain ⟨_, _, -, h⟩ := bind_eq_ok_iff.1 h
    cases h
    trivial
  | _ =>
    cases h
    exact hi

/-- The instructions of a whole body are written. -/
theorem addsWhole_operations (l : Layout) (place : Text) {body : List Item}
    (hbody : ∀ i ∈ body, i.IsWhole) : AddsWhole (operations l place body) := by
  refine addsWhole_all fun p hp => ⟨fun {p₁ p₃ bytes} h => ?_⟩
  obtain ⟨item, position⟩ := p
  have hwhole := hbody item (List.mem_of_getElem? (List.mem_zipIdx_iff_getElem?.1 hp))
  cases item with
  | instruction i =>
    obtain ⟨j, p₂, hj, h⟩ := bind_eq_ok_iff.1 h
    obtain ⟨hj, hgrows⟩ := isWhole_of_mapTargets hwhole hj
    exact hgrows.trans ((addsWhole_operation _ _ hj).grows (naming_eq_ok_iff.1 h))
  | _ => exact (addsWhole_pure []).grows h

theorem addsWhole_place (l : Layout) (v : VerificationType) (tag : Bytes) :
    AddsWhole (match v.payload with
    | .site (.position p) => do return tag ++ (← u2 (l.offset p))
    | .site (.label label) => do return tag ++ (← u2 (← l.resolve label))
    | _ => throw (.undefined .kind) : Encoder Bytes) := by
  split <;> infer_instance

/-- The class of an object, or a place instead of it, is added. -/
theorem addsWhole_objectIndex {payload : Payload} (hpayload : ∀ n, payload = .name n → n.IsWhole) :
    AddsWhole (objectIndex payload) := by
  have htype (n : Nat) : AddsWhole (pooled (Pool.add (.type n))) :=
    addsWhole_add trivial fun _ h => by cases h
  have hplace (v : Constant) : AddsWhole (pooled (Pool.add (.irregular 1 [v]))) :=
    addsWhole_add (.inl rfl) fun _ h => by cases h
  unfold objectIndex
  cases payload with
  | name n =>
    have : Fact n.IsWhole := ⟨hpayload n rfl⟩
    infer_instance
  | none =>
    have : Fact (AreWhole none) := ⟨fun _ h => by cases h⟩
    infer_instance
  | site place => cases place <;> infer_instance

theorem addsWhole_verificationType (l : Layout) {v : VerificationType} (hv : v.IsWhole) :
    AddsWhole (verificationType l v) := by
  have hobject := addsWhole_objectIndex hv
  have hplace := addsWhole_place l v
  unfold verificationType
  infer_instance

theorem addsWhole_frame (l : Layout) (place : Text) (position distance : Nat) {f : Frame}
    (hf : ∀ v ∈ f.locals ++ f.stack, v.IsWhole) : AddsWhole (frame l place position distance f) := by
  have hstack : ∀ v ∈ f.stack, AddsWhole (verificationType l v) := fun v hv =>
    addsWhole_verificationType l (hf v (List.mem_append_right _ hv))
  have hlocals : ∀ v ∈ f.locals, AddsWhole (verificationType l v) := fun v hv =>
    addsWhole_verificationType l (hf v (List.mem_append_left _ hv))
  have : AddsWhole (stackItem l f) := by
    unfold stackItem
    split
    · next heq => exact hstack _ (by simp [heq])
    · infer_instance
  have := addsWhole_all hlocals
  have := addsWhole_listOf hlocals
  have := addsWhole_listOf hstack
  unfold frame
  split <;> infer_instance

theorem addsWhole_framesFrom (l : Layout) (place : Text) (next : Nat) {frames : List (Nat × Frame)}
    (hframes : ∀ f ∈ frames, ∀ v ∈ f.2.locals ++ f.2.stack, v.IsWhole) (acc : List Bytes) :
    AddsWhole (framesFrom l place next frames acc) := by
  induction frames generalizing next acc with
  | nil =>
    unfold framesFrom
    infer_instance
  | cons head rest ih =>
    obtain ⟨position, f⟩ := head
    have (distance : Nat) := addsWhole_frame l place position distance (hframes _ List.mem_cons_self)
    have (next : Nat) (acc : List Bytes) := ih next
      (fun f hf => hframes f (List.mem_cons_of_mem _ hf)) acc
    unfold framesFrom
    infer_instance

/-- An entry of a table of local variables is written. -/
theorem addsWhole_localVariable (l : Layout) {v : LocalVariable} (hv : v.IsWhole) {type : Text}
    (htype : type.IsWhole) : AddsWhole (localVariable l v type) := by
  have : Fact v.name.IsWhole := ⟨hv.name⟩
  have : Fact type.IsWhole := ⟨htype⟩
  unfold localVariable
  infer_instance

theorem addsWhole_classIndex {name : Option Text} (hname : AreWhole name) :
    AddsWhole (classIndex name) := by
  have : Fact (AreWhole name) := ⟨hname⟩
  unfold classIndex
  split <;> infer_instance

/-- A name that may be missing is added. -/
theorem addsWhole_nameIndex {name : Option Text} (hname : AreWhole name) :
    AddsWhole (nameIndex name) := by
  unfold nameIndex
  split
  · next c rest =>
    have : Fact (Text.IsWhole (c :: rest)) := ⟨hname _ rfl⟩
    infer_instance
  · infer_instance

section Members

variable {m : Method} (hm : m.IsWhole)
include hm

theorem wholePieces_localVariablePiece (l : Layout) {name : Text} (hname : name.IsWhole)
    {typeOf : LocalVariable → Option Text}
    (htype : ∀ v ∈ m.localVariables, ∀ s ∈ typeOf v, s.IsWhole) :
    WholePieces (localVariablePiece name l typeOf m.localVariables) := by
  refine .pieceIf hname (addsWhole_listOf fun p hp => ?_)
  obtain ⟨v, hv, heq⟩ := List.mem_filterMap.1 hp
  obtain ⟨s, hs, rfl⟩ := Option.map_eq_some_iff.1 heq
  exact addsWhole_localVariable l (hm.localVariables v hv) (htype v hv s hs)

/-- The attributes of whole code are written, with frames of its own. -/
theorem wholePieces_codePieces (l : Layout) (place : Text) :
    WholePieces (codePieces m l place (ownFrames m.body)) := by
  refine (((WholePieces.append ?lines ?described).append ?signatures).append ?frames).append
    (.raw hm.codeAttributes)
  case lines =>
    intro p hp
    obtain ⟨table, -, rfl⟩ := List.mem_map.1 hp
    refine ⟨by show AttributeName.lineNumbers.IsWhole; decide, addsWhole_listOf fun _ _ => ?_⟩
    infer_instance
  case described =>
    exact wholePieces_localVariablePiece hm l (by decide) fun v hv => (hm.localVariables v hv).descriptor
  case signatures =>
    exact wholePieces_localVariablePiece hm l (by decide) fun v hv => (hm.localVariables v hv).signature
  case frames =>
    have : AddsWhole (framesFrom l place 0 (ownFrames m.body) []) :=
      addsWhole_framesFrom l place 0 (fun f hf => by
      obtain ⟨⟨item, position⟩, hitem, heq⟩ := List.mem_filterMap.1 hf
      have hmem := List.mem_of_getElem? (List.mem_zipIdx_iff_getElem?.1 hitem)
      cases item with
      | frame f' =>
        cases heq
        exact hm.items _ hmem
      | _ => cases heq) []
    refine .pieceIf (by decide) ?_
    unfold stackMap
    infer_instance

/-- Code that is not verified is written. -/
theorem addsWhole_code (owner : Text) (stackMaps : Bool) : AddsWhole (code owner false stackMaps m) := by
  have := addsWhole_layoutOf hm.items
  have (l : Layout) (place : Text) := addsWhole_operations l place hm.items
  have (l : Layout) : AddsWhole (listOf (handler l) m.handlers) := addsWhole_listOf fun h hh => by
    have := addsWhole_classIndex (hm.handlers h hh)
    rw [handler_eq]
    infer_instance
  have (l : Layout) (place : Text) := (wholePieces_codePieces hm l place).attributes m.layout.codeOrder
  have (place : Text) (bytes : Bytes) : AddsWhole (checkLength place bytes) := by
    unfold checkLength
    infer_instance
  rw [code_eq]
  refine addsWhole_bind_of_ok inferInstance fun _ _ _ _ => addsWhole_bind_of_ok inferInstance
    fun l _ _ _ => addsWhole_bind_of_ok inferInstance fun r _ _ hr => ?_
  -- without verification the frames are those of the body
  obtain ⟨sizes, frames⟩ := r
  have hframes := frames_eq_of_verified (lift_eq_ok_iff.1 hr).1
  simp only [Bool.false_eq_true, false_and, or_false] at hframes
  rw [hframes]
  infer_instance

theorem addsWhole_parameterAnnotations (place : Text) (visible : Bool) (given : Option Int) :
    AddsWhole (parameterAnnotations place m visible given) := by
  have (skipped : Nat) : AddsWhole (all (fun p => annotationUses (ofVisibility visible p.annotations))
      (m.parameters.drop skipped)) := addsWhole_all fun p hp =>
    addsWhole_annotationUses (hm.parameters p (List.mem_of_mem_drop hp)) visible
  have (count : Int) : AddsWhole (countByte count) := addsWhole_u1 count
  unfold parameterAnnotations
  refine addsWhole_bind_of_ok inferInstance fun count _ _ _ => ?_
  dsimp only
  split <;> infer_instance

/-- The names and flags of parameters are written. -/
theorem addsWhole_methodParameters (place : Text) : AddsWhole (methodParameters place m) := by
  have (count : Nat) : AddsWhole (all parameter (m.parameters.take count)) := addsWhole_all fun p hp => by
    have hname := hm.names p (List.mem_of_mem_take hp)
    have : AddsWhole (givenName p.name) := by
      unfold givenName
      split
      · next n heq =>
        have : Fact n.IsWhole := ⟨hname n heq⟩
        infer_instance
      · infer_instance
    rw [parameter_eq]
    infer_instance
  have (count : Int) : AddsWhole (countByte count) := addsWhole_u1 count
  unfold methodParameters
  refine addsWhole_bind_of_ok inferInstance fun count _ _ _ => ?_
  split <;> infer_instance

theorem addsWhole_method (owner : Text) (stackMaps : Bool) :
    AddsWhole (method owner false stackMaps m) := by
  have hpieces : WholePieces (methodPieces owner false stackMaps m) := by
    refine (((((((WholePieces.append (.pieceIf (by decide) (addsWhole_code hm owner stackMaps))
      (.pieceIf (by decide) ?exceptions)).append (.signature hm.signature)).append
      (.annotations hm.annotations)).append (.pieceIf (by decide) ?_)).append
      (.pieceIf (by decide) ?_)).append (.pieceOf? (by decide) ?default)).append
      (.pieceIf (by decide) (addsWhole_methodParameters hm _))).append (.raw hm.attributes)
    case exceptions =>
      refine addsWhole_listOf fun e he => ?_
      have : Fact (AreWhole e) := ⟨hm.exceptions e he⟩
      infer_instance
    case default => exact fun v hv => addsWhole_element v (hm.default v hv)
    all_goals exact addsWhole_parameterAnnotations hm _ _ _
  have := hpieces.attributes m.layout.attributeOrder
  have : Fact m.name.IsWhole := ⟨hm.name⟩
  have : Fact m.descriptor.IsWhole := ⟨hm.descriptor⟩
  unfold method memberHead
  infer_instance

end Members

theorem addsWhole_field {f : Field} (hf : f.IsWhole) : AddsWhole (field f) := by
  have hpieces : WholePieces (fieldPieces f) := by
    refine (((WholePieces.pieceOf? (by decide) ?value).append (.signature hf.signature)).append
      (.annotations hf.annotations)).append (.raw hf.attributes)
    intro v hv
    have : Fact v.IsWhole := ⟨hf.value v hv⟩
    infer_instance
  have := hpieces.attributes f.attributeOrder
  have : Fact f.name.IsWhole := ⟨hf.name⟩
  have : Fact f.descriptor.IsWhole := ⟨hf.descriptor⟩
  unfold field memberHead
  infer_instance

/-! ## Class files -/

theorem addsWhole_bootstrapTable : AddsWhole bootstrapTable where
  grows := by
    intro p q a h
    rw [bootstrapTable_apply] at h
    have heach : ∀ b ∈ p.bootstrap.toList, AddsWhole (bootstrapMethod b) := fun b _ => by
      have : AddsWhole (listOf (fun i : Nat => u2 i) b.arguments) :=
        addsWhole_listOf fun _ _ => inferInstance
      unfold bootstrapMethod
      infer_instance
    exact (addsWhole_listOf heach).grows h

/-- The attributes of a whole class are written. -/
theorem wholePieces_classPieces {c : Class} (hc : c.IsWhole) (bootstrap : Bool) :
    WholePieces (classPieces c bootstrap) := by
  refine (((((WholePieces.append (.pieceOf? (by decide) ?sourceFile)
    (.pieceIf (by decide) ?innerClasses)).append (.pieceOf? (by decide) ?enclosing)).append
    (.signature hc.signature)).append (.annotations hc.annotations)).append (.raw hc.attributes)).append
    (.pieceIf (by decide) addsWhole_bootstrapTable)
  case sourceFile =>
    intro s hs
    have : Fact s.IsWhole := ⟨hc.sourceFile s hs⟩
    infer_instance
  case innerClasses =>
    refine addsWhole_listOf fun i hi => ?_
    have hwhole := hc.innerClasses i hi
    have : Fact (AreWhole i.inner) := ⟨hwhole.inner⟩
    have := addsWhole_classIndex hwhole.outer
    have := addsWhole_nameIndex hwhole.name
    unfold innerClass
    infer_instance
  case enclosing =>
    intro e he
    have hwhole := hc.enclosing e he
    have : Fact (AreWhole e.owner) := ⟨hwhole.owner⟩
    have : Fact (AreWhole e.descriptor) := ⟨hwhole.descriptor⟩
    have : AddsWhole (givenMember e) := by
      unfold givenMember
      split
      · next n heq =>
        have : Fact n.IsWhole := ⟨hwhole.name n heq⟩
        infer_instance
      · infer_instance
    rw [enclosingMethod_eq]
    infer_instance

/-- Everything behind the pool of a whole class is written, without verification. -/
theorem addsWhole_body {c : Class} (hc : c.IsWhole) : AddsWhole (body false c) := by
  have := addsWhole_listOf fun f hf => addsWhole_field (hc.fields f hf)
  have (stackMaps : Bool) := addsWhole_listOf fun m hm =>
    addsWhole_method (hc.methods m hm) c.name stackMaps
  have : AddsWhole (listOf (fun i => index (Pool.addClass i)) c.interfaces) :=
    addsWhole_listOf fun i hi => by
      have : Fact (AreWhole i) := ⟨hc.interfaces i hi⟩
      infer_instance
  have := addsWhole_classIndex hc.super
  have : Fact c.name.IsWhole := ⟨hc.name⟩
  have (bootstrap : Bool) := (wholePieces_classPieces hc bootstrap).attributes c.layout.attributeOrder
  have : AddsWhole (get : Encoder Pool) := ⟨by rintro p q a ⟨⟩; exact .refl⟩
  unfold body
  infer_instance

/-- The texts in the pool of a whole class are whole. -/
theorem isWhole_of_mem_pool {c : Class} (hc : c.IsWhole) (hseed : Pool.IsSeed c.layout.pool)
    {bytes : Bytes} (w : Written false c bytes) {s : Text} (hs : some (.utf8 s) ∈ w.pool.entries) :
    s.IsWhole := by
  have hrun : classFile false c (Pool.seeded c.layout.pool c.layout.bootstrap) = .ok (bytes, w.pool) :=
    w.run
  obtain ⟨_, _, _, _, behind, -, -, -, -, hbody, -⟩ := classFile_eq_ok hrun
  rcases ((addsWhole_body hc).grows hbody).mem_entries hs with hseeded | hallowed
  · exact Pool.isRead_of_mem_seeded hseed hseeded
  · exact hallowed

end Encoding

end ClassTree
