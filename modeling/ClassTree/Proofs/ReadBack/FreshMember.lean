/-
# ClassTree.Proofs.ReadBack.FreshMember — fields and methods that are written without hints

Members are read back from a fresh pool as they are, but for their layouts, if they say everything
in the way in which it is written (`bare_eq_of_isReadAsField`, `bare_eq_of_isReadAsMethod`). What is
told of an entity one attribute at a time is stored as it is. What several attributes tell comes in
the order in which attributes are written without hints, and that is the order in which the member
has it.
-/
import ClassTree.Proofs.ReadBack.FreshCode
import ClassTree.Proofs.ReadBack.Hints

namespace ClassTree

open Decoding Encoding Encoder
open AnnotationUse (VisibleFirst)
open Literal (Kind IsOf)
open ModifiedUtf8 (stored IsPlain)

variable {P : Pool} {t : Table}

/-! ## What is proper can be read -/

mutual

/-- A proper value has a tag that there is. -/
theorem ElementValue.IsProper.isTagged : ∀ {v : ElementValue}, v.IsProper → v.IsTagged
  | .scalar tag v, ⟨⟨kind, hkind, _⟩, _⟩ => by
    show (Literal.elementKind? tag).isSome = true
    rw [hkind]
    rfl
  | .enum _ _, _ => trivial
  | .nested _ _ values, h =>
    show ElementValue.AreTaggedNamed values from ElementValue.AreProperNamed.areTaggedNamed h
  | .array elements, h => show ElementValue.AreTagged elements from ElementValue.AreProper.areTagged h

theorem ElementValue.AreProper.areTagged : ∀ {vs : List ElementValue}, ElementValue.AreProper vs →
    ElementValue.AreTagged vs
  | [], _ => trivial
  | _ :: _, h => ⟨h.1.isTagged, ElementValue.AreProper.areTagged h.2⟩

theorem ElementValue.AreProperNamed.areTaggedNamed : ∀ {vs : List (Text × ElementValue)},
    ElementValue.AreProperNamed vs → ElementValue.AreTaggedNamed vs
  | [], _ => trivial
  | (_, _) :: _, h => ⟨h.1.isTagged, ElementValue.AreProperNamed.areTaggedNamed h.2⟩

end

theorem AnnotationUse.IsProper.isTagged {a : AnnotationUse} (h : a.IsProper) : a.IsTagged :=
  ElementValue.AreProperNamed.areTaggedNamed h

/-! ## Annotations and attributes -/

/-- What is read back of annotations in order, if it is in order too. -/
theorem AnnotationUse.VisibleFirst.eq_of_stored {as bs : List AnnotationUse} (has : VisibleFirst as)
    (hbs : VisibleFirst bs) (hproper : ∀ a ∈ as, a.IsProper) (hdrawn : ∀ a ∈ as, a.IsDrawn)
    (hseen : ∀ a ∈ as, a.IsSeen)
    (h : ∀ visible, ofVisibility visible bs = (ofVisibility visible as).map AnnotationUse.stored) :
    bs = as := by
  refine hbs.eq has fun visible => ?_
  rw [h visible]
  have hof {a : AnnotationUse} (ha : a ∈ ofVisibility visible as) : a ∈ as := (List.mem_filter.1 ha).1
  exact AnnotationUse.map_stored_eq (fun a ha => hproper a (hof ha)) (fun a ha => hdrawn a (hof ha))
    fun a ha => hseen a (hof ha)

namespace Encoding

theorem isPlain_annotations (visible : Bool) : IsPlain (AttributeName.annotations visible) :=
  AttributeName.isPlain_of_mem (by cases visible <;> decide)

theorem AreNamedIn.ne {names : List Text} {pieces : List Piece} (h : AreNamedIn names pieces)
    {name : Text}
    (hname : name ∉ names) : ∀ p ∈ pieces, p.name ≠ name :=
  fun p hp heq => hname (heq ▸ h p hp)

/-- What is kept as bytes has no name that is taken apart. -/
theorem ne_of_mem_rawPieces {names : List Text} {as : List Attribute} (h : ∀ a ∈ as, a.name ∉ names)
    {name : Text} (hname : name ∈ names) : ∀ p ∈ rawPieces as, p.name ≠ name := by
  intro p hp heq
  obtain ⟨a, ha, rfl⟩ := List.mem_map.1 hp
  exact h a ha (by rw [show a.name = name from heq]; exact hname)

end Encoding

/-! ## Fields -/

namespace Encoding

/-- The constant of a field of strings is a text. -/
theorem exists_text_of_fixed_addString (ht : Backs stored t P) {v : Constant} {i : Nat}
    (h : Fixed P (addString v) i) : ∃ s, v = .text s := by
  obtain ⟨j, hj, -⟩ := fixed_bind_iff.1 h
  unfold addText at hj
  cases v with
  | text s => exact ⟨s, rfl⟩
  | _ =>
    rw [fixed_add_iff] at hj
    rw [show (Pool.Entry.irregular 1 _).key = Pool.Entry.irregular 1 _ from rfl, ht.regular] at hj
    cases hj

/-- The constant of a field is stored as it is if it is of the kind of the field. -/
theorem readAs_fieldConstant_eq (ht : Backs stored t P) {descriptor : Text} {v : Constant} {i : Nat}
    (h : Fixed P (addFieldConstant descriptor v) i) (hkind : IsOf (Literal.fieldKind descriptor v) v)
    (hnumber : v.IsNumber) (hs : v.IsStorable) :
    v.readAs stored (fieldConstantKind descriptor v) = v := by
  have hpassable : Literal.fieldKind descriptor v ∈ Literal.passable := by
    unfold Literal.fieldKind
    split
    · decide
    split
    · decide
    split
    · decide
    split <;> decide
  have hsame : fieldConstantKind descriptor v = (Literal.fieldKind descriptor v).name := by
    unfold fieldConstantKind
    split
    · next hstring =>
      unfold addFieldConstant at h
      rw [if_pos hstring] at h
      obtain ⟨s, rfl⟩ := exists_text_of_fixed_addString ht h
      subst hstring
      rfl
    · rfl
  rw [hsame]
  exact Constant.readAs_eq_of_isOf hpassable hkind hnumber hs

/-- The visible annotations of a field stand in front of the others. -/
theorem areSplit_fieldPieces {f : Field} (hraw : ∀ a ∈ f.attributes, a.name ∉ AttributeName.ofField) :
    AreSplit AttributeName.annotations (fieldPieces f) := by
  have hfront : AreNamedIn [AttributeName.constantValue, AttributeName.signature]
      (pieceOf? AttributeName.constantValue
          (fun v => do u2 (← addFieldConstant f.descriptor v)) f.value ++
        signaturePiece f.signature) := .append (.pieceOf? (by decide)) (.pieceOf? (by decide))
  exact ((AreSplit.annotationPieces f.annotations).append_left (hfront.ne (by decide))).append_right
    (ne_of_mem_rawPieces hraw (by decide))

/-- A field without a layout is read back as it is. -/
theorem bare_eq_of_isReadAsField (ht : Backs stored t P) {f r : Field} (hproper : f.IsProper)
    (hdrawn : f.IsDrawn) (htold : f.IsTold) (hfirst : VisibleFirst f.annotations) {o : MemberOutline}
    (hshows : o.Shows stored P f.name f.descriptor f.access
      (Piece.ordered f.bare.attributeOrder (fieldPieces f.bare)))
    (hread : o.IsReadAsField t r) : r.bare = f.bare := by
  have hclear : f.bare.IsClear := ⟨fun a ha => (hproper.annotations a ha).isTagged, htold.raw⟩
  have hback : f.bare.IsReadBackAs r := isReadBackAs_of_isReadAsField ht hclear hshows hread
  obtain ⟨as, hwrites, has⟩ := hshows.attributes
  have h : Attribute.readAll (readFieldAttribute t) (as.map (Attribute.mapName stored))
      { access := o.access, name := o.name, descriptor := o.descriptor } = .ok r := has ▸ hread
  have hannotations : r.annotations = f.annotations := by
    refine hfirst.eq_of_stored ?_ hproper.annotations hdrawn.annotations htold.annotations
      hback.annotations
    refine visibleFirst_of_readPieces annotates_field isPlain_annotations ?_ hwrites h rfl
    exact areSplit_fieldPieces htold.raw
  have hattributes : r.attributes = f.attributes := by
    have hraw := keepsRaw_readFieldAttribute.eq_map (arePiecesAround_fieldPieces hclear.raw) hwrites h rfl
    exact hraw.trans (Attribute.map_mapName_eq hdrawn.attributes)
  have hvalue : r.value = f.value := by
    have hvalues : r.value = f.value.map fun v => v.readAs stored (fieldConstantKind f.descriptor v) :=
      hback.value
    cases hv : f.value with
    | none => rw [hvalues, hv, Option.map_none]
    | some v =>
      obtain ⟨hkind, hnumber⟩ := hproper.value v hv
      have hpiece : (⟨AttributeName.constantValue, do u2 (← addFieldConstant f.descriptor v)⟩ : Piece) ∈
          fieldPieces f := by
        unfold fieldPieces
        rw [hv]
        simp [pieceOf?]
      obtain ⟨a, -, -, hdata⟩ := Result.exists_of_mem_left hwrites hpiece
      obtain ⟨i, hi, -⟩ := fixed_bind_iff.1 hdata
      rw [hvalues, hv, Option.map_some,
        readAs_fieldConstant_eq ht hi hkind hnumber (hdrawn.value v hv)]
  have hsignature : r.signature = f.signature :=
    hback.signature.trans (Text.map_stored_eq hdrawn.signature)
  have hname : r.name = f.name := hback.name.trans hdrawn.name.stored_eq
  have hdescriptor : r.descriptor = f.descriptor := hback.descriptor.trans hdrawn.descriptor.stored_eq
  have haccess : r.access = f.access := hback.access
  cases r
  cases f
  dsimp only at *
  subst_vars
  rfl

end Encoding

/-! ## Methods -/

namespace Encoding

variable {owner : Text} {verify stackMaps : Bool} {m : Method}

/-- The visible annotations of a method stand in front of the others. -/
theorem areSplit_methodPieces (hraw : ∀ a ∈ m.attributes, a.name ∉ AttributeName.ofMethod) :
    AreSplit AttributeName.annotations (methodPieces owner verify stackMaps m) := by
  have hfront : AreNamedIn [AttributeName.code, AttributeName.exceptions, AttributeName.signature]
      (pieceIf m.hasCode AttributeName.code (code owner verify stackMaps m) ++
        pieceIf (!m.exceptions.isEmpty) AttributeName.exceptions
          (listOf (fun e => index (Pool.addClass e)) m.exceptions) ++ signaturePiece m.signature) :=
    ((AreNamedIn.pieceIf (by decide)).append (.pieceIf (by decide))).append (.pieceOf? (by decide))
  have hother (name : Text) {condition : Bool} {content : Encoder Bytes}
      (hne : name ≠ AttributeName.annotations true) :
      ∀ p ∈ pieceIf condition name content, p.name ≠ AttributeName.annotations true :=
    fun p hp => name_of_mem_pieceIf p hp ▸ hne
  have hdefault : AreNamedIn [AttributeName.annotationDefault]
      (pieceOf? AttributeName.annotationDefault element m.default) := .pieceOf? (by decide)
  unfold methodPieces parameterAnnotationPiece
  dsimp only
  refine .append_right ?_ (ne_of_mem_rawPieces hraw (by decide))
  refine .append_right ?_ (hother AttributeName.methodParameters (by decide))
  refine .append_right ?_ (hdefault.ne (by decide))
  refine .append_right ?_ (hother (AttributeName.parameterAnnotations false) (by decide))
  refine .append_right ?_ (hother (AttributeName.parameterAnnotations true) (by decide))
  exact (AreSplit.annotationPieces m.annotations).append_left (hfront.ne (by decide))

/-- The visible annotations of its parameters stand in front of the others too. -/
theorem areSplit_parameterPieces (hraw : ∀ a ∈ m.attributes, a.name ∉ AttributeName.ofMethod) :
    AreSplit AttributeName.parameterAnnotations (methodPieces owner verify stackMaps m) := by
  have hfront : AreNamedIn [AttributeName.code, AttributeName.exceptions, AttributeName.signature,
      AttributeName.annotations true, AttributeName.annotations false]
      (pieceIf m.hasCode AttributeName.code (code owner verify stackMaps m) ++
        pieceIf (!m.exceptions.isEmpty) AttributeName.exceptions
          (listOf (fun e => index (Pool.addClass e)) m.exceptions) ++ signaturePiece m.signature ++
        annotationPieces m.annotations) :=
    (((AreNamedIn.pieceIf (by decide)).append (.pieceIf (by decide))).append
      (.pieceOf? (by decide))).append
      (.annotationPieces fun visible => by cases visible <;> decide)
  have hdefault : AreNamedIn [AttributeName.annotationDefault]
      (pieceOf? AttributeName.annotationDefault element m.default) := .pieceOf? (by decide)
  have hnames : AreNamedIn [AttributeName.methodParameters]
      (pieceIf (m.parameterCount.isSome || m.parameters.any isNamed) AttributeName.methodParameters
        (methodParameters (Flow.Program.placeOf owner m) m)) := .pieceIf (by decide)
  have hsplit := AreSplit.pieceIf AttributeName.parameterAnnotations
    (fun visible => (m.annotationCount visible).isSome || m.parameters.any (isAnnotated visible))
    (fun visible =>
      parameterAnnotations (Flow.Program.placeOf owner m) m visible (m.annotationCount visible))
    (by decide)
  unfold methodPieces parameterAnnotationPiece
  dsimp only
  rw [List.append_assoc (_ ++ _ ++ _ ++ annotationPieces _)]
  exact (((hsplit.append_left (hfront.ne (by decide))).append_right
    (hdefault.ne (by decide))).append_right
    (hnames.ne (by decide))).append_right (ne_of_mem_rawPieces hraw (by decide))

end Encoding

/-- A method that says everything in the way in which it is written: no handler catches a class
without a name, no handle on a field says that an interface owns the field, annotations come in
order, and each attribute about parameters has been read once at most. -/
structure Method.IsCanonical (m : Method) : Prop where
  handlers : ∀ h ∈ m.handlers, h.type ≠ some []
  fields : ∀ i, .instruction i ∈ m.body → i.NamesFields
  annotations : VisibleFirst m.annotations
  parameters : ∀ p ∈ m.parameters, VisibleFirst p.annotations
  attributes : ∀ name ∈ AttributeName.ofParameters, m.layout.attributeOrder.count name ≤ 1

/-- The code of a method that has been read is kept, if there is any. -/
def Method.IsKeptIn (P : Pool) (m : Method) : Prop :=
  m.hasCode = true → ∃ r code layout, m.IsKept P r code layout

theorem Method.hasCode_of_mem {m : Method} {i : Item} (h : i ∈ m.body) : m.hasCode = true := by
  unfold Method.hasCode
  rw [List.isEmpty_eq_false_iff_exists_mem.2 ⟨i, h⟩]
  rfl

theorem Method.IsProper.isTagged {m : Method} (h : m.IsProper) : m.IsTagged where
  annotations a ha := (h.annotations a ha).isTagged
  parameters p hp a ha := (h.parameters p hp a ha).isTagged
  default v hv := (h.default v hv).isTagged

/-- The parameters of a method that has no more than its head have no annotations yet. -/
theorem Decoding.annotationsAt_head (o : MemberOutline) (types : List Text) (i : Nat) :
    annotationsAt i (o.head types) = [] := by
  have hnone : ∀ as ∈ (o.head types).parameters.map Parameter.annotations, as = [] := by
    intro as has
    obtain ⟨p, hp, rfl⟩ := List.mem_map.1 has
    obtain ⟨_, -, rfl⟩ := List.mem_map.1 hp
    rfl
  unfold annotationsAt
  cases hat : ((o.head types).parameters.map Parameter.annotations)[i]? with
  | none => rfl
  | some as => exact hnone as (List.mem_of_getElem? hat)

namespace Encoding

section

variable {stackMaps : Bool} {m r : Method} (ht : Backs stored t P) (hsites : HasSites t P)
  (hproper : m.IsProper) (hdrawn : m.IsDrawn) (htold : m.IsTold) (hcanonical : m.IsCanonical)
  (hkept : m.IsKeptIn P)

include hproper htold hkept in
theorem isClear_bare : m.bare.IsClear where
  isTagged := ⟨hproper.isTagged.annotations, hproper.isTagged.parameters, hproper.isTagged.default⟩
  raw := htold.raw
  code hcode := by
    obtain ⟨_, _, _, hsame⟩ := hkept hcode
    exact hsame.hasClearCode

variable {o : MemberOutline} (hshows : o.Shows stored P m.name m.descriptor m.access
    (Piece.ordered m.bare.layout.attributeOrder (methodPieces owner false stackMaps m.bare)))
  (hread : o.IsReadAsMethod t r)
include ht hsites hproper htold hkept hshows hread

theorem isReadBackAs_bare : m.bare.IsReadBackAs owner false stackMaps P r := by
  refine isReadBackAs_of_isReadAsMethod ht hsites (fun i hi => ?_) (isClear_bare hproper htold hkept)
    hshows hread
  obtain ⟨_, _, _, hsame⟩ := hkept (Method.hasCode_of_mem hi)
  exact hsame.loadsShort i hi

include hdrawn hcanonical

/-- Code that is kept is read back as it is. -/
theorem onlyCode_eq_of_isReadAsMethod : r.onlyCode = m.onlyCode := by
  have hname := hdrawn.name.stored_eq
  have hdescriptor := hdrawn.descriptor.stored_eq
  cases hcode : m.hasCode with
  | true =>
    obtain ⟨raw, code, layout, hsame⟩ := hkept hcode
    rcases code_of_isReadAsMethod (m := m.bare) htold.raw hshows hread with
      ⟨hnone, -⟩ | ⟨-, parts, raw', code', c', hwhole, hassemble', heq⟩
    · exact absurd (hnone.symm.trans hcode) (by decide)
    have hsays := hsame.saysAgain ht hsites hproper hdrawn hcanonical.fields hcanonical.handlers parts
      hwhole
    obtain ⟨c, hassemble⟩ := hsame.assembles
    have hassemble' : raw'.assemble { place := m.name ++ m.descriptor } c' = .ok (code', c') := by
      rw [← hname, ← hdescriptor]
      exact hassemble'
    have hcodes := hsays.of_assemble hassemble hassemble'
    obtain ⟨maxima, hmaxima, rfl⟩ := Option.map_eq_some_iff.1 hsame.code?
    rw [heq, hcodes]
    unfold Method.onlyCode
    dsimp only [Method.bare]
    rw [hname, hdescriptor, hmaxima]
  | false =>
    have hback := isReadBackAs_bare ht hsites hproper htold hkept hshows hread
    rw [hback.bodiless hcode, htold.bodiless hcode]
    dsimp only [Method.bare]
    rw [hname, hdescriptor]

/-- The parameters are read back as they are. -/
theorem parameters_eq_of_isReadAsMethod : r.parameters = m.parameters ∧
    r.visibleCount = m.visibleCount ∧ r.invisibleCount = m.invisibleCount ∧
      r.parameterCount = m.parameterCount := by
  have hback := isReadBackAs_bare ht hsites hproper htold hkept hshows hread
  obtain ⟨types, s, htypes, hheads, hwithin, htables⟩ := htold.parameters hcanonical.attributes
  obtain ⟨types', htypes', hheads', htables'⟩ := hback.parameters
  obtain rfl : types' = types := by
    have hsame : Descriptor.arguments m.descriptor = .ok types' := by
      rw [← hdrawn.descriptor.stored_eq]
      exact htypes'
    exact Except.ok.inj (hsame.symm.trans htypes)
  have hstored : m.storedTables = s := htables.storedTables_eq hwithin
    (fun p hp a ha => AnnotationUse.stored_eq (hproper.parameters p hp a ha)
      ((hdrawn.parameters p hp).annotations a ha) (htables.isSeen hwithin hp a ha))
    fun p hp => Text.map_stored_eq (hdrawn.parameters p hp).name
  have htables' : r.HasTables types'.length s := hstored ▸ htables'
  refine ⟨?_, (htables'.annotationCount true).trans (htables.annotationCount true).symm,
    (htables'.annotationCount false).trans (htables.annotationCount false).symm,
    htables'.nameCount.trans htables.nameCount.symm⟩
  have hsame := htables'.sameButOrder htables (hheads'.trans hheads.symm)
  have hfirst : ∀ p ∈ r.parameters, VisibleFirst p.annotations := by
    obtain ⟨as, hwrites, has⟩ := hshows.attributes
    obtain ⟨types, -, h⟩ := hread.attributes
    rw [has] at h
    intro p hp
    obtain ⟨i, hi⟩ := List.mem_iff_getElem?.1 hp
    have hsplit : AreSplit AttributeName.parameterAnnotations
        (methodPieces owner false stackMaps m.bare) :=
      areSplit_parameterPieces (m := m.bare) htold.raw
    have hrow := visibleFirst_of_readPieces (annotates_parameter i)
      AttributeName.isPlain_parameterAnnotations hsplit hwrites h (annotationsAt_head o types i)
    unfold annotationsAt at hrow
    rwa [List.getElem?_map, hi] at hrow
  rw [← List.forall₂_eq_eq_eq]
  have hall := (List.forall₂_and_left _ _).2 ⟨hfirst, hsame⟩
  have hboth := (List.forall₂_and_left _ _).2 ⟨hcanonical.parameters, hall.flip⟩
  refine hboth.flip.imp fun p q ⟨hq, hp, hsame⟩ => ?_
  have hannotations := hp.eq hq hsame.annotations
  rw [← hsame.rest, hannotations]

/-- A method without a layout is read back as it is. -/
theorem bare_eq_of_isReadAsMethod : r.bare = m.bare := by
  have hback := isReadBackAs_bare ht hsites hproper htold hkept hshows hread
  have honly :=
    onlyCode_eq_of_isReadAsMethod ht hsites hproper hdrawn htold hcanonical hkept hshows hread
  obtain ⟨hparameters, hvisible, hinvisible, hcount⟩ :=
    parameters_eq_of_isReadAsMethod ht hsites hproper hdrawn htold hcanonical hkept hshows hread
  obtain ⟨as, hwrites, has⟩ := hshows.attributes
  obtain ⟨types, -, h⟩ := hread.attributes
  rw [has] at h
  have hannotations : r.annotations = m.annotations := by
    refine hcanonical.annotations.eq_of_stored ?_ hproper.annotations hdrawn.annotations htold.annotations
      hback.annotations
    refine visibleFirst_of_readPieces annotates_method isPlain_annotations ?_ hwrites h rfl
    exact areSplit_methodPieces (m := m.bare) htold.raw
  have hattributes : r.attributes = m.attributes := by
    have hraw := keepsRaw_readMethodAttribute.eq_map
      (arePiecesAround_methodPieces (m := m.bare) htold.raw)
      hwrites h rfl
    exact hraw.trans (Attribute.map_mapName_eq hdrawn.attributes)
  have hexceptions : r.exceptions = m.exceptions := by
    refine hback.exceptions.trans ((List.map_congr_left fun e he => ?_).trans (List.map_id _))
    exact Text.map_stored_eq (hdrawn.exceptions.2 e he)
  have hdefault : r.default = m.default := by
    have hvalue : r.default = m.default.map (ElementValue.stored true) := hback.default
    cases hv : m.default with
    | none => rw [hvalue, hv, Option.map_none]
    | some v =>
      have hsame :=
        ElementValue.stored_eq (hproper.default v hv) (hdrawn.default v hv) (htold.default v hv)
      rw [hvalue, hv, Option.map_some, hsame]
  have hsignature : r.signature = m.signature :=
    hback.signature.trans (Text.map_stored_eq hdrawn.signature)
  have hname : r.name = m.name := hback.name.trans hdrawn.name.stored_eq
  have hdescriptor : r.descriptor = m.descriptor := hback.descriptor.trans hdrawn.descriptor.stored_eq
  have haccess : r.access = m.access := hback.access
  unfold Method.onlyCode at honly
  rw [Method.mk.injEq] at honly
  cases r
  cases m
  simp_all [Method.bare]

end

end Encoding

end ClassTree
