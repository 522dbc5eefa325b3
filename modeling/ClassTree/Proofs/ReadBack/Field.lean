/-
# ClassTree.Proofs.ReadBack.Field — what fields are read back as

A field that has been written is read back with its head, with the single values of its attributes,
and with its annotations of each visibility. Each attribute changes a part of its own, so that the
order in which the attributes stand does not show.
-/
import ClassTree.Proofs.Acceptance.Member
import ClassTree.Proofs.ReadBack.Attributes

namespace ClassTree

open Decoding Encoding Encoder
open ModifiedUtf8 (stored IsPlain isPlain_ofString)

variable {P : Pool} {t : Table}

/-! ## Fields -/

/-- What an attribute of a field changes. -/
inductive Field.Changes (f : Field) (a : Attribute) : Field → Prop
  | value (h : a.name = AttributeName.constantValue) (v : Constant) :
    Changes f a { f with attributeOrder := f.attributeOrder ++ [a.name], value := some v }
  | signature (h : a.name = AttributeName.signature) (s : Text) :
    Changes f a { f with attributeOrder := f.attributeOrder ++ [a.name], signature := some s }
  | annotations (visible : Bool) (h : a.name = AttributeName.annotations visible)
    (as : List AnnotationUse) (has : ∀ b ∈ as, b.visible = visible) (hseen : ∀ b ∈ as, b.IsSeen) :
    Changes f a { f with
      attributeOrder := f.attributeOrder ++ [a.name], annotations := f.annotations ++ as }
  | raw (h : a.name ∉ AttributeName.ofField) :
    Changes f a { f with
      attributeOrder := f.attributeOrder ++ [a.name], attributes := f.attributes ++ [a] }

theorem Decoding.changes_of_readFieldAttribute {a : Attribute} {f f' : Field}
    (h : Outline.whole (readFieldAttribute t a.name a.data.length f) a.data = .ok f') :
    f.Changes a f' := by
  obtain ⟨c, hread, -⟩ := whole_eq_ok_iff.1 h
  unfold readFieldAttribute at hread
  by_cases hvalue : a.name = AttributeName.constantValue
  · rw [if_pos hvalue] at hread
    obtain ⟨i, _, -, hread⟩ := Decoder.bind_eq_ok_iff.1 hread
    obtain ⟨v, _, -, hf⟩ := Decoder.bind_eq_ok_iff.1 hread
    cases hf
    exact .value hvalue v.2
  rw [if_neg hvalue] at hread
  by_cases hsignature : a.name = AttributeName.signature
  · rw [if_pos hsignature] at hread
    obtain ⟨i, _, -, hread⟩ := Decoder.bind_eq_ok_iff.1 hread
    obtain ⟨s, _, -, hf⟩ := Decoder.bind_eq_ok_iff.1 hread
    cases hf
    exact .signature hsignature s
  rw [if_neg hsignature] at hread
  by_cases hvisible : a.name = AttributeName.annotations true
  · rw [if_pos hvisible] at hread
    obtain ⟨as, _, has, hf⟩ := Decoder.bind_eq_ok_iff.1 hread
    cases hf
    exact .annotations true hvisible as (visible_of_readAnnotationUses has)
      (isSeen_of_readAnnotationUses has)
  rw [if_neg hvisible] at hread
  by_cases hinvisible : a.name = AttributeName.annotations false
  · rw [if_pos hinvisible] at hread
    obtain ⟨as, _, has, hf⟩ := Decoder.bind_eq_ok_iff.1 hread
    cases hf
    exact .annotations false hinvisible as (visible_of_readAnnotationUses has)
      (isSeen_of_readAnnotationUses has)
  · rw [if_neg hinvisible] at hread
    obtain ⟨data, _, hdata, hf⟩ := Decoder.bind_eq_ok_iff.1 hread
    cases hf
    obtain rfl := eq_of_bytes hdata
    exact .raw (by simp [AttributeName.ofField, hvalue, hsignature, hvisible, hinvisible])

/-- A field in which nothing can be taken for anything else when it is read. -/
structure Field.IsClear (f : Field) : Prop where
  annotations : ∀ a ∈ f.annotations, a.IsTagged
  raw : ∀ a ∈ f.attributes, a.name ∉ AttributeName.ofField

/-- A field has been read back. -/
structure Field.IsReadBackAs (f r : Field) : Prop where
  access : r.access = f.access
  name : r.name = stored f.name
  descriptor : r.descriptor = stored f.descriptor
  value : r.value = f.value.map fun v => v.readAs stored (fieldConstantKind f.descriptor v)
  signature : r.signature = f.signature.map stored
  annotations : ∀ visible, ofVisibility visible r.annotations =
    (ofVisibility visible f.annotations).map AnnotationUse.stored
  raw : Attribute.AreReadBackAs f.attributes r.attributes

namespace Decoding

theorem concerns_fieldValue :
    Concerns (readFieldAttribute t) Field.value AttributeName.constantValue :=
  fun a s s' hname hread => by
    cases changes_of_readFieldAttribute hread with
    | value h => exact absurd h hname
    | _ => rfl

theorem concerns_fieldSignature :
    Concerns (readFieldAttribute t) Field.signature AttributeName.signature :=
  fun a s s' hname hread => by
    cases changes_of_readFieldAttribute hread with
    | signature h => exact absurd h hname
    | _ => rfl

theorem concerns_fieldAnnotations (visible : Bool) :
    Concerns (readFieldAttribute t) (fun f => ofVisibility visible f.annotations)
      (AttributeName.annotations visible) :=
  fun a s s' hname hread => by
    cases changes_of_readFieldAttribute hread with
    | annotations visible' h as has =>
      exact ofVisibility_append_of_ne has fun heq => hname (heq ▸ h)
    | _ => rfl

/-- The head of a field is no business of its attributes. -/
theorem fieldHead_eq_of_readAll {as : List Attribute} {f f' : Field}
    (h : Attribute.readAll (readFieldAttribute t) as f = .ok f') :
    (f'.access, f'.name, f'.descriptor) = (f.access, f.name, f.descriptor) := by
  refine observe_eq_of_readAll (fun f : Field => (f.access, f.name, f.descriptor)) h ?_
  intro a _ s s' hread
  cases changes_of_readFieldAttribute hread <;> rfl

theorem keepsRaw_readFieldAttribute :
    KeepsRaw (readFieldAttribute t) Field.attributes AttributeName.ofField where
  modelled a s s' hname hread := by
    cases changes_of_readFieldAttribute hread with
    | raw h => exact absurd hname h
    | _ => rfl
  raw a s s' hname hread := by
    cases changes_of_readFieldAttribute hread with
    | raw => rfl
    | value h => exact absurd (by rw [h]; decide) hname
    | signature h => exact absurd (by rw [h]; decide) hname
    | annotations visible h => exact absurd (by rw [h]; cases visible <;> decide) hname

end Decoding

namespace Encoding

theorem isPlain_constantValue : IsPlain AttributeName.constantValue := isPlain_ofString (by decide)

/-- The pieces of a field beside those that it keeps as bytes. -/
def modelledFieldPieces (f : Field) : List Piece :=
  pieceOf? AttributeName.constantValue (fun v => do u2 (← addFieldConstant f.descriptor v)) f.value
    ++ signaturePiece f.signature ++ annotationPieces f.annotations

theorem areNamedIn_modelledFieldPieces (f : Field) :
    AreNamedIn AttributeName.ofField (modelledFieldPieces f) := by
  refine ((AreNamedIn.pieceOf? ?_).append (.pieceOf? ?_)).append (.annotationPieces fun visible => ?_)
  · decide
  · decide
  · cases visible <;> decide

theorem arePiecesAround_fieldPieces {f : Field}
    (hraw : ∀ a ∈ f.attributes, a.name ∉ AttributeName.ofField) :
    ArePiecesAround AttributeName.ofField f.attributes (fieldPieces f) where
  plain n hn := AttributeName.isPlain_of_mem (by simp [hn])
  unknown := hraw
  eq := by
    refine ⟨modelledFieldPieces f, [], (List.append_nil _).symm, ?_⟩
    rw [List.append_nil]
    exact areNamedIn_modelledFieldPieces f

/-- The pieces of a field, by their names. -/
theorem filter_fieldPieces {f : Field} (hraw : ∀ a ∈ f.attributes, a.name ∉ AttributeName.ofField) :
    (fieldPieces f).filter (fun p => p.name = AttributeName.constantValue) =
        pieceOf? AttributeName.constantValue (fun v => do u2 (← addFieldConstant f.descriptor v))
          f.value ∧
      (fieldPieces f).filter (fun p => p.name = AttributeName.signature) = signaturePiece f.signature ∧
      ∀ visible, (fieldPieces f).filter (fun p => p.name = AttributeName.annotations visible) =
        (annotationPieces f.annotations).filter fun p => p.name = AttributeName.annotations visible := by
  unfold fieldPieces signaturePiece
  refine ⟨?_, ?_, fun visible => ?_⟩
  · rw [List.filter_append, List.filter_append, List.filter_append, filter_pieceOf?, filter_pieceOf?,
      filter_annotationPieces_of_ne _ (by decide), filter_rawPieces hraw (by decide), if_pos rfl,
      if_neg (by decide)]
    simp only [List.append_nil]
  · rw [List.filter_append, List.filter_append, List.filter_append, filter_pieceOf?, filter_pieceOf?,
      filter_annotationPieces_of_ne _ (by decide), filter_rawPieces hraw (by decide), if_neg (by decide),
      if_pos rfl]
    simp only [List.append_nil, List.nil_append]
  · rw [List.filter_append, List.filter_append, List.filter_append, filter_pieceOf?, filter_pieceOf?,
      filter_rawPieces hraw (by cases visible <;> decide), if_neg (by cases visible <;> decide),
      if_neg (by cases visible <;> decide)]
    simp only [List.append_nil, List.nil_append]

/-- A field that is clear is read back from what its outline shows: its head as it was, its constant
in the kind that its descriptor asks for, its signature and its annotations, and the attributes that
it brings as bytes. -/
theorem isReadBackAs_of_isReadAsField (ht : Backs stored t P) {f r : Field} (hclear : f.IsClear)
    {o : MemberOutline} (hshows : o.Shows stored P f.name f.descriptor f.access
      (Piece.ordered f.attributeOrder (fieldPieces f))) (hread : o.IsReadAsField t r) :
    f.IsReadBackAs r := by
  obtain ⟨as, hwrites, has⟩ := hshows.attributes
  have h : Attribute.readAll (readFieldAttribute t) (as.map (Attribute.mapName stored))
      { access := o.access, name := o.name, descriptor := o.descriptor } = .ok r := has ▸ hread
  obtain ⟨hvalue, hsignature, hannotations⟩ := filter_fieldPieces hclear.raw
  have hhead := fieldHead_eq_of_readAll h
  have hvalues := observe_of_readAll hwrites h isPlain_constantValue hvalue concerns_fieldValue
    (fun v => some (v.readAs stored (fieldConstantKind f.descriptor v))) fun v _ data s hdata _ => by
      rw [readFieldAttribute_of_lookup _ AttributeName.constantValue _ rfl]
      exact ⟨_, reads_constantValue ht hdata _, rfl⟩
  exact {
    access := (Prod.ext_iff.1 hhead).1.trans hshows.access.symm
    name := (Prod.ext_iff.1 (Prod.ext_iff.1 hhead).2).1.trans hshows.name
    descriptor := (Prod.ext_iff.1 (Prod.ext_iff.1 hhead).2).2.trans hshows.descriptor
    value := by
      rw [hvalues]
      cases f.value <;> rfl
    signature := signature_of_readAll hwrites h ht hsignature concerns_fieldSignature
      (fun s length => ⟨_, fun _ => rfl,
        readFieldAttribute_of_lookup length AttributeName.signature s rfl⟩) rfl
    annotations := fun visible => annotations_of_readPieces hwrites h ht hclear.annotations
      (hannotations visible) (concerns_fieldAnnotations visible)
      (fun s length => ⟨_, fun _ => rfl,
        readFieldAttribute_of_lookup length _ s (lookup_annotations_fieldReaders _ visible)⟩) rfl
    raw := keepsRaw_readFieldAttribute.areReadBackAs (arePiecesAround_fieldPieces hclear.raw) hwrites
      h rfl }

end Encoding

end ClassTree
