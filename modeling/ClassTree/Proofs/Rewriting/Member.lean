/-
# ClassTree.Proofs.Rewriting.Member — members that are written as they were

A member that has been read names its attributes in the order in which they stood, and each of those
that were taken apart tells again what it was written for. So it is written by the bytes that it was
read from.
-/
import ClassTree.Proofs.Rewriting.Code

namespace ClassTree

open Decoding Encoding Encoder
open ModifiedUtf8 (stored)

variable {P : Pool} {t : Table} {bytes : Bytes}

/-! ## Members -/

namespace Encoding

theorem Piece.Writes.unique {p : Piece} {a b : Attribute} (ha : p.Writes P a) (hb : p.Writes P b) :
    a = b := by
  obtain ⟨name, data⟩ := a
  obtain ⟨name', data'⟩ := b
  obtain rfl : name = name' := ha.1.trans hb.1.symm
  obtain rfl : data = data' := ha.2.unique hb.2
  rfl

/-- The bytes of a member are those of its head and of the attributes that its outline shows. -/
theorem exists_of_shows (hP : P.KeepsTexts) {access : Int} {name descriptor : Text} {pieces : List Piece}
    {order : List Text} (hsteady : SteadyPieces pieces) {o : MemberOutline}
    (hshows : o.Shows stored P name descriptor access (Piece.ordered order pieces))
    (h : Fixed P (do
      let head ← memberHead access name descriptor
      return head ++ (← attributes pieces order)) bytes) :
    ∃ head rest, Fixed P (memberHead access name descriptor) head ∧
      List.Forall₂ (Piece.Writes P) (Piece.ordered order pieces) o.attributes ∧
      AreAttributes P o.attributes rest ∧ bytes = head ++ rest ∧ stored name = name ∧
      stored descriptor = descriptor := by
  obtain ⟨head, rest, as, hhead, hwrites, has, rfl⟩ := isMember_of_fixed hsteady h
  obtain ⟨as', hwrites', hshown⟩ := hshows.attributes
  obtain rfl := List.right_unique_forall₂' (fun _ _ _ ha hb => ha.unique hb) hwrites hwrites'
  rw [has.map_mapName hP] at hshown
  rw [hshown]
  have hnames := hhead
  unfold memberHead at hnames
  simp only [fixed_bind_iff, fixed_addUtf8_iff] at hnames
  obtain ⟨i, hi, j, hj, -⟩ := hnames
  exact ⟨head, rest, hhead, hwrites, has, rfl, hP hi, hP hj⟩

/-- Classes in a row are read back as they are. -/
theorem map_stored_of_fixed_classNames (hP : P.KeepsTexts) {names : List (Option Text)}
    (h : Fixed P (listOf (fun name => index (Pool.addClass name)) names) bytes) :
    names.map (Option.map stored) = names := by
  obtain ⟨count, -, parts, hparts, -⟩ := fixed_listOf_iff.1 h
  refine (List.map_congr_left fun name hname => ?_).trans (List.map_id names)
  obtain ⟨part, -, hpart⟩ := Result.exists_of_mem_left hparts hname
  obtain ⟨i, hi, -⟩ := fixed_index_iff.1 hpart
  exact map_stored_of_fixed_addClass hP hi

/-- A member is its head and its attributes. -/
theorem fixed_member {access : Int} {name descriptor : Text} {pieces : List Piece} {order : List Text}
    (hsteady : SteadyPieces pieces) {as : List Attribute} {head rest : Bytes}
    (hhead : Fixed P (memberHead access name descriptor) head)
    (hwrites : List.Forall₂ (Piece.Writes P) (Piece.ordered order pieces) as)
    (has : AreAttributes P as rest) :
    Fixed P (do
      let head ← memberHead access name descriptor
      return head ++ (← attributes pieces order)) (head ++ rest) := by
  have := steady_attributes hsteady order
  have hattributes := (fixed_attributes_iff fun p hp => (hsteady p hp).toGrowing).2 ⟨as, hwrites, has⟩
  exact fixed_bind_iff.2 ⟨head, hhead, fixed_bind_iff.2 ⟨rest, hattributes, fixed_pure_iff.2 rfl⟩⟩

end Encoding

/-! ## Fields -/

namespace Encoding

/-- The constant of a field is written as it was. -/
theorem fixed_addFieldConstant_readAs (ht : Backs stored t P) (hP : P.KeepsTexts) {descriptor : Text}
    {v : Constant} {i : Nat} (h : Fixed P (addFieldConstant descriptor v) i) :
    Fixed P (addFieldConstant descriptor (v.readAs stored (fieldConstantKind descriptor v))) i := by
  unfold addFieldConstant fieldConstantKind at *
  by_cases hstring : descriptor = "Ljava/lang/String;"
  · rw [if_pos hstring] at h ⊢
    rw [if_pos hstring, readAs_of_fixed_addString ht hP h]
    exact h
  · rw [if_neg hstring] at h ⊢
    rw [if_neg hstring]
    have hkind : Literal.fieldKind descriptor (v.readAs stored (Literal.fieldKind descriptor v).name) =
        Literal.fieldKind descriptor v := by
      unfold Literal.fieldKind
      by_cases hlong : descriptor = "J"
      · rw [if_pos hlong, if_pos hlong]
      by_cases hfloat : descriptor = "F"
      · rw [if_neg hlong, if_neg hlong, if_pos hfloat, if_pos hfloat]
      by_cases hdouble : descriptor = "D"
      · rw [if_neg hlong, if_neg hlong, if_neg hfloat, if_neg hfloat, if_pos hdouble, if_pos hdouble]
      rw [if_neg hlong, if_neg hlong, if_neg hfloat, if_neg hfloat, if_neg hdouble, if_neg hdouble]
      -- a text stays one, and what is no text becomes an integer if it becomes anything
      have hint (v : Constant) : v.readAs stored Literal.Kind.int.name = v ∨
          ∃ n, v.readAs stored Literal.Kind.int.name = .int n := by
        cases hn : integerOf v with
        | ok n => exact .inr ⟨n, Constant.readAs_int hn⟩
        | error e => exact .inl (Constant.readAs_int_of_error hn)
      cases v with
      | text => rfl
      | _ =>
        dsimp only
        rcases hint _ with hsame | ⟨n, hint⟩
        · rw [hsame]
        · rw [hint]
    rw [hkind]
    exact fixed_addConstant_readAs ht hP h

/-- A field is written as it was. If the bytes of a field are written for it, they are also written
for what is read of them: attributes come in the order that the field remembers, each with its own
content. -/
theorem fixed_field_again (ht : Backs stored t P) (hP : P.KeepsTexts) {f r : Field} (hclear : f.IsClear)
    {o : MemberOutline} (hshows : o.Shows stored P f.name f.descriptor f.access
      (Piece.ordered f.attributeOrder (fieldPieces f))) (hread : o.IsReadAsField t r)
    (h : Fixed P (field f) bytes) : Fixed P (field r) bytes := by
  obtain ⟨head, rest, hhead, hwrites, has, rfl, hname, hdescriptor⟩ :=
    exists_of_shows hP (steady_fieldPieces f) hshows h
  have hback := isReadBackAs_of_isReadAsField ht hclear hshows hread
  have horder : r.attributeOrder = o.attributes.map Attribute.name :=
    order_of_readAll (fun _ _ _ h => by cases changes_of_readFieldAttribute h <;> rfl) hread
  have hraw : r.attributes = o.attributes.filter fun a => a.name ∉ AttributeName.ofField :=
    keepsRaw_readFieldAttribute.observe_eq hread
  have hpieces : List.Forall₂ (Piece.Rewrites P o.attributes) (modelledFieldPieces f)
      (modelledFieldPieces r) := by
    refine List.rel_append (List.rel_append ?_ ?_) ?_
    · refine forall₂_rewrites_pieceOf? _ hback.value fun v _ a _ _ hwrite => ?_
      obtain ⟨i, hi, hindex⟩ := fixed_bind_iff.1 hwrite
      refine fixed_bind_iff.2 ⟨i, ?_, hindex⟩
      rw [hback.descriptor, hdescriptor]
      exact fixed_addFieldConstant_readAs ht hP hi
    · exact forall₂_rewrites_signaturePiece hP hback.signature
    · exact forall₂_rewrites_annotationPieces ht hP hclear.annotations hback.annotations
  have hagain := forall₂_writes_front hwrites (areNamedIn_modelledFieldPieces f) hclear.raw hpieces
  rw [← horder, ← hraw] at hagain
  refine fixed_member (steady_fieldPieces r) ?_ hagain has
  rw [hback.access, hback.name, hback.descriptor, hname, hdescriptor]
  exact hhead

end Encoding

/-! ## Methods -/

namespace Encoding

/-- Where two pieces of one name may be left out, both are if one is, and both are written alike. -/
theorem forall₂_rewrites_of_written {as bs : List Attribute} {name : Text} {condition condition' : Bool}
    {content content' : Encoder Bytes} (hmem : ∀ a ∈ as, a.name = name → a ∈ bs)
    (h : List.Forall₂ (fun p (a : Attribute) => Fixed P p.content a.data)
      (pieceIf condition name content) bs)
    (h' : List.Forall₂ (fun p (a : Attribute) => Fixed P p.content a.data)
      (pieceIf condition' name content')
      bs) :
    List.Forall₂ (Piece.Rewrites P as) (pieceIf condition name content)
      (pieceIf condition' name content') := by
  have hlength := h.length_eq.trans h'.length_eq.symm
  cases condition with
  | false =>
    cases condition' with
    | false => exact .nil
    | true => cases hlength
  | true =>
    cases condition' with
    | false => cases hlength
    | true =>
      obtain ⟨b, rest, hb, hrest, rfl⟩ := List.forall₂_cons_left_iff.1 h
      cases hrest
      obtain ⟨hb', -⟩ := List.forall₂_cons.1 h'
      refine .cons ⟨rfl, fun a ha hname _ => ?_⟩ .nil
      obtain rfl := List.mem_singleton.1 (hmem a ha hname)
      exact hb'

variable {m r : Method} {owner : Text} {stackMaps : Bool} {order : List Text} {as : List Attribute}

/-- A name that may be missing is read back as it is. -/
theorem map_stored_of_fixed_givenName (hP : P.KeepsTexts) {name : Option Text} {i : Nat}
    (h : Fixed P (givenName name) i) : name.map stored = name := by
  cases name with
  | none => rfl
  | some n => exact congrArg some (hP (fixed_addUtf8_iff.1 h))

/-- The attributes about the parameters of a method are written for what has been read of them. -/
theorem areWritten_storedTables {verify : Bool} {s s' : Method} (ht : Backs stored t P)
    (hP : P.KeepsTexts)
    (htagged : ∀ p ∈ m.parameters, ∀ a ∈ p.annotations, a.IsTagged)
    (hraw : ∀ a ∈ m.attributes, a.name ∉ AttributeName.ofParameters)
    (has : List.Forall₂ (Piece.Writes P) (Piece.ordered order (methodPieces owner verify stackMaps m)) as)
    (h : Attribute.readAll (readMethodAttribute t) (as.map (Attribute.mapName stored)) s = .ok s') :
    m.storedTables.AreWritten P s.parameters.length (as.map (Attribute.mapName stored)) where
  annotations visible := forall₂_storedAnnotations hraw has h visible fun p hp _ hpart =>
    fixed_annotationUses_stored ht hP (fun a ha => htagged p hp a (List.mem_of_mem_filter ha)) hpart
  names := forall₂_storedNames hraw has h fun own part hpart p he => by
    obtain ⟨hname, haccess⟩ := Prod.mk.inj he
    rw [← access_of_fixed_parameter hpart] at haccess
    rw [parameter_eq] at hpart ⊢
    obtain ⟨i, hi, hpart⟩ := fixed_bind_iff.1 hpart
    rw [map_stored_of_fixed_givenName hP hi] at hname
    rw [hname, haccess]
    exact fixed_bind_iff.2 ⟨i, hi, hpart⟩

/-- The attribute that holds the code of a method is written as it was, if there is one. -/
theorem forall₂_rewrites_codePiece (ht : Backs stored t P) (hdrawn : t.IsDrawn) (hsites : HasSites t P)
    (hP : P.KeepsTexts) (hraw : ∀ a ∈ m.attributes, a.name ∉ AttributeName.ofMethod)
    (hcode : m.hasCode = true → m.HasWholeCode P) {o : MemberOutline}
    (hshows : o.Shows stored P m.name m.descriptor m.access
      (Piece.ordered m.layout.attributeOrder (methodPieces owner false stackMaps m)))
    (hwrites : List.Forall₂ (Piece.Writes P)
      (Piece.ordered m.layout.attributeOrder (methodPieces owner false stackMaps m)) o.attributes)
    (hread : o.IsReadAsMethod t r) (hsound : r.IsSound) :
    List.Forall₂ (Piece.Rewrites P o.attributes)
      (pieceIf m.hasCode AttributeName.code (code owner false stackMaps m))
      (pieceIf r.hasCode AttributeName.code (code owner false stackMaps r)) := by
  rcases code_of_isReadAsMethod hraw hshows hread with ⟨hnone, hsame⟩ | ⟨hsome, hput⟩
  · have hrnone : r.hasCode = false := congrArg Method.hasCode hsame
    rw [hnone, hrnone]
    exact .nil
  · obtain ⟨-, -, read, -, -, -, hfound⟩ := hput
    have hmaxima : r.maxima = some read.maxima := congrArg Method.maxima hfound
    have hrsome : r.hasCode = true := by
      unfold Method.hasCode
      rw [hmaxima]
      exact Bool.or_true _
    refine forall₂_rewrites_pieceIf (hrsome.trans hsome.symm) fun _ a ha hname hwrite => ?_
    obtain ⟨types, -, hall⟩ := hread.attributes
    rcases isCodeOf_of_readAll hall with ⟨b, hb, raw, outline, seen, l, code, hholds, hassembles,
      hcode?⟩ |
      hkeeps
    · -- the last code attribute is the one that has been written
      obtain ⟨hmem, hbname⟩ := List.mem_filter.1 (List.mem_of_getLast? hb)
      obtain ⟨hpieces, -⟩ := filter_methodPieces_alone owner false stackMaps hraw
      obtain ⟨p, hp, hpname, hpwrite⟩ := Result.exists_of_mem_right hwrites hmem
      have hpiece : p ∈ pieceIf m.hasCode AttributeName.code (Encoding.code owner false stackMaps m) := by
        rw [← hpieces]
        exact List.mem_filter.2 ⟨(ordered_perm _ _).mem_iff.1 hp, by rw [← hpname]; exact hbname⟩
      rw [hsome] at hpiece
      obtain rfl := List.mem_singleton.1 hpiece
      have hdata : b.data = a.data := hpwrite.unique hwrite
      obtain ⟨parts, hparts⟩ := exists_codeParts hwrite
      rw [hparts]
      have hwhole := hholds.whole
      rw [hdata, hparts] at hwhole
      exact parts.fixed_again hP ht hdrawn hsites (hcode hsome) hwhole hassembles hsound hcode? owner
    · have hnone := hkeeps.code?_eq
      unfold Method.code? at hnone
      rw [hmaxima] at hnone
      cases hnone

/-- The attributes about the parameters of a method are written as they were. -/
theorem writes_storedTables (ht : Backs stored t P) (hP : P.KeepsTexts)
    (htagged : ∀ p ∈ m.parameters, ∀ a ∈ p.annotations, a.IsTagged)
    (hraw : ∀ a ∈ m.attributes, a.name ∉ AttributeName.ofParameters)
    (hwrites : List.Forall₂ (Piece.Writes P)
      (Piece.ordered order (methodPieces owner false stackMaps m)) as)
    (has : as.map (Attribute.mapName stored) = as) {types : List Text} {o : MemberOutline}
    (h : Attribute.readAll (readMethodAttribute t) as (o.head types) = .ok r)
    (htables : r.HasTables types.length m.storedTables) (place : Text) :
    (∀ visible, List.Forall₂ (Piece.Rewrites P as)
      (parameterAnnotationPiece (Flow.Program.placeOf owner m) m visible (m.annotationCount visible))
      (parameterAnnotationPiece place r visible (r.annotationCount visible))) ∧
    List.Forall₂ (Piece.Rewrites P as)
      (pieceIf (m.parameterCount.isSome || m.parameters.any isNamed) AttributeName.methodParameters
        (methodParameters (Flow.Program.placeOf owner m) m))
      (pieceIf (r.parameterCount.isSome || r.parameters.any isNamed) AttributeName.methodParameters
        (methodParameters place r)) := by
  have hlength : (o.head types).parameters.length = types.length := by
    simp [MemberOutline.head, parametersOf]
  rw [← has] at h
  have hwritten := areWritten_storedTables ht hP htagged hraw hwrites h
  rw [hlength, has] at hwritten
  have hnamed (name : Text) (hname : ModifiedUtf8.IsPlain name) := forall₂_filter_named hname hwrites
  rw [has] at hnamed
  have hmem {name : Text} (a : Attribute) (ha : a ∈ as) (hname : a.name = name) :
      a ∈ as.filter fun a => a.name = name := List.mem_filter.2 ⟨ha, decide_eq_true hname⟩
  refine ⟨fun visible => ?_, ?_⟩
  · have hown := hnamed _ (AttributeName.isPlain_parameterAnnotations visible)
    rw [filter_parameterAnnotations hraw] at hown
    exact forall₂_rewrites_of_written hmem hown (writes_parameterAnnotations htables hwritten visible)
  · have hown := hnamed AttributeName.methodParameters (ModifiedUtf8.isPlain_ofString (by decide))
    rw [filter_methodParameters hraw] at hown
    exact forall₂_rewrites_of_written hmem hown (writes_methodParameters htables hwritten)

end Encoding

/-- Nothing that a method says is lost in a class file. Its annotations have tags that exist, no
attribute that is kept as bytes has the name of one that is taken apart, and its code is whole. -/
structure Method.IsRewritable (P : Pool) (m : Method) : Prop where
  isTagged : m.IsTagged
  raw : ∀ a ∈ m.attributes, a.name ∉ AttributeName.ofMethod
  code : m.hasCode = true → m.HasWholeCode P

namespace Encoding

/-- A method is written as it was. If the bytes of a method are written for it, they are also
written for what is read of them; the code is laid out as before, since no index has changed its
size. -/
theorem fixed_method_again {m r : Method} {owner : Text} {stackMaps : Bool} (ht : Backs stored t P)
    (hdrawn : t.IsDrawn) (hsites : HasSites t P) (hP : P.KeepsTexts) (hm : m.IsRewritable P)
    {o : MemberOutline} (hshows : o.Shows stored P m.name m.descriptor m.access
      (Piece.ordered m.layout.attributeOrder (methodPieces owner false stackMaps m)))
    (hread : o.IsReadAsMethod t r) (hsound : r.IsSound)
    (h : Fixed P (method owner false stackMaps m) bytes) :
    Fixed P (method owner false stackMaps r) bytes := by
  obtain ⟨head, rest, hhead, hwrites, has, rfl, hname, hdescriptor⟩ :=
    exists_of_shows hP (steady_methodPieces owner false stackMaps m) hshows h
  have htold := isToldBack_of_isReadAsMethod ht hm.isTagged hm.raw hshows hread
  obtain ⟨types, htypes, hall⟩ := hread.attributes
  have horder : r.layout.attributeOrder = o.attributes.map Attribute.name :=
    attributeOrder_of_readAll hall
  have hraw : r.attributes = o.attributes.filter fun a => a.name ∉ AttributeName.ofMethod :=
    keepsRaw_readMethodAttribute.observe_eq hall
  have hparameter : ∀ a ∈ m.attributes, a.name ∉ AttributeName.ofParameters := fun a ha hmem =>
    hm.raw a ha (AttributeName.ofParameters_subset hmem)
  obtain ⟨types', htypes', -, htables⟩ := htold.parameters
  obtain rfl : types = types' := by
    rw [hshows.descriptor] at htypes
    exact Except.ok.inj (htypes.symm.trans htypes')
  obtain ⟨hannotations, hnames⟩ := writes_storedTables ht hP hm.isTagged.parameters hparameter hwrites
    (has.map_mapName hP) hall htables (Flow.Program.placeOf owner r)
  have hpieces : List.Forall₂ (Piece.Rewrites P o.attributes)
      (modelledMethodPieces m owner false stackMaps) (modelledMethodPieces r owner false stackMaps) := by
    refine List.rel_append (List.rel_append (List.rel_append (List.rel_append (List.rel_append
      (List.rel_append (List.rel_append ?code ?exceptions) ?signature) ?annotations) (hannotations true))
      (hannotations false)) ?default) hnames
    case code =>
      exact forall₂_rewrites_codePiece ht hdrawn hsites hP hm.raw hm.code hshows hwrites hread hsound
    case exceptions =>
      refine forall₂_rewrites_pieceIf ?_ fun _ a _ _ hwrite => ?_
      · rw [htold.exceptions, List.isEmpty_map]
      · rw [htold.exceptions, map_stored_of_fixed_classNames hP hwrite]
        exact hwrite
    case signature => exact forall₂_rewrites_signaturePiece hP htold.signature
    case annotations =>
      exact forall₂_rewrites_annotationPieces ht hP hm.isTagged.annotations htold.annotations
    case default =>
      exact forall₂_rewrites_pieceOf? _ htold.default fun v hv a _ _ hwrite =>
        fixed_element_stored ht hP true v (hm.isTagged.default v hv) hwrite
  have hagain := forall₂_writes_front hwrites areNamedIn_modelledMethodPieces hm.raw hpieces
  rw [← horder, ← hraw] at hagain
  refine fixed_member (steady_methodPieces owner false stackMaps r) ?_ hagain has
  rw [htold.access, htold.name, htold.descriptor, hname, hdescriptor]
  exact hhead

end Encoding

end ClassTree
