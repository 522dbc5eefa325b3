/-
# ClassTree.Proofs.Rewriting.Piece — what has been read back is written as it was

What an attribute says is read back in a form of its own: a truth value as an integer, an integer in
the place of a double as a double. That form asks the pool for the same constants, so its bytes are
the same again (`Piece.Rewrites`). The attributes of an entity then come out in the order in which
they were read, because the layout of the entity names them in that order
(`forall₂_writes_ordered`).
-/
import ClassTree.Proofs.Literal
import ClassTree.Proofs.Number.Binary
import ClassTree.Proofs.ReadBack.Attributes

namespace ClassTree

open Decoding Encoding Encoder
open Literal (Kind)
open ModifiedUtf8 (stored)

/-- Every text that the pool finds is read back as it is. -/
def Pool.KeepsTexts (P : Pool) : Prop :=
  ∀ {s : Text} {i : Nat}, P.index[Pool.Entry.utf8 s]? = some i → stored s = s

/-! ## Constants of a kind -/

namespace Constant

variable {g : Text → Text} {v : Constant}

/-- What has an integer is read back as that under the kind of integers. -/
theorem readAs_int {n : Int} (h : integerOf v = .ok n) : v.readAs g Kind.int.name = .int n := by
  unfold readAs
  rw [Kind.ofName?_name]
  dsimp only
  rw [h]

theorem readAs_int_of_error {e : Error} (h : integerOf v = .error e) : v.readAs g Kind.int.name = v := by
  unfold readAs
  rw [Kind.ofName?_name]
  dsimp only
  rw [h]

theorem readAs_long {n : Int} (h : v.toInt? = some n) : v.readAs g Kind.long.name = .int n := by
  unfold readAs
  rw [Kind.ofName?_name]
  dsimp only
  rw [h]

theorem readAs_long_of_none (h : v.toInt? = none) : v.readAs g Kind.long.name = v := by
  unfold readAs
  rw [Kind.ofName?_name]
  dsimp only
  rw [h]

theorem readAs_float {x : Number.Single} (h : singleOf v = .ok x) :
    v.readAs g Kind.float.name = .float x.toDouble := by
  unfold readAs
  rw [Kind.ofName?_name]
  dsimp only
  rw [h]

theorem readAs_float_of_error {e : Error} (h : singleOf v = .error e) :
    v.readAs g Kind.float.name = v := by
  unfold readAs
  rw [Kind.ofName?_name]
  dsimp only
  rw [h]

theorem readAs_double {x : Number.Double} (h : doubleOf v = .ok x) :
    v.readAs g Kind.double.name = .float x := by
  unfold readAs
  rw [Kind.ofName?_name]
  dsimp only
  rw [h]

end Constant

namespace Encoding

variable {P : Pool} {t : Table} {i : Nat} {bytes : Bytes}

/-! ## Names -/

section Names

variable (hP : P.KeepsTexts)
include hP

theorem map_stored_of_fixed_addName {name : Option Text} (h : Fixed P (pooled (Pool.addName name)) i) :
    name.map stored = name := by
  cases name with
  | none => rfl
  | some s => exact congrArg some (hP (fixed_addUtf8_iff.1 h))

theorem map_stored_of_fixed_addClass {name : Option Text}
    (h : Fixed P (pooled (Pool.addClass name)) i) : name.map stored = name := by
  obtain ⟨n, hn, -⟩ := fixed_addClass_iff.1 h
  exact map_stored_of_fixed_addName hP hn

theorem stored_of_fixed_addNameAndType {name : Text} {descriptor : Option Text}
    (h : Fixed P (pooled (Pool.addNameAndType name descriptor)) i) :
    stored name = name ∧ descriptor.map stored = descriptor := by
  obtain ⟨n, hn, d, hd, -⟩ := fixed_addNameAndType_iff.1 h
  exact ⟨hP hn, map_stored_of_fixed_addName hP hd⟩

theorem stored_of_fixed_member {h : Handle} {o m : Nat}
    (howner : Fixed P (pooled (Pool.addClass h.owner)) o)
    (hname : Fixed P (pooled (Pool.addNameAndType h.name (some h.descriptor))) m) :
    (h.stored stored).owner = h.owner ∧ (h.stored stored).name = h.name ∧
      (h.stored stored).descriptor = h.descriptor := by
  obtain ⟨hname, hdescriptor⟩ := stored_of_fixed_addNameAndType hP hname
  exact ⟨map_stored_of_fixed_addClass hP howner, hname, Option.some.inj hdescriptor⟩

/-- A handle is written as it was. The flag that a handle of a field loses is not written. -/
theorem fixed_addHandle_stored {h : Handle} (hh : Fixed P (pooled (Pool.addHandle h)) i) :
    Fixed P (pooled (Pool.addHandle (h.stored stored))) i := by
  obtain ⟨target, htarget, hi⟩ := fixed_addHandle_iff.1 hh
  refine fixed_addHandle_iff.2 ⟨target, ?_, hi⟩
  show Fixed P (pooled (if h.kind ≤ Pool.lastFieldKind
    then Pool.addField (h.stored stored).owner (h.stored stored).name (h.stored stored).descriptor
    else Pool.addMethod (h.stored stored).interface (h.stored stored).owner (h.stored stored).name
      (h.stored stored).descriptor)) target
  split at htarget
  · next hfield =>
    obtain ⟨o, ho, m, hm, -⟩ := fixed_addField_iff.1 htarget
    obtain ⟨howner, hname, hdescriptor⟩ := stored_of_fixed_member hP ho hm
    rw [if_pos hfield, howner, hname, hdescriptor]
    exact htarget
  · next hmethod =>
    obtain ⟨o, ho, m, hm, -⟩ := fixed_addMethod_iff.1 htarget
    obtain ⟨howner, hname, hdescriptor⟩ := stored_of_fixed_member hP ho hm
    have hflag : (h.stored stored).interface = h.interface := by
      show (h.interface && !decide (h.kind ≤ Pool.lastFieldKind)) = h.interface
      simp [hmethod]
    rw [if_neg hmethod, howner, hname, hdescriptor, hflag]
    exact htarget

end Names

/-! ## Constants -/

/-- An integer is found again where one has been found. -/
theorem fixed_addInteger_readAs {g : Text → Text} {v : Constant} (h : Fixed P (addInteger v) i) :
    Fixed P (addInteger (v.readAs g Kind.int.name)) i := by
  obtain ⟨n, hn, hi⟩ := fixed_addInteger_iff.1 h
  rw [Constant.readAs_int hn]
  exact fixed_addInteger_iff.2 ⟨n, rfl, hi⟩

/-- A long is found again where one has been found. -/
theorem fixed_addLong_readAs {g : Text → Text} {v : Constant} (h : Fixed P (addLong v) i) :
    Fixed P (addLong (v.readAs g Kind.long.name)) i := by
  cases hv : v.toInt? with
  | none =>
    rw [Constant.readAs_long_of_none hv]
    exact h
  | some n =>
    have hi := fixed_addLong_iff.1 h
    rw [hv] at hi
    rw [Constant.readAs_long hv]
    exact fixed_addLong_iff.2 hi

/-- A floating point number is found again where one has been found. -/
theorem fixed_addDouble_readAs {g : Text → Text} {v : Constant} (h : Fixed P (addDouble v) i) :
    Fixed P (addDouble (v.readAs g Kind.double.name)) i := by
  obtain ⟨x, hx, hi⟩ := fixed_addDouble_iff.1 h
  rw [Constant.readAs_double hx]
  exact fixed_addDouble_iff.2 ⟨x, rfl, hi⟩

/-- A number of single precision is found again, too: what has been rounded once is not rounded
again. -/
theorem fixed_addFloat_readAs {g : Text → Text} {v : Constant} (h : Fixed P (addFloat v) i) :
    Fixed P (addFloat (v.readAs g Kind.float.name)) i := by
  obtain ⟨x, hx, hi⟩ := fixed_addFloat_iff.1 h
  have hquiet : x.IsQuiet := by
    unfold singleOf at hx
    obtain ⟨y, -, hround⟩ := Result.bind_eq_ok_iff.1 hx
    split at hround
    · next hsome =>
      cases hround
      exact Number.Single.isQuiet_of_toSingle? hsome
    · cases hround
  rw [Constant.readAs_float hx]
  refine fixed_addFloat_iff.2 ⟨x, ?_, hi⟩
  unfold singleOf
  refine Result.bind_eq_ok_iff.2 ⟨x.toDouble, rfl, ?_⟩
  rw [Number.Single.toSingle?_toDouble hquiet]
  rfl

section Constants

variable (ht : Backs stored t P) (hP : P.KeepsTexts)
include ht hP

/-- What stands in the place of a text is a text, and is read back as it is. -/
theorem readAs_of_fixed_addText {v : Constant} (h : Fixed P (addText v) i) :
    v.readAs stored Kind.string.name = v := by
  obtain ⟨s, rfl, -⟩ := exists_reads_of_fixed_addText ht h
  exact congrArg Constant.text (hP (fixed_addUtf8_iff.1 h))

theorem readAs_of_fixed_addString {v : Constant} (h : Fixed P (Encoding.addString v) i) :
    v.readAs stored Kind.string.name = v := by
  unfold Encoding.addString at h
  obtain ⟨_, htext, -⟩ := fixed_bind_iff.1 h
  exact readAs_of_fixed_addText ht hP htext

/-- A constant of a kind is written as it was. -/
theorem fixed_addConstant_readAs {kind : Text} {v : Constant} (h : Fixed P (addConstant kind v) i) :
    Fixed P (addConstant kind (v.readAs stored kind)) i := by
  refine fixed_addConstant_iff.2 ?_
  cases fixed_addConstant_iff.1 h with
  | int h => exact .int (fixed_addInteger_readAs h)
  | float h => exact .float (fixed_addFloat_readAs h)
  | long h => exact .long (fixed_addLong_readAs h)
  | double h => exact .double (fixed_addDouble_readAs h)
  | string h =>
    rw [readAs_of_fixed_addString ht hP h]
    exact .string h
  | @reference name h =>
    have hname : stored name = name := Option.some.inj (map_stored_of_fixed_addClass hP h)
    refine .reference ?_
    rwa [hname]
  | @methodType descriptor h =>
    obtain ⟨n, hn, -⟩ := fixed_addMethodType_iff.1 h
    have hdescriptor : stored descriptor = descriptor := hP hn
    refine .methodType ?_
    rwa [hdescriptor]
  | @handle handle h =>
    exact .handle (fixed_addHandle_stored hP h)

/-- A constant that an instruction loads is written as it was. -/
theorem fixed_addLoaded_readAs {op : Opcode} {v : Constant} (h : Fixed P (addLoaded op v) i) :
    Fixed P (addLoaded op (v.readAs stored (Literal.loadedKind op v))) i := by
  have hread := fixed_addConstant_readAs ht hP (fixed_addConstant_of_addLoaded h)
  by_cases hwide : op = .ldc2_w
  · subst hwide
    cases v with
    | float x => exact hread
    | int n => exact hread
    | bool b => exact hread
    | _ => exact h
  · have hkind (v : Constant) : Literal.loadedKind op v = Literal.loadedKind .ldc v :=
      (if_neg hwide).trans (if_neg (show Opcode.ldc ≠ .ldc2_w by decide)).symm
    have hloaded {v : Constant} {kind : Text} (heq : Literal.loadedKind op v = kind)
        (hv : v ≠ .null ∧ (∀ b, v ≠ .bytes b) ∧ ∀ l, v ≠ .label l)
        (hadd : Fixed P (addConstant kind v) i) : Fixed P (addLoaded op v) i := by
      subst heq
      cases v with
      | null => exact absurd rfl hv.1
      | bytes b => exact absurd rfl (hv.2.1 b)
      | label l => exact absurd rfl (hv.2.2 l)
      | _ => exact hadd
    cases v with
    | null | bytes | label =>
      unfold addLoaded at h
      rw [if_neg hwide] at h
      exact absurd h not_fixed_throw
    | float x =>
      have hread : Fixed P (addConstant Kind.float.name
          ((Constant.float x).readAs stored Kind.float.name)) i := by
        rw [hkind] at hread
        exact hread
      obtain ⟨y, hy⟩ : ∃ y, (Constant.float x).readAs stored Kind.float.name = .float y := by
        cases hx : singleOf (.float x) with
        | ok y => exact ⟨_, Constant.readAs_float hx⟩
        | error e => exact ⟨_, Constant.readAs_float_of_error hx⟩
      rw [hkind]
      show Fixed P (addLoaded op ((Constant.float x).readAs stored Kind.float.name)) i
      rw [hy] at hread ⊢
      exact hloaded (hkind _) ⟨nofun, nofun, nofun⟩ hread
    | _ =>
      rw [hkind] at hread ⊢
      exact hloaded (hkind _) ⟨nofun, nofun, nofun⟩ hread

/-! ## Annotations -/

/-- A scalar value is written as it was. -/
theorem fixed_addScalar_readAs {tag : ElementTag} (htag : (Literal.elementKind? tag).isSome)
    {v : Constant} (h : Fixed P (addScalar tag v) i) :
    Fixed P (addScalar tag (v.readAs stored (ElementValue.storedKind tag))) i := by
  cases tag with
  | unknown => cases htag
  | long => exact fixed_addLong_readAs h
  | float => exact fixed_addFloat_readAs h
  | double => exact fixed_addDouble_readAs h
  | text | type =>
    have hsame := readAs_of_fixed_addText ht hP h
    show Fixed P (addText (v.readAs stored Kind.string.name)) i
    rw [hsame]
    exact h
  | _ => exact fixed_addInteger_readAs h

end Constants

/-- Things in a row are written as they were if each of them is. -/
theorem fixed_listOf_again {α β : Type} {each : α → Encoder Bytes} {each' : β → Encoder Bytes}
    [∀ a, Growing (each a)] [∀ b, Growing (each' b)] {things : List α} {things' : List β}
    {R : α → β → Prop}
    (hR : List.Forall₂ R things things') (heach : ∀ a b part, R a b → Fixed P (each a) part →
      Fixed P (each' b) part) (h : Fixed P (listOf each things) bytes) :
    Fixed P (listOf each' things') bytes := by
  obtain ⟨count, hcount, parts, hparts, heq⟩ := fixed_listOf_iff.1 h
  rw [hR.length_eq] at hcount
  exact fixed_listOf_iff.2 ⟨count, hcount, parts, Result.forall₂_trans hR.flip hparts
    fun b a part hab hpart => heach a b part hab hpart, heq⟩

/-- What is read back of things in a row is written as they were if it is so for each of them. -/
theorem fixed_listOf_map {α : Type} {each : α → Encoder Bytes} [∀ a, Growing (each a)] {things : List α}
    {told : α → α} (heach : ∀ a ∈ things, ∀ part, Fixed P (each a) part → Fixed P (each (told a)) part)
    (h : Fixed P (listOf each things) bytes) : Fixed P (listOf each (things.map told)) bytes := by
  have htold : List.Forall₂ (fun a b => a ∈ things ∧ b = told a) things (things.map told) :=
    List.forall₂_map_right_iff.2 (List.forall₂_same.2 fun _ ha => ⟨ha, rfl⟩)
  refine fixed_listOf_again htold (fun a b part hb hpart => ?_) h
  rw [hb.2]
  exact heach a hb.1 part hpart

mutual

/-- A value is written as it was, although its texts are now those that the pool stores and its
scalars are of the kinds of their tags: both lead to the same entries. Tags that no reader knows are
left out. -/
theorem fixed_element_stored (ht : Backs stored t P) (hP : P.KeepsTexts) (visible : Bool)
    (v : ElementValue)
    (hv : v.IsTagged) {bytes : Bytes} (h : Fixed P (element v) bytes) :
    Fixed P (element (v.stored visible)) bytes := by
  unfold element at h
  rw [ElementValue.stored.eq_def, element.eq_def]
  cases v with
  | scalar tag v =>
    obtain ⟨letter, hletter, h⟩ := fixed_bind_iff.1 h
    obtain ⟨i, hi, h⟩ := fixed_bind_iff.1 h
    have hi := fixed_addScalar_readAs ht hP hv hi
    exact fixed_bind_iff.2 ⟨letter, hletter, fixed_bind_iff.2 ⟨i, hi, h⟩⟩
  | enum descriptor name =>
    simp only [fixed_bind_iff, fixed_addUtf8_iff] at h ⊢
    obtain ⟨i, hi, j, hj, h⟩ := h
    rw [hP hi, hP hj]
    exact ⟨i, hi, j, hj, h⟩
  | nested descriptor visible' values =>
    simp only [fixed_bind_iff, fixed_index_iff, fixed_addUtf8_iff, fixed_named_iff] at h ⊢
    obtain ⟨d, ⟨i, hi, hd⟩, count, hcount, values', ⟨parts, hparts, rfl⟩, h⟩ := h
    have hvalues := areWritten_storedNamed ht hP visible values hv hparts
    have hlength := hvalues.length_eq.trans hparts.length_eq.symm
    rw [hP hi, hlength]
    exact ⟨d, ⟨i, hi, hd⟩, count, hcount, _, ⟨parts, hvalues, rfl⟩, h⟩
  | array es =>
    simp only [fixed_bind_iff, fixed_elements_iff] at h ⊢
    obtain ⟨count, hcount, es', ⟨parts, hparts, rfl⟩, h⟩ := h
    have hvalues := areWritten_storedAll ht hP visible es hv hparts
    have hlength := hvalues.length_eq.trans hparts.length_eq.symm
    rw [hlength]
    exact ⟨count, hcount, _, ⟨parts, hvalues, rfl⟩, h⟩

theorem areWritten_storedAll (ht : Backs stored t P) (hP : P.KeepsTexts) (visible : Bool)
    (es : List ElementValue) (hes : ElementValue.AreTagged es) {parts : List Bytes}
    (h : List.Forall₂ (fun v part => Fixed P (element v) part) es parts) :
    List.Forall₂ (fun v part => Fixed P (element v) part) (ElementValue.storedAll visible es) parts := by
  cases h with
  | nil =>
    rw [ElementValue.storedAll]
    exact .nil
  | @cons v _ es _ hv hrest =>
    rw [ElementValue.storedAll]
    exact .cons (fixed_element_stored ht hP visible v hes.1 hv)
      (areWritten_storedAll ht hP visible es hes.2 hrest)

theorem areWritten_storedNamed (ht : Backs stored t P) (hP : P.KeepsTexts) (visible : Bool)
    (values : List (Text × ElementValue)) (hvalues : ElementValue.AreTaggedNamed values)
    {parts : List Bytes}
    (h : List.Forall₂ (IsNamedElement P) values parts) :
    List.Forall₂ (IsNamedElement P) (ElementValue.storedNamed visible values) parts := by
  cases h with
  | nil =>
    rw [ElementValue.storedNamed]
    exact .nil
  | @cons v _ values _ hv hrest =>
    obtain ⟨name, v⟩ := v
    obtain ⟨i, index, value, hi, hindex, hvalue, rfl⟩ := hv
    have hname : stored name = name := hP hi
    rw [ElementValue.storedNamed, hname]
    have hvalue := fixed_element_stored ht hP visible v hvalues.1 hvalue
    exact .cons ⟨i, index, value, hi, hindex, hvalue, rfl⟩
      (areWritten_storedNamed ht hP visible values hvalues.2 hrest)

end

theorem fixed_annotationUse_stored (ht : Backs stored t P) (hP : P.KeepsTexts) {a : AnnotationUse}
    (ha : a.IsTagged) (h : Fixed P (annotationUse a) bytes) : Fixed P (annotationUse a.stored) bytes := by
  unfold annotationUse at h ⊢
  simp only [fixed_bind_iff, fixed_index_iff, fixed_addUtf8_iff, fixed_named_iff] at h ⊢
  obtain ⟨d, ⟨i, hi, hd⟩, count, hcount, values, ⟨parts, hparts, rfl⟩, h⟩ := h
  have hvalues := areWritten_storedNamed ht hP a.visible a.values ha hparts
  have hlength := hvalues.length_eq.trans hparts.length_eq.symm
  have hdescriptor : a.stored.descriptor = a.descriptor := hP hi
  rw [hdescriptor]
  refine ⟨d, ⟨i, hi, hd⟩, count, ?_, _, ⟨parts, hvalues, rfl⟩, h⟩
  show Fixed P (u2 (ElementValue.storedNamed a.visible a.values).length) count
  rw [hlength]
  exact hcount

theorem fixed_annotationUses_stored (ht : Backs stored t P) (hP : P.KeepsTexts)
    {as : List AnnotationUse} (has : ∀ a ∈ as, a.IsTagged) (h : Fixed P (annotationUses as) bytes) :
    Fixed P (annotationUses (as.map AnnotationUse.stored)) bytes := by
  unfold annotationUses at h ⊢
  exact fixed_listOf_map (fun a ha _ hpart => fixed_annotationUse_stored ht hP (has a ha) hpart) h

/-! ## Pieces -/

section Pieces

variable {as : List Attribute} {name : Text}

/-- A piece has the name of another one, and is written as the attributes that that one has been
written as. -/
structure Piece.Rewrites (P : Pool) (as : List Attribute) (p p' : Piece) : Prop where
  name : p'.name = p.name
  content : ∀ a ∈ as, a.name = p.name → Fixed P p.content a.data → Fixed P p'.content a.data

/-- An attribute that has been written for a piece is written for one that rewrites it. -/
theorem Piece.Rewrites.writes {p p' : Piece} (h : p.Rewrites P as p') {a : Attribute} (ha : a ∈ as)
    (hwrites : p.Writes P a) : p'.Writes P a :=
  ⟨hwrites.1.trans h.name.symm, h.content a ha hwrites.1 hwrites.2⟩

/-- A piece for what is there, and for what is read back of it. -/
theorem forall₂_rewrites_pieceOf? {α β : Type} {content : α → Encoder Bytes}
    {content' : β → Encoder Bytes}
    {value : Option α} {value' : Option β} (told : α → β) (hvalue : value' = value.map told)
    (h : ∀ v ∈ value, ∀ a ∈ as, a.name = name → Fixed P (content v) a.data →
      Fixed P (content' (told v)) a.data) :
    List.Forall₂ (Piece.Rewrites P as) (pieceOf? name content value) (pieceOf? name content' value') := by
  subst hvalue
  cases value with
  | none => exact .nil
  | some v => exact .cons ⟨rfl, h v rfl⟩ .nil

/-- A piece that there is reason for, and there is the same reason again. -/
theorem forall₂_rewrites_pieceIf {condition condition' : Bool} {content content' : Encoder Bytes}
    (hcondition : condition' = condition)
    (h : condition = true → ∀ a ∈ as, a.name = name → Fixed P content a.data →
      Fixed P content' a.data) :
    List.Forall₂ (Piece.Rewrites P as) (pieceIf condition name content)
      (pieceIf condition' name content') := by
  subst hcondition
  cases condition' with
  | false => exact .nil
  | true => exact .cons ⟨rfl, h rfl⟩ .nil

theorem fixed_index_stored (hP : P.KeepsTexts) {s : Text} (h : Fixed P (index (Pool.addUtf8 s)) bytes) :
    Fixed P (index (Pool.addUtf8 (stored s))) bytes := by
  simp only [fixed_index_iff, fixed_addUtf8_iff] at h ⊢
  obtain ⟨i, hi, hindex⟩ := h
  rw [hP hi]
  exact ⟨i, hi, hindex⟩

theorem forall₂_rewrites_signaturePiece (hP : P.KeepsTexts) {signature signature' : Option Text}
    (h : signature' = signature.map stored) :
    List.Forall₂ (Piece.Rewrites P as) (signaturePiece signature) (signaturePiece signature') :=
  forall₂_rewrites_pieceOf? stored h fun _ _ _ _ _ hdata => fixed_index_stored hP hdata

/-- Annotations are written as they were, one visibility after the other. -/
theorem forall₂_rewrites_annotationPieces (ht : Backs stored t P) (hP : P.KeepsTexts)
    {uses uses' : List AnnotationUse} (huses : ∀ a ∈ uses, a.IsTagged)
    (h : ∀ visible, ofVisibility visible uses' = (ofVisibility visible uses).map AnnotationUse.stored) :
    List.Forall₂ (Piece.Rewrites P as) (annotationPieces uses) (annotationPieces uses') := by
  have hone (visible : Bool) : List.Forall₂ (Piece.Rewrites P as)
      (pieceIf (!(ofVisibility visible uses).isEmpty) (AttributeName.annotations visible)
        (annotationUses (ofVisibility visible uses)))
      (pieceIf (!(ofVisibility visible uses').isEmpty) (AttributeName.annotations visible)
        (annotationUses (ofVisibility visible uses'))) := by
    refine forall₂_rewrites_pieceIf ?_ fun _ _ _ _ hdata => ?_
    · rw [h visible, List.isEmpty_map]
    · rw [h visible]
      exact fixed_annotationUses_stored ht hP (isTagged_ofVisibility huses visible) hdata
  unfold annotationPieces
  simp only [List.flatMap_cons, List.flatMap_nil, List.append_nil]
  exact List.rel_append (hone true) (hone false)

end Pieces

/-! ## Order -/

/-- The names of attributes are read back as they are. -/
theorem AreAttributes.map_mapName (hP : P.KeepsTexts) {as : List Attribute}
    (h : AreAttributes P as bytes) :
    as.map (Attribute.mapName stored) = as := by
  obtain ⟨-, parts, -, hparts, -⟩ := h
  refine (List.map_congr_left fun a ha => ?_).trans (List.map_id as)
  obtain ⟨part, -, i, -, -, hi, -⟩ := Result.exists_of_mem_left hparts ha
  unfold Attribute.mapName
  rw [hP hi]
  rfl

/-- Attributes that are written for the pieces of their names, name by name, are written in their
own order if that is asked for. -/
theorem forall₂_writes_ordered {pieces : List Piece} {as : List Attribute}
    (h : ∀ n, List.Forall₂ (Piece.Writes P) (pieces.filter fun p => p.name = n)
      (as.filter fun a => a.name = n)) :
    List.Forall₂ (Piece.Writes P) (Piece.ordered (as.map Attribute.name) pieces) as := by
  induction as generalizing pieces with
  | nil =>
    -- a piece that is left over would have an attribute of its name
    have hnone : pieces = [] := by
      refine List.eq_nil_iff_forall_not_mem.2 fun p hp => ?_
      have hempty := List.forall₂_nil_right_iff.1 (h p.name)
      have hmem : p ∈ pieces.filter fun q => q.name = p.name := List.mem_filter.2 ⟨hp, by simp⟩
      rw [hempty] at hmem
      cases hmem
    rw [hnone]
    exact .nil
  | cons a as ih =>
    have hsplit := List.takeWhile_append_dropWhile (p := fun p : Piece => p.name ≠ a.name) (l := pieces)
    have hbefore : (pieces.takeWhile fun p => p.name ≠ a.name).filter (fun p => p.name = a.name) =
        [] := by
      refine List.filter_eq_nil_iff.2 fun p hp => ?_
      have hne := List.mem_takeWhile_imp hp
      simpa using hne
    have hown := h a.name
    rw [List.filter_cons_of_pos (by simp)] at hown
    rw [List.map_cons, Piece.ordered]
    cases hafter : pieces.dropWhile fun p => p.name ≠ a.name with
    | nil =>
      rw [hafter, List.append_nil] at hsplit
      rw [← hsplit, hbefore] at hown
      cases hown
    | cons p after =>
      have hname : p.name = a.name := by
        have hhead := List.head?_dropWhile_not (fun p : Piece => decide (p.name ≠ a.name)) pieces
        rw [hafter] at hhead
        simpa using hhead
      rw [hafter] at hsplit
      have hfilter (n : Text) : pieces.filter (fun p => p.name = n) =
          (pieces.takeWhile fun p => p.name ≠ a.name).filter (fun p => p.name = n) ++
            (p :: after).filter fun p => p.name = n := by
        rw [← List.filter_append, hsplit]
      rw [hfilter, hbefore, List.nil_append, List.filter_cons_of_pos (by simpa using hname)] at hown
      obtain ⟨hfirst, hrest⟩ := List.forall₂_cons.1 hown
      refine .cons hfirst (ih fun n => ?_)
      rw [List.filter_append]
      by_cases hn : n = a.name
      · rw [hn, hbefore, List.nil_append]
        exact hrest
      · have hothers := h n
        rw [hfilter, List.filter_cons_of_neg (by simpa [hname] using Ne.symm hn),
          List.filter_cons_of_neg (by simpa using Ne.symm hn)] at hothers
        exact hothers

/-- The attributes of an entity are written again in their order: those that have been taken apart
from what has been read of them, the others as they are. -/
theorem forall₂_writes_again {order names : List Text} {front back front' back' : List Piece}
    {raw as : List Attribute}
    (has : List.Forall₂ (Piece.Writes P) (Piece.ordered order (front ++ rawPieces raw ++ back)) as)
    (hknown : AreNamedIn names (front ++ back)) (hraw : ∀ a ∈ raw, a.name ∉ names)
    (hfront : List.Forall₂ (Piece.Rewrites P as) front front')
    (hback : List.Forall₂ (Piece.Rewrites P as) back back') :
    List.Forall₂ (Piece.Writes P) (Piece.ordered (as.map Attribute.name)
      (front' ++ rawPieces (as.filter fun a => a.name ∉ names) ++ back')) as := by
  refine forall₂_writes_ordered fun n => ?_
  have hnamed : List.Forall₂ (Piece.Writes P)
      ((front ++ rawPieces raw ++ back).filter fun p => p.name = n) (as.filter fun a => a.name = n) := by
    rw [← filter_ordered order]
    refine List.rel_filter (fun p a hpa => ?_) has
    simp only [decide_eq_true_eq]
    rw [hpa.1]
  have hagain {ps ps' : List Piece} (h : List.Forall₂ (Piece.Rewrites P as) ps ps') :
      List.Forall₂ (Piece.Rewrites P as) (ps.filter fun p => p.name = n)
      (ps'.filter fun p => p.name = n) := by
    refine List.rel_filter (fun p p' hp => ?_) h
    simp only [decide_eq_true_eq]
    rw [hp.name]
  have hnone {ps : List Piece} (hps : ∀ p ∈ ps, p.name ≠ n) : ps.filter (fun p => p.name = n) = [] :=
    List.filter_eq_nil_iff.2 fun p hp => by simpa using hps p hp
  rw [List.filter_append, List.filter_append] at hnamed ⊢
  by_cases hn : n ∈ names
  · -- nothing that is kept as bytes has such a name
    have hkept {kept : List Attribute} (h : ∀ a ∈ kept, a.name ∉ names) :
        (rawPieces kept).filter (fun p => p.name = n) = [] := by
      refine hnone fun p hp => ?_
      obtain ⟨a, ha, rfl⟩ := List.mem_map.1 hp
      rintro rfl
      exact h a ha hn
    rw [hkept hraw, List.append_nil] at hnamed
    rw [hkept fun a ha => of_decide_eq_true (List.mem_filter.1 ha).2, List.append_nil]
    have hmem : List.Forall₂ (fun p a => a ∈ as ∧ Piece.Writes P p a) _ _ :=
      ((List.forall₂_and_left _ _).2 ⟨fun a ha => List.mem_of_mem_filter ha, hnamed.flip⟩).flip
    exact Result.forall₂_trans (List.rel_append (hagain hfront) (hagain hback)).flip hmem
      fun p' p a hp hpa => hp.writes hpa.1 hpa.2
  · have hother {ps : List Piece} (hps : AreNamedIn names ps) : ps.filter (fun p => p.name = n) = [] :=
      hnone fun p hp heq => hn (heq ▸ hps p hp)
    have hnames {ps ps' : List Piece} (h : List.Forall₂ (Piece.Rewrites P as) ps ps')
        (hps : AreNamedIn names ps) : AreNamedIn names ps' := by
      intro p' hp'
      obtain ⟨p, hp, hpp'⟩ := Result.exists_of_mem_right h hp'
      exact hpp'.name ▸ hps p hp
    have hfirst : AreNamedIn names front := fun p hp => hknown p (List.mem_append_left _ hp)
    have hlast : AreNamedIn names back := fun p hp => hknown p (List.mem_append_right _ hp)
    rw [hother (hnames hfront hfirst), hother (hnames hback hlast), List.nil_append, List.append_nil]
    -- the other names are those of attributes that are kept as bytes, and of nothing else
    have hsame : (rawPieces (as.filter fun a => a.name ∉ names)).filter (fun p => p.name = n) =
        rawPieces (as.filter fun a => a.name = n) := by
      unfold rawPieces
      rw [List.filter_map, List.filter_filter]
      refine congrArg _ (List.filter_congr fun a _ => ?_)
      by_cases hname : a.name = n
      · simp [hname, hn]
      · simp [hname]
    rw [hsame]
    unfold rawPieces
    rw [List.forall₂_map_left_iff]
    exact List.forall₂_same.2 fun a _ => ⟨rfl, fixed_pure_iff.2 rfl⟩

/-- Attributes are written again, in the order in which they stood, where the ones that are kept as
bytes come last among the pieces. -/
theorem forall₂_writes_front {order names : List Text} {front front' : List Piece}
    {raw as : List Attribute}
    (has : List.Forall₂ (Piece.Writes P) (Piece.ordered order (front ++ rawPieces raw)) as)
    (hknown : AreNamedIn names front) (hraw : ∀ a ∈ raw, a.name ∉ names)
    (hfront : List.Forall₂ (Piece.Rewrites P as) front front') :
    List.Forall₂ (Piece.Writes P) (Piece.ordered (as.map Attribute.name)
      (front' ++ rawPieces (as.filter fun a => a.name ∉ names))) as := by
  rw [← List.append_nil (front ++ rawPieces raw)] at has
  rw [← List.append_nil front] at hknown
  rw [← List.append_nil (front' ++ _)]
  exact forall₂_writes_again has hknown hraw hfront .nil

end Encoding

end ClassTree
