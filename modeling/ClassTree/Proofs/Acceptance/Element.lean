/-
# ClassTree.Proofs.Acceptance.Element — written annotations are read

A tagged value is read from the bytes that were written for it, whatever its nesting: each level
takes a byte at least, so there are levels enough as long as there are as many as bytes. What is
read is the value as it is *stored*: its constants in the kind of their tags, its texts as the pool
has them, and every annotation inside with the visibility of the attribute.
-/
import ClassTree.Proofs.Attributes
import ClassTree.Proofs.Class.Legible
import ClassTree.Proofs.Constant
import ClassTree.Proofs.Decoding.Raw

namespace ClassTree

open Decoding Encoding Encoder
open Literal (Kind)
open ModifiedUtf8 (stored)

variable {P : Pool} {t : Table} {bytes : Bytes}

/-! ## What is read back -/

/-- A constant of a kind as it is read back, if texts change by `g`. -/
def Constant.readAs (g : Text → Text) (kind : Text) (v : Constant) : Constant :=
  match Kind.ofName? kind, v with
  | some .int, v => match integerOf v with
    | .ok n => .int n
    | .error _ => v
  | some .float, v => match singleOf v with
    | .ok x => .float x.toDouble
    | .error _ => v
  | some .long, v => match v.toInt? with
    | some n => .int n
    | none => v
  | some .double, v => match doubleOf v with
    | .ok x => .float x
    | .error _ => v
  | _, .text s => .text (g s)
  | _, .reference name => .reference (g name)
  | _, .methodType descriptor => .methodType (g descriptor)
  | _, .handle h => .handle (h.stored g)
  | _, v => v

/-- What a constant is stored as is decided by its kind. -/
theorem Constant.Stores.eq_readAs {g : Text → Text} {kind : Text} {v v' : Constant}
    (h : v.Stores g kind v') : v' = v.readAs g kind := by
  have hname (k : Kind) (hk : k ∈ Kind.all) : Kind.ofName? k.name = some k := by
    revert k
    decide
  unfold Constant.readAs
  cases h with
  | int h | float h | long h | double h =>
    rw [hname _ (by decide)]
    simp only [h]
  | handle h =>
    have hnone : Kind.ofName? Literal.handleKind = none := by decide
    rw [hnone]
  | _ =>
    rw [hname _ (by decide)]

namespace ElementValue

/-- The kind in which a scalar is stored. -/
def storedKind (tag : ElementTag) : Text := ((Literal.elementKind? tag).getD .string).name

mutual

/-- A value in an attribute of a visibility as it is read back. -/
def stored (visible : Bool) : ElementValue → ElementValue
  | .scalar tag v => .scalar tag (v.readAs ModifiedUtf8.stored (storedKind tag))
  | .enum descriptor name => .enum (ModifiedUtf8.stored descriptor) (ModifiedUtf8.stored name)
  | .nested descriptor _ values =>
    .nested (ModifiedUtf8.stored descriptor) visible (storedNamed visible values)
  | .array es => .array (storedAll visible es)

/-- Values as they are read back. -/
def storedAll (visible : Bool) : List ElementValue → List ElementValue
  | [] => []
  | v :: rest => stored visible v :: storedAll visible rest

/-- Named values as they are read back. -/
def storedNamed (visible : Bool) : List (Text × ElementValue) → List (Text × ElementValue)
  | [] => []
  | (name, v) :: rest => (ModifiedUtf8.stored name, stored visible v) :: storedNamed visible rest

end

end ElementValue

/-- An annotation as it is read back from an attribute of its visibility. -/
def AnnotationUse.stored (a : AnnotationUse) : AnnotationUse where
  descriptor := ModifiedUtf8.stored a.descriptor
  visible := a.visible
  values := ElementValue.storedNamed a.visible a.values

/-- As many levels as bytes are left are enough. -/
theorem Decoding.reads_nesting {α : Type} {d : Nat → Decoder α} {a : α}
    (h : ∀ fuel, bytes.length ≤ fuel → Reads (d fuel) bytes a) : Reads (nesting >>= d) bytes a := by
  intro position rest
  have hfuel : bytes.length ≤ (bytes ++ rest).length + 1 := by
    rw [List.length_append]
    omega
  exact h _ hfuel position rest

namespace Encoding

/-! ## Written values -/

theorem fixed_elements_iff {es : List ElementValue} {acc : List Bytes} :
    Fixed P (elements es acc) bytes ↔
      ∃ parts, List.Forall₂ (fun v part => Fixed P (element v) part) es parts ∧
        bytes = acc.reverse.flatten ++ parts.flatten := by
  induction es generalizing acc with
  | nil => simp [elements]
  | cons v es ih =>
    unfold elements
    simp only [fixed_bind_iff, ih, List.forall₂_cons_left_iff]
    constructor
    · rintro ⟨part, hpart, parts, hparts, rfl⟩
      exact ⟨_, ⟨part, parts, hpart, hparts, rfl⟩, by simp⟩
    · rintro ⟨_, ⟨part, parts, hpart, hparts, rfl⟩, rfl⟩
      exact ⟨part, hpart, parts, hparts, by simp⟩

/-- A named value is the index of its name and the value. -/
def IsNamedElement (P : Pool) (v : Text × ElementValue) (bytes : Bytes) : Prop :=
  ∃ i name value, P.index[Pool.Entry.utf8 v.1]? = some i ∧ Bytes.unsigned? 2 (i : Nat) = some name ∧
    Fixed P (element v.2) value ∧ bytes = name ++ value

theorem fixed_named_iff {values : List (Text × ElementValue)} {acc : List Bytes} :
    Fixed P (named values acc) bytes ↔
      ∃ parts, List.Forall₂ (IsNamedElement P) values parts ∧
        bytes = acc.reverse.flatten ++ parts.flatten := by
  induction values generalizing acc with
  | nil => simp [named]
  | cons v values ih =>
    obtain ⟨n, v⟩ := v
    unfold named
    simp only [fixed_bind_iff, fixed_index_iff, fixed_addUtf8_iff, ih, List.forall₂_cons_left_iff]
    constructor
    · rintro ⟨name, ⟨i, hi, hname⟩, part, hpart, parts, hparts, rfl⟩
      exact ⟨_, ⟨_, parts, ⟨i, name, part, hi, hname, hpart, rfl⟩, hparts, rfl⟩, by simp⟩
    · rintro ⟨_, ⟨_, parts, ⟨i, name, part, hi, hname, hpart, rfl⟩, hparts, rfl⟩, rfl⟩
      exact ⟨name, ⟨i, hi, hname⟩, part, hpart, parts, hparts, by simp⟩

/-- The byte of a tag is that of its letter. -/
theorem exists_of_fixed_tagByte {tag : ElementTag} (htag : (Literal.elementKind? tag).isSome)
    (h : Fixed P (tagByte tag) bytes) :
    ∃ b : UInt8, bytes = [b] ∧ ElementTag.ofLetter? [Fin.ofNat _ b.toNat] = some tag := by
  have hletter : ElementTag.ofLetter? tag.letter = some tag := by
    cases tag <;> first | decide | cases htag
  unfold tagByte at h
  split at h
  · next c hc =>
    split at h
    · next hlt =>
      refine ⟨_, fixed_pure_iff.1 h, ?_⟩
      have heq : (Fin.ofNat 0x110000 (UInt8.ofNat c.val).toNat : CodePoint) = c := by
        apply Fin.ext
        rw [Fin.val_ofNat, UInt8.toNat_ofNat', Nat.mod_eq_of_lt hlt, Nat.mod_eq_of_lt c.isLt]
      rw [heq, ← hc]
      exact hletter
    · exact absurd h not_fixed_throw
  · exact absurd h not_fixed_throw

/-! ## Scalars -/

/-- A constant that is found is looked up as it is stored. -/
theorem Finding.reads (ht : Backs stored t P) {i : Nat} {kind : Text} {v : Constant}
    (h : Finding P i kind v) : Reads (t.constant i) [] (kind, v.readAs stored kind) := by
  have hfixed := fixed_addConstant_iff.2 h
  obtain ⟨v', hstores, hread⟩ := ht.exists_reads_constant (ht.isRegular_of_fixed hfixed) hfixed
  rwa [hstores.eq_readAs] at hread

/-- What is found as a text is looked up as one. -/
theorem exists_reads_of_fixed_addText (ht : Backs stored t P) {i : Nat} {v : Constant}
    (h : Fixed P (addText v) i) : ∃ s, v = .text s ∧ Reads (t.utf8 i) [] (stored s) := by
  have hi := fixed_add_iff.1 h
  cases v with
  | text s => exact ⟨s, rfl, ht.reads_utf8 hi⟩
  | _ => exact absurd hi (by simp [Pool.Entry.key, ht.regular])

/-- A scalar that is no text is looked up as a constant. -/
theorem reads_of_fixed_addScalar (ht : Backs stored t P) {i : Nat} {tag : ElementTag}
    (htag : (Literal.elementKind? tag).isSome) (htext : tag ≠ .text ∧ tag ≠ .type) {v : Constant}
    (h : Fixed P (addScalar tag v) i) :
    Reads (t.constant i) []
      (ElementValue.storedKind tag, v.readAs stored (ElementValue.storedKind tag)) := by
  cases tag with
  | unknown letters => cases htag
  | text => exact absurd rfl htext.1
  | type => exact absurd rfl htext.2
  | long => exact (Finding.long h).reads ht
  | float => exact (Finding.float h).reads ht
  | double => exact (Finding.double h).reads ht
  | _ => exact (Finding.int h).reads ht

theorem reads_tagged_scalar (ht : Backs stored t P) {tag : ElementTag}
    (htag : (Literal.elementKind? tag).isSome) {v : Constant}
    (h : Fixed P (element (.scalar tag v)) bytes) (visible : Bool) (fuel : Nat) :
    Reads (readElementWith t visible (fuel + 1)) bytes ((ElementValue.scalar tag v).stored visible) := by
  unfold element at h
  simp only [fixed_bind_iff, fixed_u2_iff, fixed_pure_iff] at h
  obtain ⟨first, hfirst, i, hi, index, hindex, rfl⟩ := h
  obtain ⟨b, rfl, hletter⟩ := exists_of_fixed_tagByte htag hfirst
  have hnumber := Reads.of_unsigned? hindex
  refine .at_position fun start => (Reads.byte b).bind ?_
  rw [hletter, ElementValue.stored]
  have hconstant (htext : tag ≠ .text ∧ tag ≠ .type) : Reads
      (do return ElementValue.scalar tag (← t.constant (← Decoder.u2)).2) index
        (.scalar tag (v.readAs stored (ElementValue.storedKind tag))) :=
    hnumber.bind_nil ((reads_of_fixed_addScalar ht htag htext hi).map _)
  cases tag with
  | text | type =>
    obtain ⟨s, rfl, hs⟩ := exists_reads_of_fixed_addText ht hi
    exact hnumber.bind_nil (hs.map _)
  | unknown letters => cases htag
  | _ => exact hconstant (by decide)

/-! ## Values -/

/-- The name of a value and the value are read. -/
theorem IsNamedElement.reads (ht : Backs stored t P) {v : Text × ElementValue}
    (h : IsNamedElement P v bytes) {read : Decoder ElementValue} {value' : ElementValue}
    (hread : ∀ value, Fixed P (element v.2) value → value.length ≤ bytes.length →
      Reads read value value') :
    Reads (do
      let name ← t.utf8 (← Decoder.u2)
      return (name, ← read)) bytes (stored v.1, value') := by
  obtain ⟨i, index, value, hi, hindex, hvalue, rfl⟩ := h
  refine (Reads.of_unsigned? hindex).bind (.nil_bind (ht.reads_utf8 hi) ?_)
  exact (hread value hvalue (by simp)).map _

theorem reads_enum (ht : Backs stored t P) {descriptor name : Text}
    (h : Fixed P (element (.enum descriptor name)) bytes) (visible : Bool) (fuel : Nat) :
    Reads (readElementWith t visible (fuel + 1)) bytes
      ((ElementValue.enum descriptor name).stored visible) := by
  unfold element at h
  simp only [fixed_bind_iff, fixed_addUtf8_iff, fixed_u2_iff, fixed_pure_iff] at h
  obtain ⟨i, hi, j, hj, d, hd, n, hn, rfl⟩ := h
  have hletter : ElementTag.ofLetter? [Fin.ofNat _ (0x65 : UInt8).toNat] = none := by decide
  refine .at_position fun start => (Reads.byte 0x65).bind ?_
  rw [hletter, ElementValue.stored]
  refine (Reads.of_unsigned? hd).bind (.nil_bind (ht.reads_utf8 hi) ?_)
  exact (Reads.of_unsigned? hn).bind_nil ((ht.reads_utf8 hj).map _)

/-- An annotation is read if its values are. The values have fewer bytes than the annotation, which
pays for the level of nesting that the fuel counts. -/
theorem reads_nested (ht : Backs stored t P) {descriptor : Text} {values : List (Text × ElementValue)}
    {visible visible' : Bool} {fuel : Nat}
    (h : Fixed P (element (.nested descriptor visible' values)) bytes)
    (hvalues : ∀ parts, List.Forall₂ (IsNamedElement P) values parts →
      parts.flatten.length < bytes.length → List.Forall₂ (Reads (do
        let name ← t.utf8 (← Decoder.u2)
        return (name, ← readElementWith t visible fuel))) parts
          (ElementValue.storedNamed visible values)) :
    Reads (readElementWith t visible (fuel + 1)) bytes
      ((ElementValue.nested descriptor visible' values).stored visible) := by
  unfold element at h
  simp only [fixed_bind_iff, fixed_index_iff, fixed_addUtf8_iff, fixed_u2_iff, fixed_named_iff,
    fixed_pure_iff] at h
  obtain ⟨d, ⟨i, hi, hd⟩, count, hcount, _, ⟨parts, hparts, rfl⟩, rfl⟩ := h
  have hletter : ElementTag.ofLetter? [Fin.ofNat _ (0x40 : UInt8).toNat] = none := by decide
  have hread := hvalues parts hparts (by simp; omega)
  have hlength : (ElementValue.storedNamed visible values).length = values.length :=
    hread.length_eq.symm.trans hparts.length_eq.symm
  refine .at_position fun start => (Reads.byte 0x40).bind ?_
  show Reads _ (d ++ count ++ parts.flatten) _
  rw [hletter, List.append_assoc, ElementValue.stored]
  refine (Reads.of_unsigned? hd).bind (.nil_bind (ht.reads_utf8 hi) ?_)
  exact (Reads.listOf (hlength ▸ hcount) hread).map _

/-- A list of values is read if they are. -/
theorem reads_array {es : List ElementValue} {visible : Bool} {fuel : Nat}
    (h : Fixed P (element (.array es)) bytes)
    (hes : ∀ parts, List.Forall₂ (fun v part => Fixed P (element v) part) es parts →
      parts.flatten.length < bytes.length →
        List.Forall₂ (Reads (readElementWith t visible fuel)) parts (ElementValue.storedAll visible es)) :
    Reads (readElementWith t visible (fuel + 1)) bytes ((ElementValue.array es).stored visible) := by
  unfold element at h
  simp only [fixed_bind_iff, fixed_u2_iff, fixed_elements_iff, fixed_pure_iff] at h
  obtain ⟨count, hcount, _, ⟨parts, hparts, rfl⟩, rfl⟩ := h
  have hletter : ElementTag.ofLetter? [Fin.ofNat _ (0x5B : UInt8).toNat] = none := by decide
  have hlt : parts.flatten.length < (0x5B :: (count ++ parts.flatten)).length := by
    simp only [List.length_cons, List.length_append]
    omega
  have hread := hes parts hparts hlt
  have hlength : (ElementValue.storedAll visible es).length = es.length :=
    hread.length_eq.symm.trans hparts.length_eq.symm
  refine .at_position fun start => (Reads.byte 0x5B).bind ?_
  rw [hletter, ElementValue.stored]
  exact (Reads.listOf (hlength ▸ hcount) hread).map _

/-- A tagged value takes a byte at least. -/
theorem pos_of_fixed_element {v : ElementValue} (hv : v.IsTagged) (h : Fixed P (element v) bytes) :
    0 < bytes.length := by
  unfold element at h
  cases v with
  | scalar tag v =>
    simp only [fixed_bind_iff, fixed_pure_iff] at h
    obtain ⟨first, hfirst, i, -, index, -, rfl⟩ := h
    obtain ⟨b, rfl, -⟩ := exists_of_fixed_tagByte hv hfirst
    exact Nat.succ_pos _
  | enum descriptor name =>
    simp only [fixed_bind_iff, fixed_pure_iff] at h
    obtain ⟨i, -, j, -, d, -, n, -, rfl⟩ := h
    exact Nat.succ_pos _
  | nested descriptor visible values =>
    simp only [fixed_bind_iff, fixed_pure_iff] at h
    obtain ⟨d, -, count, -, rest, -, rfl⟩ := h
    exact Nat.succ_pos _
  | array es =>
    simp only [fixed_bind_iff, fixed_pure_iff] at h
    obtain ⟨count, -, rest, -, rfl⟩ := h
    exact Nat.succ_pos _

mutual

theorem reads_tagged (ht : Backs stored t P) (visible : Bool) (v : ElementValue)
    (hv : v.IsTagged) {bytes : Bytes} (h : Fixed P (element v) bytes) {fuel : Nat}
    (hfuel : bytes.length ≤ fuel) : Reads (readElementWith t visible fuel) bytes (v.stored visible) := by
  have hpos := pos_of_fixed_element hv h
  obtain ⟨fuel, rfl⟩ : ∃ n, fuel = n + 1 := ⟨fuel - 1, by omega⟩
  cases v with
  | scalar tag v => exact reads_tagged_scalar ht hv h visible fuel
  | enum descriptor name => exact reads_enum ht h visible fuel
  | nested descriptor visible' values =>
    exact reads_nested ht h fun parts hparts hlt =>
      reads_tagged_named ht visible values hv hparts (by omega)
  | array es =>
    exact reads_array h fun parts hparts hlt => reads_tagged_all ht visible es hv hparts (by omega)

theorem reads_tagged_all (ht : Backs stored t P) (visible : Bool) (es : List ElementValue)
    (hes : ElementValue.AreTagged es) {parts : List Bytes}
    (h : List.Forall₂ (fun v part => Fixed P (element v) part) es parts) {fuel : Nat}
    (hfuel : parts.flatten.length ≤ fuel) :
    List.Forall₂ (Reads (readElementWith t visible fuel)) parts (ElementValue.storedAll visible es) := by
  cases es with
  | nil =>
    cases h
    exact .nil
  | cons v rest =>
    cases h with
    | cons hpart hparts =>
      rw [List.flatten_cons, List.length_append] at hfuel
      exact .cons (reads_tagged ht visible v hes.1 hpart (by omega))
        (reads_tagged_all ht visible rest hes.2 hparts (by omega))

theorem reads_tagged_named (ht : Backs stored t P) (visible : Bool) (values : List (Text × ElementValue))
    (hvalues : ElementValue.AreTaggedNamed values) {parts : List Bytes}
    (h : List.Forall₂ (IsNamedElement P) values parts) {fuel : Nat}
    (hfuel : parts.flatten.length ≤ fuel) :
    List.Forall₂ (Reads (do
      let name ← t.utf8 (← Decoder.u2)
      return (name, ← readElementWith t visible fuel))) parts
        (ElementValue.storedNamed visible values) := by
  match values with
  | [] =>
    cases h
    exact .nil
  | (name, v) :: rest =>
    cases h with
    | cons hpart hparts =>
      rw [List.flatten_cons, List.length_append] at hfuel
      exact .cons (hpart.reads ht fun value hvalue hle =>
        reads_tagged ht visible v hvalues.1 hvalue (by omega))
        (reads_tagged_named ht visible rest hvalues.2 hparts (by omega))

end

/-! ## Annotations -/

theorem reads_readElement (ht : Backs stored t P) {v : ElementValue} (hv : v.IsTagged)
    (h : Fixed P (element v) bytes) (visible : Bool) :
    Reads (Decoding.readElement t visible) bytes (v.stored visible) :=
  reads_nesting fun _ hfuel => reads_tagged ht visible v hv h hfuel

theorem reads_readAnnotationUse (ht : Backs stored t P) {a : AnnotationUse} (ha : a.IsTagged)
    (h : Fixed P (annotationUse a) bytes) {fuel : Nat} (hfuel : bytes.length ≤ fuel) :
    Reads (Decoding.readAnnotationUse t a.visible fuel) bytes a.stored := by
  unfold annotationUse at h
  simp only [fixed_bind_iff, fixed_index_iff, fixed_addUtf8_iff, fixed_u2_iff, fixed_named_iff,
    fixed_pure_iff] at h
  obtain ⟨d, ⟨i, hi, hd⟩, count, hcount, _, ⟨parts, hparts, rfl⟩, rfl⟩ := h
  have hle : parts.flatten.length ≤ fuel := Nat.le_trans (by simp; omega) hfuel
  have hread := reads_tagged_named ht a.visible a.values ha hparts hle
  have hlength : (ElementValue.storedNamed a.visible a.values).length = a.values.length :=
    hread.length_eq.symm.trans hparts.length_eq.symm
  rw [List.append_assoc]
  refine (Reads.of_unsigned? hd).bind (.nil_bind (ht.reads_utf8 hi) ?_)
  exact (Reads.listOf (hlength ▸ hcount) hread).map _

theorem reads_readAnnotationUses (ht : Backs stored t P) {as : List AnnotationUse}
    (has : ∀ a ∈ as, a.IsTagged) {visible : Bool} (hvisible : ∀ a ∈ as, a.visible = visible)
    (h : Fixed P (annotationUses as) bytes) :
    Reads (Decoding.readAnnotationUses t visible) bytes (as.map AnnotationUse.stored) := by
  obtain ⟨count, hcount, parts, hparts, rfl⟩ := fixed_listOf_iff.1 h
  refine reads_nesting fun fuel hfuel => ?_
  rw [List.length_append] at hfuel
  have hread : List.Forall₂ (Reads (Decoding.readAnnotationUse t visible fuel)) parts
      (as.map AnnotationUse.stored) := by
    rw [List.forall₂_map_right_iff]
    refine List.forall₂_iff_get.2 ⟨hparts.length_eq.symm, fun i hi' hi => ?_⟩
    have hle := (List.sublist_flatten_of_mem (List.get_mem parts ⟨i, hi'⟩)).length_le
    have hmem := List.get_mem as ⟨i, hi⟩
    rw [← hvisible _ hmem]
    exact reads_readAnnotationUse ht (has _ hmem) (hparts.get hi hi') (by omega)
  have hlength : (as.map AnnotationUse.stored).length = as.length := List.length_map _
  exact Reads.listOf (hlength ▸ hcount) hread

theorem isTagged_ofVisibility {as : List AnnotationUse} (has : ∀ a ∈ as, a.IsTagged) (visible : Bool) :
    ∀ a ∈ ofVisibility visible as, a.IsTagged :=
  fun a ha => has a (List.mem_of_mem_filter ha)

theorem visible_of_mem_ofVisibility {as : List AnnotationUse} {visible : Bool} :
    ∀ a ∈ ofVisibility visible as, a.visible = visible :=
  fun _ ha => of_decide_eq_true (List.mem_filter.1 ha).2

/-- The tagged annotations of an entity are read if what it reads them with keeps what holds of the
state. -/
theorem ReadsPieces.annotations {σ : Type} {read : Text → Nat → σ → Decoder σ} {S : σ → Prop}
    (ht : Backs stored t P) {as : List AnnotationUse} (has : ∀ a ∈ as, a.IsTagged)
    (h : ∀ (visible : Bool) (data : Bytes) s,
      Parses True (Decoding.readAnnotationUses t visible) data (fun _ => True) → S s →
        Parses True (read (AttributeName.annotations visible) data.length s) data S) :
    ReadsPieces P read S (annotationPieces as) := by
  intro p hp
  obtain ⟨visible, -, hp⟩ := List.mem_flatMap.1 hp
  refine ReadsPieces.pieceIf (AttributeName.isPlain_annotations visible) (fun _ data s hdata => ?_) p hp
  exact h visible data s ((reads_readAnnotationUses ht (isTagged_ofVisibility has visible)
    visible_of_mem_ofVisibility hdata).parses trivial)

end Encoding

end ClassTree
