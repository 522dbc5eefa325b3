/-
# ClassTree.Proofs.Acceptance.Member — written fields and methods are read

The attributes of a field or a method are read one after another. What the reader asks of the
parameters is that no attribute covers more of them than the descriptor has; their number stays the
same while it reads.
-/
import ClassTree.Proofs.Acceptance.Code
import ClassTree.Proofs.Acceptance.Element
import ClassTree.Proofs.Descriptor

namespace ClassTree

open Decoding Encoding Encoder
open ModifiedUtf8 (stored IsPlain isPlain_ofString)

variable {P : Pool} {t : Table} {bytes : Bytes}

namespace Encoding

variable {σ : Type} {read : Text → Nat → σ → Decoder σ} {S : σ → Prop}

/-- The names of attributes of classes and members are plain. -/
theorem isPlain_signature : IsPlain AttributeName.signature := isPlain_ofString (by decide)

theorem reads_utf8_of_fixed {α : Type} (ht : Backs stored t P) {s : Text}
    (h : Fixed P (index (Pool.addUtf8 s)) bytes) (f : Text → α) :
    Reads (do return f (← t.utf8 (← Decoder.u2))) bytes (f (stored s)) := by
  obtain ⟨i, hi, hindex⟩ := fixed_index_iff.1 h
  exact (Reads.of_unsigned? hindex).bind_nil ((ht.reads_utf8 (fixed_addUtf8_iff.1 hi)).map f)

/-! ## Fields -/

/-- The kind in which the constant of a field is stored. -/
def fieldConstantKind (descriptor : Text) (v : Constant) : Text :=
  if descriptor = "Ljava/lang/String;" then Literal.Kind.string.name
  else (Literal.fieldKind descriptor v).name

/-- The constant of a field is read as it is stored. -/
theorem reads_fieldConstant (ht : Backs stored t P) {descriptor : Text} {v : Constant} {i : Nat}
    (h : Fixed P (addFieldConstant descriptor v) i) :
    Reads (t.constant i) []
      (fieldConstantKind descriptor v, v.readAs stored (fieldConstantKind descriptor v)) := by
  unfold addFieldConstant at h
  unfold fieldConstantKind
  split at h
  · next hstring =>
    rw [if_pos hstring]
    exact (Finding.string h).reads ht
  · next hother =>
    rw [if_neg hother]
    exact (fixed_addConstant_iff.1 h).reads ht

/-- The initial value of a field is read of its index. -/
theorem reads_constantValue {α : Type} (ht : Backs stored t P) {descriptor : Text} {v : Constant}
    (h : Fixed P (do u2 (← addFieldConstant descriptor v)) bytes) (f : Text × Constant → α) :
    Reads (do return f (← t.constant (← Decoder.u2))) bytes
      (f (fieldConstantKind descriptor v, v.readAs stored (fieldConstantKind descriptor v))) := by
  simp only [fixed_bind_iff, fixed_u2_iff] at h
  obtain ⟨i, hi, hindex⟩ := h
  exact (Reads.of_unsigned? hindex).bind_nil ((reads_fieldConstant ht hi).map _)

/-- The attributes of a field are read. -/
theorem readsPieces_fieldPieces (ht : Backs stored t P) {f : Field}
    (hannotations : ∀ a ∈ f.annotations, a.IsTagged)
    (hraw : ∀ a ∈ f.attributes, a.name ∉ AttributeName.ofField) :
    ReadsPieces P (readFieldAttribute t) (fun _ => True) (fieldPieces f) := by
  have hvalue : IsPlain AttributeName.constantValue := isPlain_ofString (by decide)
  refine .append (.append (.append ?value ?signature) ?annotations) ?raw
  case value =>
    refine .pieceOf? hvalue fun v _ data f hdata _ => ?_
    rw [readFieldAttribute_of_lookup _ AttributeName.constantValue _ rfl]
    exact (reads_constantValue ht hdata _).parses trivial
  case signature =>
    refine .pieceOf? isPlain_signature fun s _ data f hdata _ => ?_
    rw [readFieldAttribute_of_lookup _ AttributeName.signature _ rfl]
    exact (reads_utf8_of_fixed ht hdata _).parses trivial
  case annotations =>
    refine .annotations ht hannotations fun visible data f hdata _ => ?_
    rw [readFieldAttribute_of_lookup _ _ _ (lookup_annotations_fieldReaders _ _)]
    exact hdata.map _ fun _ _ => trivial
  case raw =>
    refine .raw (fun n hn => AttributeName.isPlain_of_mem (by simp [hn])) hraw ?_
    intro name hname data f _
    rw [readFieldAttribute_of_notMem _ _ hname]
    exact ((Reads.bytes data).map _).parses trivial

theorem parses_readField (ht : Backs stored t P) {f : Field}
    (hannotations : ∀ a ∈ f.annotations, a.IsTagged)
    (hraw : ∀ a ∈ f.attributes, a.name ∉ AttributeName.ofField) (h : Fixed P (field f) bytes) :
    Parses True (readField t) bytes fun _ => True := by
  obtain ⟨head, rest, as, hhead, hwrites, has, rfl⟩ := isMember_of_fixed_field h
  obtain ⟨i, j, hi, hj, a, n, d, ha, hn, hd, rfl⟩ := fixed_memberHead_iff.1 hhead
  rw [List.append_assoc, List.append_assoc]
  refine .of_reads (Reads.unsigned (length_of_unsigned? ha)) ?_
  refine .of_reads (Reads.of_unsigned? hn) (.nil_bind (ht.reads_utf8 hi) ?_)
  refine .of_reads (Reads.of_unsigned? hd) (.nil_bind (ht.reads_utf8 hj) ?_)
  exact (readsPieces_fieldPieces ht hannotations hraw).parses_attributes ht hwrites has trivial

/-! ## Parameters -/

/-- The count of an attribute about parameters is in a byte of its own. -/
theorem exists_of_fixed_parameterCount {place : Text} {m : Method} {given : Option Int} {count : Int}
    (h : parameterCount place m given = .ok count) :
    count = given.getD m.parameters.length ∧ count.toNat ≤ m.parameters.length := by
  unfold parameterCount at h
  cases given with
  | none =>
    cases h
    exact ⟨rfl, by simp⟩
  | some n =>
    dsimp only at h
    split at h
    · next hn =>
      cases h
      exact ⟨rfl, by omega⟩
    · cases h

/-- A count that is not too large is read. -/
theorem reads_readParameterCount {name : Text} {arity count : Nat}
    (hbytes : Bytes.unsigned? 1 (count : Nat) = some bytes) (hle : count ≤ arity) :
    Reads (readParameterCount name arity) bytes count := by
  intro position rest
  refine Decoder.bind_eq_ok_iff.2 ⟨position, _, rfl, ?_⟩
  refine Decoder.bind_eq_ok_iff.2 ⟨count, _, Reads.of_unsigned? hbytes position rest, ?_⟩
  show (if count > arity then _ else _ : Decoder _) _ = _
  rw [if_neg (Nat.not_lt.2 hle)]
  rfl

theorem parses_readParametersOnto {read : Parameter → Decoder Parameter} {ps : List Parameter}
    (acc : List Parameter) {parts : List Bytes} (hlength : ps.length = parts.length)
    (h : ∀ p, ∀ part ∈ parts, Parses True (read p) part fun _ => True) :
    Parses True (readParametersOnto read ps acc) parts.flatten
      fun read => read.length = acc.length + ps.length := by
  induction ps generalizing acc parts with
  | nil =>
    obtain rfl := List.eq_nil_of_length_eq_zero hlength.symm
    exact .pure (by simp)
  | cons p ps ih =>
    obtain ⟨part, parts, rfl⟩ := List.exists_cons_of_length_eq_add_one hlength.symm
    refine (h p part (List.mem_cons_self ..)).bind fun p' _ => ?_
    refine (ih (p' :: acc) (Nat.succ.inj hlength) fun p part hpart =>
      h p part (List.mem_cons_of_mem _ hpart)).imp fun read hread => ?_
    rw [hread]
    simp only [List.length_cons]
    omega

/-- What an attribute of parameter annotations is written of. -/
theorem exists_of_fixed_parameterAnnotations {place : Text} {m : Method} {visible : Bool}
    {given : Option Int} (h : Fixed P (parameterAnnotations place m visible given) bytes) :
    ∃ (count : Int) (head : Bytes) (parts : List Bytes), parameterCount place m given = .ok count ∧
      Bytes.unsigned? 1 count = some head ∧
      List.Forall₂ (fun p part => Fixed P (annotationUses (ofVisibility visible p.annotations)) part)
        (m.parameters.drop (m.parameters.length - count.toNat)) parts ∧
      bytes = head ++ parts.flatten := by
  unfold parameterAnnotations at h
  obtain ⟨count, Q, hlift, h⟩ := Encoder.bind_eq_ok_iff.1 h
  obtain ⟨hcount, rfl⟩ := lift_eq_ok_iff.1 hlift
  change Fixed P _ bytes at h
  split at h
  · exact absurd h not_fixed_throw
  · obtain ⟨head, hhead, h⟩ := fixed_bind_iff.1 h
    simp only [fixed_bind_iff, fixed_all_iff, fixed_pure_iff] at h
    obtain ⟨_, ⟨parts, hparts, rfl⟩, rfl⟩ := h
    exact ⟨count, head, parts, hcount, fixed_u1_iff.1 hhead, hparts, rfl⟩

/-- What an attribute of parameter names is written of. -/
theorem exists_of_fixed_methodParameters {place : Text} {m : Method}
    (h : Fixed P (methodParameters place m) bytes) :
    ∃ (count : Int) (head : Bytes) (parts : List Bytes),
      parameterCount place m m.parameterCount = .ok count ∧ Bytes.unsigned? 1 count = some head ∧
      List.Forall₂ (fun p part => Fixed P (parameter p) part) (m.parameters.take count.toNat) parts ∧
      bytes = head ++ parts.flatten := by
  unfold methodParameters at h
  obtain ⟨count, Q, hlift, h⟩ := Encoder.bind_eq_ok_iff.1 h
  obtain ⟨hcount, rfl⟩ := lift_eq_ok_iff.1 hlift
  change Fixed P _ bytes at h
  split at h
  · exact absurd h not_fixed_throw
  · obtain ⟨head, hhead, h⟩ := fixed_bind_iff.1 h
    simp only [fixed_bind_iff, fixed_all_iff, fixed_pure_iff] at h
    obtain ⟨_, ⟨parts, hparts, rfl⟩, rfl⟩ := h
    exact ⟨count, head, parts, hcount, fixed_u1_iff.1 hhead, hparts, rfl⟩

variable {place : Text} {m : Method} {m' : Method} {arity : Nat}

/-- Annotations of parameters are read if they are for no more parameters than there are. -/
theorem parses_readParameterAnnotations (ht : Backs stored t P) {visible : Bool} {given : Option Int}
    (htags : ∀ p ∈ m.parameters, ∀ a ∈ p.annotations, a.IsTagged)
    (h : Fixed P (parameterAnnotations place m visible given) bytes)
    (hcovers : given.getD m.parameters.length ≤ arity) (harity : m'.parameters.length = arity) :
    Parses True (readParameterAnnotations t visible m') bytes fun r => r.parameters.length = arity := by
  obtain ⟨count, head, parts, hcount, hhead, hparts, rfl⟩ := exists_of_fixed_parameterAnnotations h
  obtain ⟨hgiven, hle⟩ := exists_of_fixed_parameterCount hcount
  obtain rfl := exists_nat_of_unsigned? hhead
  have hle' : head.toNat ≤ m'.parameters.length := by omega
  have hlength : parts.length = head.toNat := by
    rw [← hparts.length_eq, List.length_drop]
    omega
  have hread : ∀ p : Parameter, ∀ part ∈ parts, Parses True (do
      return { p with annotations := p.annotations ++ (← Decoding.readAnnotationUses t visible) })
      part fun _ => True := by
    intro p part hpart
    obtain ⟨own, hown, hwritten⟩ := Result.exists_of_mem_right hparts hpart
    have htagged := isTagged_ofVisibility (htags own (List.mem_of_mem_drop hown)) visible
    have hread := reads_readAnnotationUses ht htagged visible_of_mem_ofVisibility hwritten
    exact (hread.map _).parses trivial
  refine .of_reads (reads_readParameterCount hhead hle') ?_
  refine (parses_readParametersOnto [] ?_ hread).bind_nil fun annotated hannotated => ?_
  · rw [List.length_drop]
    omega
  · have hall : (m'.parameters.take (m'.parameters.length - head.toNat) ++ annotated).length = arity := by
      rw [List.length_append, List.length_take, hannotated, List.length_drop, List.length_nil]
      omega
    dsimp only
    split
    · exact .pure hall
    · split <;> exact .pure hall

/-- The name and the flags of a parameter are read. -/
theorem reads_parameter (ht : Backs stored t P) {own : Parameter} (h : Fixed P (parameter own) bytes)
    (p : Parameter) : Reads (do
      let name ← t.utf8? (← Decoder.u2)
      return { p with name, access := ← Decoder.u2 }) bytes
        { p with name := own.name.map stored, access := own.access } := by
  rw [parameter_eq] at h
  simp only [fixed_bind_iff, fixed_u2_iff, fixed_pure_iff] at h
  obtain ⟨i, hi, index, hindex, access, haccess, rfl⟩ := h
  have hname : Reads (t.utf8? i) [] (own.name.map stored) := by
    unfold givenName at hi
    split at hi
    · next hgiven =>
      have hfound := fixed_addUtf8_iff.1 hi
      unfold Table.utf8?
      rw [if_neg (ht.ne_zero hfound), hgiven]
      exact (ht.reads_utf8 hfound).map _
    · next hmissing =>
      obtain rfl := fixed_pure_iff.1 hi
      rw [hmissing]
      exact .pure none
  refine (Reads.of_unsigned? hindex).bind (hname.nil_bind ?_)
  rw [exists_nat_of_unsigned? haccess]
  exact (Reads.unsigned (length_of_unsigned? haccess)).map fun n : Nat =>
    { p with name := own.name.map stored, access := n }

/-- Names and flags of parameters are read if they are for no more parameters than there are. -/
theorem parses_readMethodParameters (ht : Backs stored t P) (h : Fixed P (methodParameters place m) bytes)
    (hcovers : m.parameterCount.getD m.parameters.length ≤ arity)
    (harity : m'.parameters.length = arity) :
    Parses True (readMethodParameters t m') bytes fun r => r.parameters.length = arity := by
  obtain ⟨count, head, parts, hcount, hhead, hparts, rfl⟩ := exists_of_fixed_methodParameters h
  obtain ⟨hgiven, hle⟩ := exists_of_fixed_parameterCount hcount
  obtain rfl := exists_nat_of_unsigned? hhead
  have hle' : head.toNat ≤ m'.parameters.length := by omega
  have hlength : parts.length = head.toNat := by
    rw [← hparts.length_eq, List.length_take]
    omega
  refine .of_reads (reads_readParameterCount hhead hle') ?_
  refine (parses_readParametersOnto [] ?_ fun p part hpart => ?_).bind_nil fun named hnamed => ?_
  · rw [List.length_take]
    omega
  · obtain ⟨own, -, hwritten⟩ := Result.exists_of_mem_right hparts hpart
    exact (reads_parameter ht hwritten p).parses trivial
  · have hall : (named ++ m'.parameters.drop head.toNat).length = arity := by
      rw [List.length_append, List.length_drop, hnamed, List.length_take, List.length_nil]
      omega
    dsimp only
    split <;> exact .pure hall

/-! ## Methods -/

/-- A method that is read back if it is written with a pool: it is sound and tagged, its body is
legible in its layout, its attributes about parameters fit the descriptor that is stored, and it
keeps no attribute as bytes that would be taken apart. -/
structure IsReadable (P : Pool) (m : Method) : Prop where
  isSound : m.IsSound
  isTagged : m.IsTagged
  body : ∀ l, Fixed P (Layout.of m.body) l → LegibleIn l m.body
  parameters : ∃ types, Descriptor.arguments (stored m.descriptor) = .ok types ∧
    m.Covers m.visibleCount (isAnnotated true) types.length ∧
      m.Covers m.invisibleCount (isAnnotated false) types.length ∧
      m.Covers m.parameterCount isNamed types.length
  attributes : ∀ a ∈ m.attributes, a.name ∉ AttributeName.ofMethod
  codeAttributes : m.hasCode = true → ∀ a ∈ m.codeAttributes, a.name ∉ AttributeName.ofCode

/-- A sound, tagged and legible method with a well-formed descriptor is read back with any pool. -/
theorem IsReadable.of_isLegible (P : Pool) {m : Method} (hsound : m.IsSound) (htagged : m.IsTagged)
    (hlegible : m.IsLegible) (hmethod : Descriptor.IsMethod m.descriptor) : IsReadable P m where
  isSound := hsound
  isTagged := htagged
  body _ hl := hlegible.body.legibleIn hl
  parameters := by
    obtain ⟨types, htypes⟩ := hmethod
    have hfits := hlegible.parameters types htypes.arguments_eq
    obtain ⟨types', harguments, hlength⟩ :
        ∃ types', Descriptor.arguments (stored m.descriptor) = .ok types' ∧
        types'.length = types.length :=
      ⟨_, htypes.isMethodOf_stored.arguments_eq, List.length_map _⟩
    exact ⟨types', harguments, hlength ▸ hfits⟩
  attributes := hlegible.attributes
  codeAttributes := hlegible.codeAttributes

theorem parses_readMethodCode (ht : Backs stored t P) (hsites : HasSites t P) (hm : IsReadable P m)
    (hcode : m.hasCode = true) {owner : Text} {verify stackMaps : Bool}
    (h : Fixed P (code owner verify stackMaps m) bytes) (m' : Method) :
    Parses True (readMethodCode t m') bytes fun r => r.parameters = m'.parameters := by
  obtain ⟨parts, rfl⟩ := exists_codeParts h
  exact (parts.parses_readCode ht hsites hm.isSound (hm.body _ parts.fixed_layout)
    (hm.codeAttributes hcode) _).map _ fun _ _ => rfl

/-- The classes of a list, such as the exceptions of a method, are read. -/
theorem reads_classNames (ht : Backs stored t P) {names : List (Option Text)}
    (h : Fixed P (Encoder.listOf (fun name => index (Pool.addClass name)) names) bytes) :
    Reads (Decoder.listOf do t.className (← Decoder.u2)) bytes (names.map (Option.map stored)) := by
  obtain ⟨count, hcount, parts, hparts, rfl⟩ := fixed_listOf_iff.1 h
  have hread : List.Forall₂ (Reads (do t.className (← Decoder.u2))) parts
      (names.map (Option.map stored)) := by
    rw [List.forall₂_map_right_iff]
    refine hparts.flip.imp fun part name hpart => ?_
    obtain ⟨i, hi, hindex⟩ := fixed_index_iff.1 hpart
    obtain ⟨s, rfl, hs⟩ := ht.reads_className hi
    exact (Reads.of_unsigned? hindex).bind_nil hs
  have hlength : (names.map (Option.map stored)).length = names.length := List.length_map _
  exact Reads.listOf (hlength ▸ hcount) hread

theorem readsPieces_parameterAnnotationPiece (ht : Backs stored t P)
    (htags : ∀ p ∈ m.parameters, ∀ a ∈ p.annotations, a.IsTagged) {visible : Bool} {given : Option Int}
    (hcovers : m.Covers given (Encoding.isAnnotated visible) arity) :
    ReadsPieces P (readMethodAttribute t) (fun r => r.parameters.length = arity)
      (parameterAnnotationPiece place m visible given) := by
  refine .pieceIf (AttributeName.isPlain_parameterAnnotations visible) fun hthere data m' hdata hm' => ?_
  rw [readMethodAttribute_of_lookup _ _ _ (lookup_parameterAnnotations _ _)]
  exact parses_readParameterAnnotations ht htags hdata (hcovers hthere) hm'

/-- The attributes of a method are read, whatever has been read of the method before, as long as it
has its parameters. Attributes about parameters need their number: the reader refuses a count that
is greater. -/
theorem readsPieces_methodPieces (ht : Backs stored t P) (hsites : HasSites t P) (hm : IsReadable P m)
    (hvisible : m.Covers m.visibleCount (isAnnotated true) arity)
    (hinvisible : m.Covers m.invisibleCount (isAnnotated false) arity)
    (hnames : m.Covers m.parameterCount isNamed arity) (owner : Text) (verify stackMaps : Bool) :
    ReadsPieces P (readMethodAttribute t) (fun r => r.parameters.length = arity)
      (methodPieces owner verify stackMaps m) := by
  have hexceptions : IsPlain AttributeName.exceptions := isPlain_ofString (by decide)
  have hdefault : IsPlain AttributeName.annotationDefault := isPlain_ofString (by decide)
  have hparameters : IsPlain AttributeName.methodParameters := isPlain_ofString (by decide)
  refine .append (.append (.append (.append (.append (.append (.append (.append ?code ?exceptions)
    ?signature) ?annotations) ?visible) ?invisible) ?default) ?parameters) ?raw
  case code =>
    refine .pieceIf isPlain_code fun hcode data m' hdata hm' => ?_
    rw [readMethodAttribute_of_lookup _ AttributeName.code _ rfl]
    exact (parses_readMethodCode ht hsites hm hcode hdata _).imp fun r hr => hr ▸ hm'
  case exceptions =>
    refine .pieceIf hexceptions fun _ data m' hdata hm' => ?_
    rw [readMethodAttribute_of_lookup _ AttributeName.exceptions _ rfl]
    exact ((reads_classNames ht hdata).map _).parses hm'
  case signature =>
    refine .pieceOf? isPlain_signature fun s _ data m' hdata hm' => ?_
    rw [readMethodAttribute_of_lookup _ AttributeName.signature _ rfl]
    exact (reads_utf8_of_fixed ht hdata _).parses hm'
  case annotations =>
    refine .annotations ht hm.isTagged.annotations fun visible data m' hdata hm' => ?_
    rw [readMethodAttribute_of_lookup _ _ _ (lookup_annotations_methodReaders _ _)]
    exact hdata.map _ fun _ _ => hm'
  case visible => exact readsPieces_parameterAnnotationPiece ht hm.isTagged.parameters hvisible
  case invisible => exact readsPieces_parameterAnnotationPiece ht hm.isTagged.parameters hinvisible
  case default =>
    refine .pieceOf? hdefault fun v hv data m' hdata hm' => ?_
    rw [readMethodAttribute_of_lookup _ AttributeName.annotationDefault _ rfl]
    exact ((reads_readElement ht (hm.isTagged.default v hv) hdata true).map _).parses hm'
  case parameters =>
    refine .pieceIf hparameters fun hthere data m' hdata hm' => ?_
    rw [readMethodAttribute_of_lookup _ AttributeName.methodParameters _ rfl]
    exact parses_readMethodParameters ht hdata (hnames hthere) hm'
  case raw =>
    refine .raw (fun n hn => AttributeName.isPlain_of_mem (by simp [hn])) hm.attributes ?_
    intro name hname data m' hm'
    rw [readMethodAttribute_of_notMem _ _ hname]
    exact ((Reads.bytes data).map _).parses hm'

theorem parses_readMethod (ht : Backs stored t P) (hsites : HasSites t P) (hm : IsReadable P m)
    {owner : Text} {verify stackMaps : Bool} (h : Fixed P (method owner verify stackMaps m) bytes) :
    Parses True (readMethod t) bytes fun _ => True := by
  obtain ⟨head, rest, as, hhead, hwrites, has, rfl⟩ := isMember_of_fixed_method h
  obtain ⟨i, j, hi, hj, a, n, d, ha, hn, hd, rfl⟩ := fixed_memberHead_iff.1 hhead
  obtain ⟨types, harguments, hvisible, hinvisible, hnames⟩ := hm.parameters
  rw [List.append_assoc, List.append_assoc]
  refine .of_reads (Reads.unsigned (length_of_unsigned? ha)) ?_
  refine .of_reads (Reads.of_unsigned? hn) (.nil_bind (ht.reads_utf8 hi) ?_)
  refine .of_reads (Reads.of_unsigned? hd) (.nil_bind (ht.reads_utf8 hj) ?_)
  rw [harguments]
  refine ((readsPieces_methodPieces ht hsites hm hvisible hinvisible hnames owner verify
    stackMaps).parses_attributes ht hwrites has ?_).imp fun _ _ => trivial
  simp [parametersOf]

end Encoding

end ClassTree
