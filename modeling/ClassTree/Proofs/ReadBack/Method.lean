/-
# ClassTree.Proofs.ReadBack.Method — what methods are read back as

A method that has been written is read back with its head, with the single values of its attributes,
with its annotations of each visibility, and with the code that is put together of its parts. Of the
attributes about parameters each belongs to some of them only; how many they are is written, so what
is read of such an attribute is a function of the method, whichever attributes stand before it.
-/
import ClassTree.Proofs.ParameterAttributes
import ClassTree.Proofs.ReadBack.Code

namespace ClassTree

open Decoding Encoding Encoder
open ModifiedUtf8 (stored IsPlain isPlain_ofString)
open ParameterTables

variable {P : Pool} {t : Table}

/-! ## What an attribute changes -/

theorem AttributeName.ofParameters_subset : ofParameters ⊆ ofMethod := by decide

/-- The code of a method, with the name and the descriptor that its labels are named after, and
nothing else of it. -/
def Method.onlyCode (m : Method) : Method where
  access := 0
  name := m.name
  descriptor := m.descriptor
  maxima := m.maxima
  body := m.body
  handlers := m.handlers
  localVariables := m.localVariables
  codeAttributes := m.codeAttributes

/-- What a descriptor says about a parameter. -/
def Parameter.head (p : Parameter) : Int × Text := (p.index, p.descriptor)

/-- What an attribute of a method changes, its layout aside. -/
inductive Method.Changes (m : Method) (a : Attribute) : Method → Prop
  | code (h : a.name = AttributeName.code) (code : Code) (layout : MethodLayout) :
    Changes m a { m with
      maxima := some code.maxima, body := code.body, handlers := code.handlers,
      localVariables := code.localVariables, codeAttributes := code.attributes, layout }
  | exceptions (h : a.name = AttributeName.exceptions) (names : List (Option Text))
    (layout : MethodLayout) : Changes m a { m with exceptions := names, layout }
  | signature (h : a.name = AttributeName.signature) (s : Text) (layout : MethodLayout) :
    Changes m a { m with signature := some s, layout }
  | annotations (visible : Bool) (h : a.name = AttributeName.annotations visible)
    (as : List AnnotationUse) (has : ∀ b ∈ as, b.visible = visible) (hseen : ∀ b ∈ as, b.IsSeen)
    (layout : MethodLayout) :
    Changes m a { m with annotations := m.annotations ++ as, layout }
  | default (h : a.name = AttributeName.annotationDefault) (v : ElementValue) (hseen : v.IsSeen true)
    (layout : MethodLayout) :
    Changes m a { m with default := some v, layout }
  | parameters (h : a.name ∈ AttributeName.ofParameters) (parameters : List Parameter)
    (hparameters : parameters.map Parameter.head = m.parameters.map Parameter.head)
    (visibleCount invisibleCount parameterCount : Option Int) (layout : MethodLayout) :
    Changes m a { m with parameters, visibleCount, invisibleCount, parameterCount, layout }
  | raw (h : a.name ∉ AttributeName.ofMethod) (layout : MethodLayout) :
    Changes m a { m with attributes := m.attributes ++ [a], layout }

namespace Decoding

/-- A method has been read on about its parameters, and about nothing else. -/
def ChangesParameters (m m' : Method) : Prop :=
  ∃ parameters visibleCount invisibleCount parameterCount,
    parameters.map Parameter.head = m.parameters.map Parameter.head ∧
      m' = { m with parameters, visibleCount, invisibleCount, parameterCount }

variable {file : Bytes}

theorem changesParameters_readParameterAnnotations (visible : Bool) (m : Method) :
    Yields file (readParameterAnnotations t visible m) (ChangesParameters m) := by
  have hread (p : Parameter) : Yields file (do
      return ({ p with annotations := p.annotations ++ (← readAnnotationUses t visible) } : Parameter))
      fun q => q.head = p.head := .any_map fun _ => rfl
  unfold readParameterAnnotations
  refine .any_bind fun count => (yields_readParametersOnto hread _ []).bind fun annotated hannotated => ?_
  have hkept : (m.parameters.take (m.parameters.length - count) ++ annotated).map Parameter.head =
      m.parameters.map Parameter.head := by
    rw [List.map_append, hannotated, List.reverse_nil, List.map_nil, List.nil_append,
      ← List.map_append, List.take_append_drop]
  exact .ite (.pure ⟨_, _, _, _, hkept, rfl⟩)
    (.ite (.pure ⟨_, _, _, _, hkept, rfl⟩) (.pure ⟨_, _, _, _, hkept, rfl⟩))

theorem changesParameters_readMethodParameters (m : Method) :
    Yields file (readMethodParameters t m) (ChangesParameters m) := by
  have hread (p : Parameter) : Yields file (do
      let name ← t.utf8? (← Decoder.u2)
      return ({ p with name, access := ← Decoder.u2 } : Parameter)) fun q => q.head = p.head :=
    .any_bind fun _ => .any_bind fun _ => .any_map fun _ => rfl
  unfold readMethodParameters
  refine .any_bind fun count => (yields_readParametersOnto hread _ []).bind fun named hnamed => ?_
  have hkept : (named ++ m.parameters.drop count).map Parameter.head =
      m.parameters.map Parameter.head := by
    rw [List.map_append, hnamed, List.reverse_nil, List.map_nil, List.nil_append,
      ← List.map_append, List.take_append_drop]
  exact .ite (.pure ⟨_, _, _, _, hkept, rfl⟩) (.pure ⟨_, _, _, _, hkept, rfl⟩)

/-- Reading an attribute changes a method in the one way that the name of the attribute stands for.
-/
theorem changes_of_readMethodAttribute {a : Attribute} {m m' : Method}
    (h : Outline.whole (readMethodAttribute t a.name a.data.length m) a.data = .ok m') :
    m.Changes a m' := by
  by_cases hcode : a.name = AttributeName.code
  · unfold readMethodAttribute at h
    rw [if_pos hcode] at h
    obtain ⟨r, code, c, -, -, rfl⟩ := exists_of_readMethodCode h
    exact .code hcode code _
  obtain ⟨c, hread, -⟩ := whole_eq_ok_iff.1 h
  have hin : (⟨0, a.data⟩ : Cursor).IsIn a.data := Cursor.isIn_drop a.data 0
  -- three of the attributes are about the parameters, and none of them changes their heads
  have hparameters {d : Decoder Method} (hname : a.name ∈ AttributeName.ofParameters)
      (hd : Yields a.data d (ChangesParameters { m with
        layout := { m.layout with attributeOrder := m.layout.attributeOrder ++ [a.name] } }))
      (hread : d ⟨0, a.data⟩ = .ok (m', c)) : m.Changes a m' := by
    obtain ⟨parameters, visibleCount, invisibleCount, parameterCount, hheads, rfl⟩ := hd _ _ _ hin hread
    exact .parameters (m := m) hname parameters hheads visibleCount invisibleCount parameterCount _
  unfold readMethodAttribute at hread
  rw [if_neg hcode] at hread
  by_cases hexceptions : a.name = AttributeName.exceptions
  · rw [if_pos hexceptions] at hread
    obtain ⟨names, _, -, hm⟩ := Decoder.bind_eq_ok_iff.1 hread
    cases hm
    exact .exceptions hexceptions names _
  rw [if_neg hexceptions] at hread
  by_cases hsignature : a.name = AttributeName.signature
  · rw [if_pos hsignature] at hread
    obtain ⟨i, _, -, hread⟩ := Decoder.bind_eq_ok_iff.1 hread
    obtain ⟨s, _, -, hm⟩ := Decoder.bind_eq_ok_iff.1 hread
    cases hm
    exact .signature hsignature s _
  rw [if_neg hsignature] at hread
  by_cases hvisible : a.name = AttributeName.annotations true
  · rw [if_pos hvisible] at hread
    obtain ⟨as, _, has, hm⟩ := Decoder.bind_eq_ok_iff.1 hread
    cases hm
    exact .annotations true hvisible as (visible_of_readAnnotationUses has)
      (isSeen_of_readAnnotationUses has) _
  rw [if_neg hvisible] at hread
  by_cases hinvisible : a.name = AttributeName.annotations false
  · rw [if_pos hinvisible] at hread
    obtain ⟨as, _, has, hm⟩ := Decoder.bind_eq_ok_iff.1 hread
    cases hm
    exact .annotations false hinvisible as (visible_of_readAnnotationUses has)
      (isSeen_of_readAnnotationUses has) _
  rw [if_neg hinvisible] at hread
  by_cases hvisibleParameters : a.name = AttributeName.parameterAnnotations true
  · rw [if_pos hvisibleParameters] at hread
    exact hparameters (by rw [hvisibleParameters]; decide)
      (changesParameters_readParameterAnnotations true _) hread
  rw [if_neg hvisibleParameters] at hread
  by_cases hinvisibleParameters : a.name = AttributeName.parameterAnnotations false
  · rw [if_pos hinvisibleParameters] at hread
    exact hparameters (by rw [hinvisibleParameters]; decide)
      (changesParameters_readParameterAnnotations false _) hread
  rw [if_neg hinvisibleParameters] at hread
  by_cases hdefault : a.name = AttributeName.annotationDefault
  · rw [if_pos hdefault] at hread
    obtain ⟨v, _, hv, hm⟩ := Decoder.bind_eq_ok_iff.1 hread
    cases hm
    exact .default hdefault v (isSeen_of_readElement hv) _
  rw [if_neg hdefault] at hread
  by_cases hnames : a.name = AttributeName.methodParameters
  · rw [if_pos hnames] at hread
    exact hparameters (by rw [hnames]; decide) (changesParameters_readMethodParameters _) hread
  · rw [if_neg hnames] at hread
    obtain ⟨data, _, hdata, hm⟩ := Decoder.bind_eq_ok_iff.1 hread
    cases hm
    obtain rfl := eq_of_bytes hdata
    exact .raw (by simp [AttributeName.ofMethod, hcode, hexceptions, hsignature, hvisible, hinvisible,
      hvisibleParameters, hinvisibleParameters, hdefault, hnames]) _

theorem concerns_methodExceptions :
    Concerns (readMethodAttribute t) Method.exceptions AttributeName.exceptions :=
  fun a s s' hname hread => by
    cases changes_of_readMethodAttribute hread with
    | exceptions h => exact absurd h hname
    | _ => rfl

theorem concerns_methodSignature :
    Concerns (readMethodAttribute t) Method.signature AttributeName.signature :=
  fun a s s' hname hread => by
    cases changes_of_readMethodAttribute hread with
    | signature h => exact absurd h hname
    | _ => rfl

theorem concerns_methodAnnotations (visible : Bool) :
    Concerns (readMethodAttribute t) (fun m => ofVisibility visible m.annotations)
      (AttributeName.annotations visible) :=
  fun a s s' hname hread => by
    cases changes_of_readMethodAttribute hread with
    | annotations visible' h as has =>
      exact ofVisibility_append_of_ne has fun heq => hname (heq ▸ h)
    | _ => rfl

theorem concerns_methodDefault :
    Concerns (readMethodAttribute t) Method.default AttributeName.annotationDefault :=
  fun a s s' hname hread => by
    cases changes_of_readMethodAttribute hread with
    | default h => exact absurd h hname
    | _ => rfl

theorem concerns_methodCode :
    Concerns (readMethodAttribute t) Method.onlyCode AttributeName.code :=
  fun a s s' hname hread => by
    cases changes_of_readMethodAttribute hread with
    | code h => exact absurd h hname
    | _ => rfl

/-- The head of a method is no business of its attributes, and no more are the places and the types
of its parameters. -/
theorem methodHead_eq_of_readAll {as : List Attribute} {m m' : Method}
    (h : Attribute.readAll (readMethodAttribute t) as m = .ok m') :
    (m'.access, m'.name, m'.descriptor, m'.parameters.map Parameter.head) =
      (m.access, m.name, m.descriptor, m.parameters.map Parameter.head) := by
  refine observe_eq_of_readAll (fun m : Method =>
    (m.access, m.name, m.descriptor, m.parameters.map Parameter.head)) h ?_
  intro a _ s s' hread
  cases changes_of_readMethodAttribute hread with
  | parameters _ _ hparameters =>
    dsimp only
    rw [hparameters]
  | _ => rfl

theorem keepsRaw_readMethodAttribute :
    KeepsRaw (readMethodAttribute t) Method.attributes AttributeName.ofMethod where
  modelled a s s' hname hread := by
    cases changes_of_readMethodAttribute hread with
    | raw h => exact absurd hname h
    | _ => rfl
  raw a s s' hname hread := by
    have hne {name : Text} (hmem : name ∈ AttributeName.ofMethod) (h : a.name = name) : False :=
      hname (h ▸ hmem)
    cases changes_of_readMethodAttribute hread with
    | raw => rfl
    | code h => exact (hne (by decide) h).elim
    | exceptions h => exact (hne (by decide) h).elim
    | signature h => exact (hne (by decide) h).elim
    | annotations visible h => exact (hne (by cases visible <;> decide) h).elim
    | default h => exact (hne (by decide) h).elim
    | parameters h => exact (hname (AttributeName.ofParameters_subset h)).elim

end Decoding

/-! ## Parameters -/

/-- How many parameters an attribute about them covers: all of them, or as many as the method says.
-/
def Method.covered (m : Method) (given : Option Int) : Nat := (given.getD m.parameters.length).toNat

/-- What the attributes about the parameters of a method say when they are read. -/
def Method.storedTables (m : Method) : ParameterTables where
  annotations visible :=
    if (m.annotationCount visible).isSome || m.parameters.any (Encoding.isAnnotated visible) then
      some ((m.parameters.drop (m.parameters.length - m.covered (m.annotationCount visible))).map
        fun p => (ofVisibility visible p.annotations).map AnnotationUse.stored)
    else none
  names :=
    if m.parameterCount.isSome || m.parameters.any Encoding.isNamed then
      some ((m.parameters.take (m.covered m.parameterCount)).map fun p =>
        (p.name.map stored, p.access.toNat))
    else none

namespace Decoding

theorem exists_of_readParameterCount {name : Text} {arity count : Nat} {c c₁ : Cursor}
    (h : readParameterCount name arity c = .ok (count, c₁)) :
    Decoder.u1 c = .ok (count, c₁) ∧ count ≤ arity := by
  unfold readParameterCount at h
  obtain ⟨start, _, ⟨⟩, h⟩ := Decoder.bind_eq_ok_iff.1 h
  obtain ⟨found, c₂, hfound, h⟩ := Decoder.bind_eq_ok_iff.1 h
  split at h
  · next hmore =>
    obtain ⟨_, _, hrefuse, -⟩ := Decoder.bind_eq_ok_iff.1 h
    cases hrefuse
  · next hle =>
    cases h
    exact ⟨hfound, Nat.le_of_not_lt hle⟩

/-- The bytes of an attribute that has been read begin with a count of no more parameters than there
are. -/
theorem count_le_of_readParameterCount {β : Type} {name : Text} {arity : Nat} {k : Nat → Decoder β}
    {head rest : Bytes} {count : Int} {b : β} (hhead : Bytes.unsigned? 1 count = some head)
    (h : Outline.whole (readParameterCount name arity >>= k) (head ++ rest) = .ok b) :
    count.toNat ≤ arity := by
  obtain ⟨c, hread, -⟩ := whole_eq_ok_iff.1 h
  obtain ⟨found, c₁, hfound, -⟩ := Decoder.bind_eq_ok_iff.1 hread
  obtain ⟨hu1, hle⟩ := exists_of_readParameterCount hfound
  have hone := Reads.unsigned (length_of_unsigned? hhead) 0 rest
  cases hone.symm.trans hu1
  have hcount := exists_nat_of_unsigned? hhead
  omega

/-- An attribute of a method has been read when the method had as many parameters as at the end. -/
theorem exists_whole_of_readAll_method {as : List Attribute} {m m' : Method}
    (h : Attribute.readAll (readMethodAttribute t) as m = .ok m') {a : Attribute} (ha : a ∈ as) :
    ∃ m₁ m₂, m₁.parameters.length = m.parameters.length ∧
      Outline.whole (readMethodAttribute t a.name a.data.length m₁) a.data = .ok m₂ := by
  obtain ⟨before, after, rfl⟩ := List.append_of_mem ha
  obtain ⟨m₁, m₂, hbefore, hread, -⟩ := readAll_append_cons h
  refine ⟨m₁, m₂, ?_, hread⟩
  exact observe_eq_of_readAll (fun m : Method => m.parameters.length) hbefore fun _ _ _ _ hwhole =>
    (spares_of_whole hwhole).length_parameters

end Decoding

namespace Encoding

variable {place : Text} {m : Method} {data : Bytes} {n : Nat}

/-- Written annotations of parameters are counted for the parameters that they cover. -/
theorem isCounted_of_fixed_parameterAnnotations {visible : Bool} {given : Option Int}
    {spells : List AnnotationUse → Bytes → Prop} (hspells : ∀ p ∈ m.parameters, ∀ part,
      Fixed P (annotationUses (ofVisibility visible p.annotations)) part →
        spells ((ofVisibility visible p.annotations).map AnnotationUse.stored) part)
    (h : Fixed P (parameterAnnotations place m visible given) data) {m₁ m₂ : Method}
    (hread : Outline.whole (readParameterAnnotations t visible m₁) data = .ok m₂) :
    IsCounted spells m₁.parameters.length
      ((m.parameters.drop (m.parameters.length - m.covered given)).map fun p =>
        (ofVisibility visible p.annotations).map AnnotationUse.stored) data := by
  obtain ⟨count, head, parts, hcount, hhead, hparts, rfl⟩ := exists_of_fixed_parameterAnnotations h
  obtain ⟨hgiven, hle⟩ := exists_of_fixed_parameterCount hcount
  have hfits := count_le_of_readParameterCount hhead hread
  have hcovered : count.toNat = m.covered given := congrArg Int.toNat hgiven
  have hnat := exists_nat_of_unsigned? hhead
  rw [hcovered] at hparts
  have hlength : ((m.parameters.drop (m.parameters.length - m.covered given)).map fun p =>
      (ofVisibility visible p.annotations).map AnnotationUse.stored).length = count.toNat := by
    rw [List.length_map, List.length_drop]
    omega
  refine ⟨hlength ▸ hfits, head, parts, ?_, ?_, rfl⟩
  · rw [hlength, ← hhead]
    congr 1
    omega
  · rw [List.forall₂_map_left_iff]
    have hboth := List.forall₂_and_left _ _ |>.2 ⟨fun _ hp => List.mem_of_mem_drop hp, hparts⟩
    exact hboth.imp fun p part ⟨hp, hpart⟩ => hspells p hp part hpart

/-- Written names and flags are counted for the parameters that they cover. -/
theorem isCounted_of_fixed_methodParameters {spells : Option Text × Nat → Bytes → Prop}
    (hspells : ∀ (p : Parameter) part, Fixed P (parameter p) part →
      spells (p.name.map stored, p.access.toNat) part)
    (h : Fixed P (methodParameters place m) data) {m₁ m₂ : Method}
    (hread : Outline.whole (readMethodParameters t m₁) data = .ok m₂) :
    IsCounted spells m₁.parameters.length
      ((m.parameters.take (m.covered m.parameterCount)).map fun p =>
        (p.name.map stored, p.access.toNat)) data := by
  obtain ⟨count, head, parts, hcount, hhead, hparts, rfl⟩ := exists_of_fixed_methodParameters h
  obtain ⟨hgiven, hle⟩ := exists_of_fixed_parameterCount hcount
  have hfits := count_le_of_readParameterCount hhead hread
  have hcovered : count.toNat = m.covered m.parameterCount := congrArg Int.toNat hgiven
  have hnat := exists_nat_of_unsigned? hhead
  rw [hcovered] at hparts
  have hlength : ((m.parameters.take (m.covered m.parameterCount)).map fun p =>
      (p.name.map stored, p.access.toNat)).length = count.toNat := by
    rw [List.length_map, List.length_take]
    omega
  refine ⟨hlength ▸ hfits, head, parts, ?_, ?_, rfl⟩
  · rw [hlength, ← hhead]
    congr 1
    omega
  · rw [List.forall₂_map_left_iff]
    exact hparts.imp hspells

/-- The flags of a parameter that is written are no negative number. -/
theorem access_of_fixed_parameter {p : Parameter} {part : Bytes} (h : Fixed P (parameter p) part) :
    p.access = (p.access.toNat : Int) := by
  rw [parameter_eq] at h
  simp only [fixed_bind_iff, fixed_u2_iff, fixed_pure_iff] at h
  obtain ⟨_, -, _, -, _, haccess, -⟩ := h
  rw [exists_nat_of_unsigned? haccess, Int.toNat_natCast]

/-- A piece that there is reason for is written as an attribute that is there. -/
theorem forall₂_toList_of_pieceIf {α : Type} {R : α → Attribute → Prop} {condition : Bool} {name : Text}
    {content : Encoder Bytes} {bs : List Attribute} {a : α}
    (h : List.Forall₂ (fun p (b : Attribute) => Fixed P p.content b.data)
      (pieceIf condition name content) bs)
    (hR : ∀ b ∈ bs, Fixed P content b.data → R a b) :
    List.Forall₂ R (if condition then some a else none).toList bs := by
  cases condition with
  | false =>
    obtain rfl := List.forall₂_nil_left_iff.1 h
    exact .nil
  | true =>
    obtain ⟨b, rest, hb, hrest, rfl⟩ := List.forall₂_cons_left_iff.1 h
    obtain rfl := List.forall₂_nil_left_iff.1 hrest
    exact .cons (hR b List.mem_cons_self hb) .nil

section Tables

variable {owner : Text} {verify stackMaps : Bool} {order : List Text} {as : List Attribute}
    {s s' : Method}
  (hraw : ∀ a ∈ m.attributes, a.name ∉ AttributeName.ofParameters)
  (has : List.Forall₂ (Piece.Writes P) (Piece.ordered order (methodPieces owner verify stackMaps m)) as)
  (h : Attribute.readAll (readMethodAttribute t) (as.map (Attribute.mapName stored)) s = .ok s')
include hraw has h

/-- The annotations of the parameters of a method are counted. -/
theorem forall₂_storedAnnotations (visible : Bool) {spells : List AnnotationUse → Bytes → Prop}
    (hspells : ∀ p ∈ m.parameters, ∀ part,
      Fixed P (annotationUses (ofVisibility visible p.annotations)) part →
        spells ((ofVisibility visible p.annotations).map AnnotationUse.stored) part) :
    List.Forall₂ (fun lists (a : Attribute) => IsCounted spells s.parameters.length lists a.data)
      (m.storedTables.annotations visible).toList ((as.map (Attribute.mapName stored)).filter
        fun a => a.name = AttributeName.parameterAnnotations visible) := by
  have hnamed := forall₂_filter_named (AttributeName.isPlain_parameterAnnotations visible) has
  rw [filter_parameterAnnotations hraw] at hnamed
  refine forall₂_toList_of_pieceIf hnamed fun b hb hdata => ?_
  obtain ⟨hmem, hname⟩ := List.mem_filter.1 hb
  obtain ⟨m₁, m₂, hlength, hread⟩ := exists_whole_of_readAll_method h hmem
  rw [of_decide_eq_true hname,
    readMethodAttribute_of_lookup _ _ _ (lookup_parameterAnnotations _ _)] at hread
  rw [← show (m₁.noting _).parameters.length = _ from hlength]
  exact isCounted_of_fixed_parameterAnnotations hspells hdata hread

/-- The names and flags of the parameters of a method are counted. -/
theorem forall₂_storedNames {spells : Option Text × Nat → Bytes → Prop}
    (hspells : ∀ (p : Parameter) part, Fixed P (parameter p) part →
      spells (p.name.map stored, p.access.toNat) part) :
    List.Forall₂ (fun named (a : Attribute) => IsCounted spells s.parameters.length named a.data)
      m.storedTables.names.toList ((as.map (Attribute.mapName stored)).filter
        fun a => a.name = AttributeName.methodParameters) := by
  have hplain : IsPlain AttributeName.methodParameters := isPlain_ofString (by decide)
  have hnamed := forall₂_filter_named hplain has
  rw [filter_methodParameters hraw] at hnamed
  refine forall₂_toList_of_pieceIf hnamed fun b hb hdata => ?_
  obtain ⟨hmem, hname⟩ := List.mem_filter.1 hb
  obtain ⟨m₁, m₂, hlength, hread⟩ := exists_whole_of_readAll_method h hmem
  rw [of_decide_eq_true hname,
    readMethodAttribute_of_lookup _ AttributeName.methodParameters _ rfl] at hread
  rw [← show (m₁.noting _).parameters.length = _ from hlength]
  exact isCounted_of_fixed_methodParameters hspells hdata hread

/-- The attributes about the parameters of a method are read. -/
theorem areRead_storedTables (ht : Backs stored t P)
    (htagged : ∀ p ∈ m.parameters, ∀ a ∈ p.annotations, a.IsTagged) :
    m.storedTables.AreRead t s.parameters.length (as.map (Attribute.mapName stored)) where
  annotations visible := by
    refine forall₂_storedAnnotations hraw has h visible fun p hp part hpart => ?_
    have hown := isTagged_ofVisibility (htagged p hp) visible
    refine ⟨reads_readAnnotationUses ht hown visible_of_mem_ofVisibility hpart, fun a ha => ?_⟩
    obtain ⟨b, hb, rfl⟩ := List.mem_map.1 ha
    exact visible_of_mem_ofVisibility b hb
  names := by
    refine forall₂_storedNames hraw has h fun own part hpart p => ?_
    have hentry := reads_parameter ht hpart p
    rw [access_of_fixed_parameter hpart] at hentry
    exact hentry

end Tables

/-! ## The pieces of a method -/

variable {owner : Text} {verify stackMaps : Bool}

/-- The pieces of a method that keeps no attribute as bytes that would be taken apart, by name. -/
theorem filter_methodPieces_of_clear (hraw : ∀ a ∈ m.attributes, a.name ∉ AttributeName.ofMethod)
    {n : Text} (hn : n ∈ AttributeName.ofMethod) :
    (methodPieces owner verify stackMaps m).filter (fun p => p.name = n) =
      (if AttributeName.code = n then
        pieceIf m.hasCode AttributeName.code (code owner verify stackMaps m) else []) ++
      (if AttributeName.exceptions = n then
        pieceIf (!m.exceptions.isEmpty) AttributeName.exceptions
          (listOf (fun e => index (Pool.addClass e)) m.exceptions) else []) ++
      (if AttributeName.signature = n then signaturePiece m.signature else []) ++
      (annotationPieces m.annotations).filter (fun p => p.name = n) ++
      (if AttributeName.parameterAnnotations true = n then
        parameterAnnotationPiece (Flow.Program.placeOf owner m) m true m.visibleCount else []) ++
      (if AttributeName.parameterAnnotations false = n then
        parameterAnnotationPiece (Flow.Program.placeOf owner m) m false m.invisibleCount else []) ++
      (if AttributeName.annotationDefault = n then
        pieceOf? AttributeName.annotationDefault element m.default else []) ++
      if AttributeName.methodParameters = n then
        pieceIf (m.parameterCount.isSome || m.parameters.any isNamed) AttributeName.methodParameters
          (methodParameters (Flow.Program.placeOf owner m) m) else [] := by
  unfold methodPieces signaturePiece parameterAnnotationPiece
  simp only [List.filter_append, filter_pieceIf, filter_pieceOf?, filter_rawPieces hraw hn,
    List.append_nil]

variable (owner verify stackMaps) in
/-- The pieces of a method that are read by themselves. -/
theorem filter_methodPieces_alone (hraw : ∀ a ∈ m.attributes, a.name ∉ AttributeName.ofMethod) :
    (methodPieces owner verify stackMaps m).filter (fun p => p.name = AttributeName.code) =
        pieceIf m.hasCode AttributeName.code (code owner verify stackMaps m) ∧
      (methodPieces owner verify stackMaps m).filter (fun p => p.name = AttributeName.exceptions) =
        pieceIf (!m.exceptions.isEmpty) AttributeName.exceptions
          (listOf (fun e => index (Pool.addClass e)) m.exceptions) ∧
      (methodPieces owner verify stackMaps m).filter (fun p => p.name = AttributeName.signature) =
        signaturePiece m.signature ∧
      (methodPieces owner verify stackMaps m).filter (fun p => p.name = AttributeName.annotationDefault) =
        pieceOf? AttributeName.annotationDefault element m.default := by
  refine ⟨?_, ?_, ?_, ?_⟩
  · rw [filter_methodPieces_of_clear hraw (by decide), if_pos rfl, if_neg (by decide),
      if_neg (by decide), filter_annotationPieces_of_ne _ (by decide), if_neg (by decide),
      if_neg (by decide), if_neg (by decide), if_neg (by decide)]
    simp only [List.append_nil]
  · rw [filter_methodPieces_of_clear hraw (by decide), if_neg (by decide), if_pos rfl,
      if_neg (by decide), filter_annotationPieces_of_ne _ (by decide), if_neg (by decide),
      if_neg (by decide), if_neg (by decide), if_neg (by decide)]
    simp only [List.append_nil, List.nil_append]
  · rw [filter_methodPieces_of_clear hraw (by decide), if_neg (by decide), if_neg (by decide),
      if_pos rfl, filter_annotationPieces_of_ne _ (by decide), if_neg (by decide),
      if_neg (by decide), if_neg (by decide), if_neg (by decide)]
    simp only [List.append_nil, List.nil_append]
  · rw [filter_methodPieces_of_clear hraw (by decide), if_neg (by decide), if_neg (by decide),
      if_neg (by decide), filter_annotationPieces_of_ne _ (by decide), if_neg (by decide),
      if_neg (by decide), if_pos rfl, if_neg (by decide)]
    simp only [List.append_nil, List.nil_append]

theorem filter_methodPieces_annotations (hraw : ∀ a ∈ m.attributes, a.name ∉ AttributeName.ofMethod)
    (visible : Bool) :
    (methodPieces owner verify stackMaps m).filter
        (fun p => p.name = AttributeName.annotations visible) =
      (annotationPieces m.annotations).filter fun p => p.name = AttributeName.annotations visible := by
  have hother : ∀ n ∈ [AttributeName.code, AttributeName.exceptions, AttributeName.signature,
      AttributeName.parameterAnnotations true, AttributeName.parameterAnnotations false,
      AttributeName.annotationDefault, AttributeName.methodParameters],
      n ≠ AttributeName.annotations visible := by cases visible <;> decide
  rw [filter_methodPieces_of_clear hraw (by cases visible <;> decide),
    if_neg (hother _ (by simp)), if_neg (hother _ (by simp)), if_neg (hother _ (by simp)),
    if_neg (hother _ (by simp)), if_neg (hother _ (by simp)), if_neg (hother _ (by simp)),
    if_neg (hother _ (by simp))]
  simp only [List.append_nil, List.nil_append]

variable (m owner verify stackMaps) in
/-- The pieces of a method beside those that it keeps as bytes. -/
def modelledMethodPieces : List Piece :=
  pieceIf m.hasCode AttributeName.code (code owner verify stackMaps m)
    ++ pieceIf (!m.exceptions.isEmpty) AttributeName.exceptions
      (listOf (fun e => index (Pool.addClass e)) m.exceptions)
    ++ signaturePiece m.signature ++ annotationPieces m.annotations
    ++ parameterAnnotationPiece (Flow.Program.placeOf owner m) m true m.visibleCount
    ++ parameterAnnotationPiece (Flow.Program.placeOf owner m) m false m.invisibleCount
    ++ pieceOf? AttributeName.annotationDefault element m.default
    ++ pieceIf (m.parameterCount.isSome || m.parameters.any isNamed) AttributeName.methodParameters
      (methodParameters (Flow.Program.placeOf owner m) m)

theorem areNamedIn_modelledMethodPieces :
    AreNamedIn AttributeName.ofMethod (modelledMethodPieces m owner verify stackMaps) := by
  refine (((((((AreNamedIn.pieceIf ?_).append (.pieceIf ?_)).append (.pieceOf? ?_)).append
    (.annotationPieces fun visible => ?_)).append (.pieceIf ?_)).append (.pieceIf ?_)).append
    (.pieceOf? ?_)).append (.pieceIf ?_)
  case refine_4 => cases visible <;> decide
  all_goals decide

theorem arePiecesAround_methodPieces
    (hraw : ∀ a ∈ m.attributes, a.name ∉ AttributeName.ofMethod) :
    ArePiecesAround AttributeName.ofMethod m.attributes (methodPieces owner verify stackMaps m) where
  plain n hn := AttributeName.isPlain_of_mem (by simp [hn])
  unknown := hraw
  eq := by
    refine ⟨modelledMethodPieces m owner verify stackMaps, [], (List.append_nil _).symm, ?_⟩
    rw [List.append_nil]
    exact areNamedIn_modelledMethodPieces

/-! ## The method -/

end Encoding

/-- A method in which nothing can be taken for anything else when it is read. -/
structure Method.IsClear (m : Method) : Prop where
  isTagged : m.IsTagged
  raw : ∀ a ∈ m.attributes, a.name ∉ AttributeName.ofMethod
  code : m.hasCode = true → m.HasClearCode

/-- The code of a method has been put together of what is read of the parts that it is written in.
-/
def Method.IsPutTogether (owner : Text) (verify stackMaps : Bool) (P : Pool) (t : Table)
    (m found : Method) : Prop :=
  ∃ (parts : CodeParts owner verify stackMaps m P) (raw : RawCode) (code : Code) (c : Cursor),
    Outline.whole (readRawCode t) parts.bytes = .ok raw ∧
      raw.assemble { place := stored m.name ++ stored m.descriptor } c = .ok (code, c) ∧
        found = {
          access := 0, name := stored m.name, descriptor := stored m.descriptor,
          maxima := some code.maxima, body := code.body, handlers := code.handlers,
          localVariables := code.localVariables, codeAttributes := code.attributes }

/-- The code of a method has been read back: it has been put together of parts that say what the
method says. -/
def Method.IsCodeReadBackAs (owner : Text) (verify stackMaps : Bool) (P : Pool) (m found : Method) :
    Prop :=
  ∃ (parts : CodeParts owner verify stackMaps m P) (raw : RawCode) (code : Code) (c : Cursor),
    raw.IsReadOf parts.layout parts.sizes parts.frames m ∧
      raw.assemble { place := stored m.name ++ stored m.descriptor } c = .ok (code, c) ∧
        found = {
          access := 0, name := stored m.name, descriptor := stored m.descriptor,
          maxima := some code.maxima, body := code.body, handlers := code.handlers,
          localVariables := code.localVariables, codeAttributes := code.attributes }

/-- What a method says beside its code has been read back. -/
structure Method.IsToldBack (m r : Method) : Prop where
  access : r.access = m.access
  name : r.name = stored m.name
  descriptor : r.descriptor = stored m.descriptor
  exceptions : r.exceptions = m.exceptions.map (Option.map stored)
  signature : r.signature = m.signature.map stored
  annotations : ∀ visible, ofVisibility visible r.annotations =
    (ofVisibility visible m.annotations).map AnnotationUse.stored
  default : r.default = m.default.map (ElementValue.stored true)
  parameters : ∃ types, Descriptor.arguments (stored m.descriptor) = .ok types ∧
    r.parameters.map Parameter.head = (parametersOf types).map Parameter.head ∧
      r.HasTables types.length m.storedTables
  raw : Attribute.AreReadBackAs m.attributes r.attributes

/-- A method has been read back. -/
structure Method.IsReadBackAs (owner : Text) (verify stackMaps : Bool) (P : Pool) (m r : Method) :
    Prop where
  access : r.access = m.access
  name : r.name = stored m.name
  descriptor : r.descriptor = stored m.descriptor
  exceptions : r.exceptions = m.exceptions.map (Option.map stored)
  signature : r.signature = m.signature.map stored
  annotations : ∀ visible, ofVisibility visible r.annotations =
    (ofVisibility visible m.annotations).map AnnotationUse.stored
  default : r.default = m.default.map (ElementValue.stored true)
  parameters : ∃ types, Descriptor.arguments (stored m.descriptor) = .ok types ∧
    r.parameters.map Parameter.head = (parametersOf types).map Parameter.head ∧
      r.HasTables types.length m.storedTables
  raw : Attribute.AreReadBackAs m.attributes r.attributes
  code : m.hasCode = true → m.IsCodeReadBackAs owner verify stackMaps P r.onlyCode
  bodiless : m.hasCode = false →
    r.onlyCode = { access := 0, name := stored m.name, descriptor := stored m.descriptor }

namespace Encoding

variable {m : Method} {owner : Text} {verify stackMaps : Bool}

/-- The code of a method is put together of what is read of its parts, if the method has any. -/
theorem code_of_isReadAsMethod (hraw : ∀ a ∈ m.attributes, a.name ∉ AttributeName.ofMethod)
    {r : Method} {o : MemberOutline} (hshows : o.Shows stored P m.name m.descriptor m.access
      (Piece.ordered m.layout.attributeOrder (methodPieces owner verify stackMaps m)))
    (hread : o.IsReadAsMethod t r) :
    (m.hasCode = false ∧
      r.onlyCode = { access := 0, name := stored m.name, descriptor := stored m.descriptor }) ∨
    (m.hasCode = true ∧ m.IsPutTogether owner verify stackMaps P t r.onlyCode) := by
  obtain ⟨as, hwrites, has⟩ := hshows.attributes
  obtain ⟨types, -, h⟩ := hread.attributes
  rw [has] at h
  obtain ⟨hpieces, -⟩ := filter_methodPieces_alone owner verify stackMaps hraw
  have hblank : (o.head types).onlyCode =
      { access := 0, name := stored m.name, descriptor := stored m.descriptor } := by
    rw [← hshows.name, ← hshows.descriptor]
    rfl
  have hcodes := told_of_readAll (Q := fun _ => m.IsPutTogether owner verify stackMaps P t)
    hwrites h isPlain_code (hpieces.trans (pieceIf_eq_pieceOf? _ _ _)) concerns_methodCode
    fun _ _ data s₁ s₂ hdata hs₁ hs₂ => by
      obtain ⟨parts, rfl⟩ := exists_codeParts hdata
      rw [readMethodAttribute_of_lookup _ AttributeName.code _ rfl] at hs₂
      obtain ⟨raw, code, c, hwhole, hassemble, rfl⟩ := exists_of_readMethodCode hs₂
      have hbefore := hs₁.trans hblank
      have hname : s₁.name = stored m.name := congrArg Method.name hbefore
      have hdescriptor : s₁.descriptor = stored m.descriptor := congrArg Method.descriptor hbefore
      refine ⟨parts, raw, code, c, hwhole, ?_, ?_⟩
      · rw [← hname, ← hdescriptor]
        exact hassemble
      · rw [← hname, ← hdescriptor]
        rfl
  rcases hcodes with ⟨hnone, hkept⟩ | ⟨_, hsome, htold⟩
  · exact .inl ⟨by simpa using hnone, hkept.trans hblank⟩
  · exact .inr ⟨by simpa using hsome, htold⟩

/-- What a method says beside its code is read back if its annotations have tags that exist. -/
theorem isToldBack_of_isReadAsMethod (ht : Backs stored t P) {r : Method} (htagged : m.IsTagged)
    (hraw : ∀ a ∈ m.attributes, a.name ∉ AttributeName.ofMethod) {o : MemberOutline}
    (hshows : o.Shows stored P m.name m.descriptor m.access
      (Piece.ordered m.layout.attributeOrder (methodPieces owner verify stackMaps m)))
    (hread : o.IsReadAsMethod t r) : m.IsToldBack r := by
  obtain ⟨as, hwrites, has⟩ := hshows.attributes
  obtain ⟨types, htypes, h⟩ := hread.attributes
  rw [has] at h
  obtain ⟨-, hexceptions, hsignature, hdefault⟩ :=
    filter_methodPieces_alone owner verify stackMaps hraw
  obtain ⟨haccess, hname, hdescriptor, hparameters⟩ : _ ∧ _ ∧ _ ∧ _ := by
    simpa only [Prod.mk.injEq] using methodHead_eq_of_readAll h
  have hparameter : ∀ a ∈ m.attributes, a.name ∉ AttributeName.ofParameters := fun a ha hmem =>
    hraw a ha (AttributeName.ofParameters_subset hmem)
  exact {
    access := haccess.trans hshows.access.symm
    name := hname.trans hshows.name
    descriptor := hdescriptor.trans hshows.descriptor
    exceptions := by
      have htold := observe_of_readAll hwrites h (AttributeName.isPlain_of_mem (by decide))
        (hexceptions.trans (pieceIf_eq_pieceOf? _ _ _)) concerns_methodExceptions
        (fun _ => m.exceptions.map (Option.map stored)) fun _ _ data s₁ hdata _ => by
          rw [readMethodAttribute_of_lookup _ AttributeName.exceptions _ rfl]
          exact ⟨_, (reads_classNames ht hdata).map _, rfl⟩
      exact htold.trans (elim_unless_isEmpty fun hempty => by rw [hempty, List.map_nil])
    signature := signature_of_readAll hwrites h ht hsignature concerns_methodSignature
      (fun s length => ⟨_, fun _ => rfl,
        readMethodAttribute_of_lookup length AttributeName.signature s rfl⟩) rfl
    annotations := fun visible => annotations_of_readPieces hwrites h ht htagged.annotations
      (filter_methodPieces_annotations hraw visible) (concerns_methodAnnotations visible)
      (fun s length => ⟨_, fun _ => rfl,
        readMethodAttribute_of_lookup length _ s (lookup_annotations_methodReaders _ visible)⟩) rfl
    default := by
      have htold := observe_of_readAll hwrites h (AttributeName.isPlain_of_mem (by decide)) hdefault
        concerns_methodDefault (fun v => some (v.stored true)) fun v hv data s₁ hdata _ => by
          rw [readMethodAttribute_of_lookup _ AttributeName.annotationDefault _ rfl]
          exact ⟨_, (reads_readElement ht (htagged.default v hv) hdata true).map _, rfl⟩
      rw [htold]
      cases m.default <;> rfl
    parameters := by
      refine ⟨types, hshows.descriptor ▸ htypes, hparameters, ?_⟩
      have hread := areRead_storedTables hparameter hwrites h ht htagged.parameters
      have hlength : (o.head types).parameters.length = types.length := by
        simp [MemberOutline.head, parametersOf]
      exact hasTables_of_readAll (hlength ▸ hread) (hasTables_head o types) h
    raw := keepsRaw_readMethodAttribute.areReadBackAs (arePiecesAround_methodPieces hraw) hwrites
      h rfl }

/-- A method that is clear is read back if the constants that it loads have short indices. -/
theorem isReadBackAs_of_isReadAsMethod (ht : Backs stored t P) (hsites : HasSites t P)
    (hshort : ∀ i, .instruction i ∈ m.body → LoadsShort P i) {r : Method} (hclear : m.IsClear)
    {o : MemberOutline}
    (hshows : o.Shows stored P m.name m.descriptor m.access
      (Piece.ordered m.layout.attributeOrder (methodPieces owner verify stackMaps m)))
    (hread : o.IsReadAsMethod t r) : m.IsReadBackAs owner verify stackMaps P r := by
  have hcodes := code_of_isReadAsMethod hclear.raw hshows hread
  exact { isToldBack_of_isReadAsMethod ht hclear.isTagged hclear.raw hshows hread with
    code := fun hhas => by
      rcases hcodes with ⟨hnone, -⟩ | ⟨-, parts, raw, code, c, hwhole, hassemble, heq⟩
      · rw [hhas] at hnone
        cases hnone
      · have hcode := parts.isReadOf ht hsites hshort (hclear.code hhas) hwhole
        exact ⟨parts, raw, code, c, hcode, hassemble, heq⟩
    bodiless := fun hhas => by
      rcases hcodes with ⟨-, hsame⟩ | ⟨hsome, -⟩
      · exact hsame
      · rw [hhas] at hsome
        cases hsome }

end Encoding

end ClassTree
