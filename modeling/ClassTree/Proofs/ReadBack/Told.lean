/-
# ClassTree.Proofs.ReadBack.Told — what holds of all that has been read

Whatever a class file says, a reader keeps no attribute as bytes that it takes apart, and every
annotation that it finds in an attribute has the visibility of that attribute, to any depth
(`Class.IsTold`).

What a method keeps of the attributes about its parameters can be told from the method if each of
them stands in it once at most: lists of annotations for the last parameters, names and flags for
the first ones, and how many they cover where the parameters do not tell (`Method.HasParameters`). A
method that is written says the same again (`Method.HasTables.storedTables_eq`).
-/
import ClassTree.Proofs.ReadBack.ClassFile

namespace ClassTree

open Decoding Encoding ParameterTables
open ModifiedUtf8 (stored)

variable {t : Table} {m m' : Method} {n : Nat} {visible : Bool} {file : Bytes}

/-! ## One attribute about parameters -/

namespace Decoding

/-- A number of parameters that is accepted is none too large. -/
theorem yields_readParameterCount (name : Text) (arity : Nat) :
    Yields file (readParameterCount name arity) (· ≤ arity) :=
  fun _ _ _ _ h => (exists_of_readParameterCount h).2

/-- What is read for each of some parameters is put onto them. -/
theorem yields_zipWith_readParametersOnto {β : Type} {read : Parameter → Decoder Parameter}
    [∀ p, Stays (read p)] {more : Parameter → β → Parameter} {Q : β → Prop}
    (hread : ∀ p, Yields file (read p) fun q => ∃ b, Q b ∧ q = more p b) (ps acc : List Parameter) :
    Yields file (readParametersOnto read ps acc) fun qs => ∃ bs, bs.length = ps.length ∧
      (∀ b ∈ bs, Q b) ∧ qs = acc.reverse ++ List.zipWith more ps bs := by
  induction ps generalizing acc with
  | nil => exact .pure ⟨[], rfl, nofun, (List.append_nil _).symm⟩
  | cons p ps ih =>
    refine (hread p).bind fun q ⟨b, hb, hq⟩ => ?_
    intro c c' qs hc h
    obtain ⟨bs, hlength, hbs, rfl⟩ := ih (q :: acc) c c' qs hc h
    refine ⟨b :: bs, congrArg (· + 1) hlength, List.forall_mem_cons.2 ⟨hb, hbs⟩, ?_⟩
    rw [List.zipWith_cons_cons, List.reverse_cons, List.append_assoc, List.singleton_append, hq]

/-- Lists of annotations that an attribute of a visibility holds for the last of `n` parameters. -/
structure AreListed (visible : Bool) (n : Nat) (lists : List (List AnnotationUse)) : Prop where
  length_le : lists.length ≤ n
  visible : ∀ as ∈ lists, ∀ a ∈ as, a.visible = visible
  seen : ∀ as ∈ lists, ∀ a ∈ as, a.IsSeen

/-- Annotations of parameters are read for the last ones. -/
theorem yields_withAnnotations (visible : Bool) (m : Method) :
    Yields file (readParameterAnnotations t visible m) fun m' => ∃ lists,
      AreListed visible m.parameters.length lists ∧ m' = withAnnotations visible lists m := by
  have hread (p : Parameter) : Yields file (do
      return ({ p with annotations := p.annotations ++ (← readAnnotationUses t visible) } : Parameter))
      fun q => ∃ as, (∀ a ∈ as, a.visible = visible ∧ a.IsSeen) ∧ q = annotated p as := by
    intro c c' q hc h
    obtain ⟨as, k, has, hq⟩ := Decoder.bind_eq_ok_iff.1 h
    cases hq
    refine ⟨as, fun a ha => ⟨?_, ?_⟩, rfl⟩
    · exact yields_readAnnotationUses visible _ _ _ hc has a ha
    · exact yields_isSeen_readAnnotationUses visible _ _ _ hc has a ha
  unfold readParameterAnnotations
  refine (yields_readParameterCount _ _).bind fun count hcount => ?_
  refine (yields_zipWith_readParametersOnto hread _ []).bind fun qs ⟨lists, hlength, hlists, hqs⟩ => ?_
  rw [List.length_drop] at hlength
  obtain rfl : lists.length = count := by omega
  have hlisted : AreListed visible m.parameters.length lists :=
    ⟨hcount, fun as has a ha => (hlists as has a ha).1, fun as has a ha => (hlists as has a ha).2⟩
  rw [List.reverse_nil, List.nil_append] at hqs
  subst hqs
  dsimp only
  split
  · next h => exact .pure ⟨lists, hlisted, by unfold withAnnotations; dsimp only; rw [if_pos h]⟩
  · next h =>
    split
    · next h' =>
      exact .pure ⟨lists, hlisted, by unfold withAnnotations; dsimp only; rw [if_neg h, if_pos h']⟩
    · next h' =>
      exact .pure ⟨lists, hlisted, by unfold withAnnotations; dsimp only; rw [if_neg h, if_neg h']⟩

/-- Names and flags are read for the first parameters. -/
theorem yields_withNames (m : Method) : Yields file (readMethodParameters t m) fun m' =>
    ∃ entries : List (Option Text × Nat), entries.length ≤ m.parameters.length ∧
      m' = withNames entries m := by
  have hread (p : Parameter) : Yields file (do
      let name ← t.utf8? (← Decoder.u2)
      return ({ p with name, access := ← Decoder.u2 } : Parameter))
      fun q => ∃ e : Option Text × Nat, True ∧ q = named p e :=
    .any_bind fun _ => .any_bind fun name => .any_map fun access => ⟨(name, access), trivial, rfl⟩
  unfold readMethodParameters
  refine (yields_readParameterCount _ _).bind fun count hcount => ?_
  refine (yields_zipWith_readParametersOnto hread _ []).bind fun qs ⟨entries, hlength, _, hqs⟩ => ?_
  rw [List.length_take] at hlength
  obtain rfl : entries.length = count := by omega
  rw [List.reverse_nil, List.nil_append] at hqs
  subst hqs
  dsimp only
  split
  · next h => exact .pure ⟨entries, hcount, by unfold withNames; dsimp only; rw [if_pos h]⟩
  · next h => exact .pure ⟨entries, hcount, by unfold withNames; dsimp only; rw [if_neg h]⟩

/-- An attribute of parameter annotations has been read. -/
theorem exists_withAnnotations {data : Bytes} {length : Nat}
    (h : Outline.whole (readMethodAttribute t
      (AttributeName.parameterAnnotations visible) length m) data =
      .ok m') : ∃ lists, AreListed visible m.parameters.length lists ∧
        m' = withAnnotations visible lists (m.noting (AttributeName.parameterAnnotations visible)) := by
  rw [readMethodAttribute_of_lookup _ _ _ (lookup_parameterAnnotations _ _)] at h
  obtain ⟨c, hread, -⟩ := whole_eq_ok_iff.1 h
  exact yields_withAnnotations visible _ _ _ _ (Cursor.isIn_drop data 0) hread

/-- An attribute of parameter names has been read. -/
theorem exists_withNames {data : Bytes} {length : Nat}
    (h : Outline.whole (readMethodAttribute t AttributeName.methodParameters length m) data = .ok m') :
    ∃ entries : List (Option Text × Nat), entries.length ≤ m.parameters.length ∧
      m' = withNames entries (m.noting AttributeName.methodParameters) := by
  rw [readMethodAttribute_of_lookup _ AttributeName.methodParameters _ rfl] at h
  obtain ⟨c, hread, -⟩ := whole_eq_ok_iff.1 h
  exact yields_withNames _ _ _ _ (Cursor.isIn_drop data 0) hread

end Decoding

/-! ## All attributes about parameters -/

/-- What attributes say about `n` parameters covers no more of them, and the annotations are of the
visibility of their attributes. -/
structure ParameterTables.AreWithin (n : Nat) (s : ParameterTables) : Prop where
  annotations : ∀ visible, ∀ lists ∈ s.annotations visible, AreListed visible n lists
  names : ∀ entries ∈ s.names, entries.length ≤ n

namespace Decoding

variable {as : List Attribute}

/-- A name that stands once at most stands between others, or nowhere. -/
theorem exists_between_of_count_le {name : Text} (hone : (as.map Attribute.name).count name ≤ 1) :
    (∀ a ∈ as, a.name ≠ name) ∨ ∃ before a after, as = before ++ a :: after ∧
      (∀ b ∈ before, b.name ≠ name) ∧ a.name = name ∧ ∀ b ∈ after, b.name ≠ name := by
  by_cases hmem : ∃ a ∈ as, a.name = name
  · obtain ⟨a, ha, rfl⟩ := hmem
    obtain ⟨before, after, rfl⟩ := List.append_of_mem ha
    rw [List.map_append, List.map_cons, List.count_append, List.count_cons_self] at hone
    have hnone {others : List Attribute} (hcount : (others.map Attribute.name).count a.name = 0) :
        ∀ b ∈ others, b.name ≠ a.name := fun b hb hname =>
      List.count_eq_zero.1 hcount (hname ▸ List.mem_map_of_mem hb)
    exact .inr ⟨before, a, after, rfl, hnone (by omega), rfl, hnone (by omega)⟩
  · exact .inl fun a ha hname => hmem ⟨a, ha, hname⟩

section

variable (hone : ∀ name ∈ AttributeName.ofParameters, (as.map Attribute.name).count name ≤ 1)
  (hm : m.HasTables n .empty)
  (h : Attribute.readAll (readMethodAttribute t) as m = .ok m')
include hone hm h

/-- What has been read of the annotations of a visibility. -/
theorem exists_annotations_of_readAll (visible : Bool) : ∃ lists? : Option (List (List AnnotationUse)),
    (∀ lists ∈ lists?, AreListed visible n lists) ∧
      m'.annotationLists visible = List.replicate (n - (lists?.getD []).length) [] ++ lists?.getD [] ∧
      m'.annotationCount visible =
        lists?.bind fun lists => keptCount n lists.length (lists.any (!·.isEmpty)) := by
  have hfirst : m.annotationLists visible = List.replicate n [] := by
    rw [hm.annotations visible]
    exact List.append_nil _
  have hcount : m.annotationCount visible = none := hm.annotationCount visible
  have hmem : AttributeName.parameterAnnotations visible ∈ AttributeName.ofParameters := by
    cases visible <;> decide
  rcases exists_between_of_count_le (hone _ hmem) with
    hnone | ⟨before, a, after, rfl, hbefore, ha, hafter⟩
  · obtain ⟨hlists, hcounts⟩ := annotations_eq_of_readAll h hnone
    exact ⟨none, nofun, hlists.trans (hfirst.trans (List.append_nil _).symm), hcounts.trans hcount⟩
  · obtain ⟨m₁, m₂, h₁, h₂, h₃⟩ := readAll_append_cons h
    obtain ⟨hlists₁, hcount₁⟩ := annotations_eq_of_readAll h₁ hbefore
    obtain ⟨hlists₃, hcount₃⟩ := annotations_eq_of_readAll h₃ hafter
    have hlength : m₁.parameters.length = n := by
      rw [← m₁.length_annotationLists visible, hlists₁, hfirst, List.length_replicate]
    subst hlength
    rw [ha] at h₂
    obtain ⟨lists, hlisted, rfl⟩ := exists_withAnnotations h₂
    refine ⟨some lists, fun _ hsome => Option.some.inj hsome ▸ hlisted, hlists₃.trans ?_,
      hcount₃.trans ?_⟩
    · exact annotationLists_withAnnotations hlisted.length_le hlisted.visible (hlists₁.trans hfirst)
    · exact annotationCount_withAnnotations hlisted.length_le hlisted.visible (hlists₁.trans hfirst)
        (hcount₁.trans hcount)

/-- What has been read of names and flags. -/
theorem exists_names_of_readAll : ∃ names : Option (List (Option Text × Nat)),
    (∀ entries ∈ names, entries.length ≤ n) ∧
      m'.namesAndFlags = (names.getD []).map (fun e => (e.1, (e.2 : Int))) ++
        List.replicate (n - (names.getD []).length) (none, 0) ∧
      m'.parameterCount = names.bind fun named =>
        keptCount n named.length (named.any fun e => e.1.isSome || e.2 ≠ 0) := by
  have hfirst : m.namesAndFlags = List.replicate n (none, 0) := hm.names
  have hcount : m.parameterCount = none := hm.nameCount
  rcases exists_between_of_count_le (hone AttributeName.methodParameters (by decide)) with
    hnone | ⟨before, a, after, rfl, hbefore, ha, hafter⟩
  · obtain ⟨hnames, hcounts⟩ := names_eq_of_readAll h hnone
    exact ⟨none, nofun, hnames.trans hfirst, hcounts.trans hcount⟩
  · obtain ⟨m₁, m₂, h₁, h₂, h₃⟩ := readAll_append_cons h
    obtain ⟨hnames₁, hcount₁⟩ := names_eq_of_readAll h₁ hbefore
    obtain ⟨hnames₃, hcount₃⟩ := names_eq_of_readAll h₃ hafter
    have hlength : m₁.parameters.length = n := by
      rw [← m₁.length_namesAndFlags, hnames₁, hfirst, List.length_replicate]
    subst hlength
    rw [ha] at h₂
    obtain ⟨entries, hle, rfl⟩ := exists_withNames h₂
    refine ⟨some entries, fun _ hsome => Option.some.inj hsome ▸ hle, hnames₃.trans ?_,
      hcount₃.trans ?_⟩
    · exact namesAndFlags_withNames hle (hnames₁.trans hfirst)
    · exact parameterCount_withNames hle (hnames₁.trans hfirst) (hcount₁.trans hcount)

/-- A method whose attributes about parameters stand once each has what they say. -/
theorem exists_hasTables_of_readAll : ∃ s, ParameterTables.AreWithin n s ∧ m'.HasTables n s := by
  choose lists? hlists using exists_annotations_of_readAll hone hm h
  obtain ⟨names, hnames, heq, hcount⟩ := exists_names_of_readAll hone hm h
  exact ⟨⟨lists?, names⟩, ⟨fun visible => (hlists visible).1, hnames⟩,
    ⟨fun visible => (hlists visible).2.1, fun visible => (hlists visible).2.2, heq, hcount⟩⟩

end

end Decoding

/-! ## Saying it again -/

section Tables

variable {s : ParameterTables} (h : m.HasTables n s) (hs : ParameterTables.AreWithin n s)
include h

theorem Method.HasTables.length_parameters (hs : ParameterTables.AreWithin n s) :
    m.parameters.length = n := by
  rw [← m.length_annotationLists true, h.annotations true, List.length_append, List.length_replicate]
  cases hlists : s.annotations true with
  | none => rfl
  | some lists =>
    have hle := (hs.annotations true lists hlists).length_le
    rw [Option.getD_some]
    omega

/-- The last lists of annotations are those of the attribute. -/
theorem Method.HasTables.drop_annotationLists {lists : List (List AnnotationUse)}
    (hlists : s.annotations visible = some lists) :
    (m.annotationLists visible).drop (n - lists.length) = lists := by
  have hall := h.annotations visible
  rw [hlists, Option.getD_some] at hall
  have hlength : n - lists.length = (List.replicate (n - lists.length)
      ([] : List AnnotationUse)).length :=
    List.length_replicate.symm
  rw [hall, hlength, List.drop_left' (by rw [List.length_replicate])]

include hs

/-- Annotations of a parameter that has been read have the visibility of their attribute inside. -/
theorem Method.HasTables.isSeen {p : Parameter} (hp : p ∈ m.parameters) :
    ∀ a ∈ p.annotations, a.IsSeen := by
  intro a ha
  have hmem : ofVisibility a.visible p.annotations ∈ m.annotationLists a.visible :=
    List.mem_map_of_mem (f := fun p : Parameter => ofVisibility a.visible p.annotations) hp
  have hown : a ∈ ofVisibility a.visible p.annotations := List.mem_filter.2 ⟨ha, decide_eq_true rfl⟩
  rw [h.annotations a.visible] at hmem
  rcases List.mem_append.1 hmem with hmem | hmem
  · rw [List.eq_of_mem_replicate hmem] at hown
    cases hown
  · cases hlists : s.annotations a.visible with
    | none =>
      rw [hlists] at hmem
      cases hmem
    | some lists =>
      rw [hlists] at hmem
      exact (hs.annotations a.visible lists hlists).seen _ hmem a hown

/-- The lists of annotations that a method is written with are those that it has read. -/
theorem Method.HasTables.storedAnnotations_eq
    (hannotations : ∀ p ∈ m.parameters, ∀ a ∈ p.annotations, a.stored = a) :
    m.storedTables.annotations = s.annotations := by
  have hlength := h.length_parameters hs
  funext visible
  have hsame : (m.parameters.map fun p => (ofVisibility visible p.annotations).map
      AnnotationUse.stored) = m.annotationLists visible := by
    refine List.map_congr_left fun p hp => ?_
    refine (List.map_congr_left fun a ha => ?_).trans (List.map_id _)
    exact hannotations p hp a (List.mem_filter.1 ha).1
  have hcount := h.annotationCount visible
  have hall := h.annotations visible
  unfold Method.storedTables Method.covered
  dsimp only
  rw [List.map_drop, hsame, Method.any_isAnnotated, hlength]
  cases htable : s.annotations visible with
  | none =>
    rw [htable] at hcount hall
    rw [hcount, hall]
    simp
  | some lists =>
    have hdrop := h.drop_annotationLists htable
    rw [htable] at hcount hall
    rw [hcount, Option.bind_some, keptCount]
    split
    · -- a full table that the parameters tell about
      next hfull =>
      rw [hfull.1, Nat.sub_self] at hdrop
      have htells : (m.annotationLists visible).any (!·.isEmpty) = true := by
        rw [← List.drop_zero (l := m.annotationLists visible), hdrop]
        exact hfull.2
      rw [htells, Option.getD_none, Int.toNat_natCast, Nat.sub_self, hdrop]
      rfl
    · rw [Option.isSome_some, Bool.true_or, if_pos rfl, Option.getD_some, Int.toNat_natCast, hdrop]

theorem Method.HasTables.storedNames_eq
    (hnames : ∀ p ∈ m.parameters, p.name.map stored = p.name) : m.storedTables.names = s.names := by
  have hlength := h.length_parameters hs
  have hsame : (m.parameters.map fun p => (p.name.map stored, p.access.toNat)) =
      m.namesAndFlags.map fun e => (e.1, e.2.toNat) := by
    rw [Method.namesAndFlags, List.map_map]
    refine List.map_congr_left fun p hp => ?_
    rw [hnames p hp]
    rfl
  have hcount := h.nameCount
  have hall := h.names
  unfold Method.storedTables Method.covered
  dsimp only
  rw [List.map_take, hsame, Method.any_isNamed, hlength]
  cases htable : s.names with
  | none =>
    rw [htable] at hcount hall
    rw [hcount, hall]
    simp
  | some entries =>
    rw [htable, Option.getD_some] at hall
    rw [htable] at hcount
    have htake : (m.namesAndFlags.map fun e => (e.1, e.2.toNat)).take entries.length = entries := by
      have hback : (entries.map fun e => (e.1, (e.2 : Int))).map
          (fun e : Option Text × Int => (e.1, e.2.toNat)) = entries := by
        rw [List.map_map]
        exact (List.map_congr_left fun e _ => rfl).trans (List.map_id entries)
      rw [hall, List.map_append, hback, List.take_left' rfl]
    rw [hcount, Option.bind_some, keptCount]
    split
    · next hfull =>
      have htells : (m.namesAndFlags.any fun e => e.1.isSome || decide (e.2 ≠ 0)) = true := by
        rw [hall, List.any_append, List.any_map, Bool.or_eq_true]
        refine .inl ?_
        simpa [Function.comp_def] using hfull.2
      rw [htells, Option.getD_none, Int.toNat_natCast, ← hfull.1, htake]
      rfl
    · rw [Option.isSome_some, Bool.true_or, if_pos rfl, Option.getD_some, Int.toNat_natCast, htake]

/-- What a method says about its parameters when it is written is what it has read. -/
theorem Method.HasTables.storedTables_eq
    (hannotations : ∀ p ∈ m.parameters, ∀ a ∈ p.annotations, a.stored = a)
    (hnames : ∀ p ∈ m.parameters, p.name.map stored = p.name) : m.storedTables = s :=
  congrArg₂ ParameterTables.mk (h.storedAnnotations_eq hs hannotations) (h.storedNames_eq hs hnames)

end Tables

/-! ## All that is read -/

/-- What attributes keep holds when all have been read. -/
theorem Decoding.invariant_of_readAll {σ : Type} {read : Text → Nat → σ → Decoder σ} {S : σ → Prop}
    (hread : ∀ (a : Attribute) (s s' : σ), S s →
      Outline.whole (read a.name a.data.length s) a.data = .ok s' → S s')
    {as : List Attribute} {s s' : σ} (hs : S s) (h : Attribute.readAll read as s = .ok s') : S s' := by
  induction as generalizing s with
  | nil =>
    cases h
    exact hs
  | cons a as ih =>
    obtain ⟨s₁, ha, hrest⟩ := Result.bind_eq_ok_iff.1 h
    exact ih (hread a s s₁ hs ha) hrest

/-! ## Fields -/

/-- A field that has been read keeps no attribute as bytes that is taken apart, and its annotations
have the visibilities of their attributes. -/
structure Field.IsTold (f : Field) : Prop where
  raw : ∀ a ∈ f.attributes, a.name ∉ AttributeName.ofField
  annotations : ∀ a ∈ f.annotations, a.IsSeen

/-- Every field that has been read is told. -/
theorem MemberOutline.IsReadAsField.isTold {o : MemberOutline} {f : Field} (h : o.IsReadAsField t f) :
    f.IsTold := by
  refine invariant_of_readAll (S := Field.IsTold) (fun a f f' hf hread => ?_)
    ⟨fun _ ha => (by cases ha), fun _ ha => (by cases ha)⟩ h
  cases changes_of_readFieldAttribute hread with
  | value | signature => exact { hf with }
  | annotations visible _ as _ hseen =>
    exact { hf with annotations := fun b hb => (List.mem_append.1 hb).elim (hf.annotations b) (hseen b) }
  | raw hname =>
    refine { hf with raw := fun b hb => (List.mem_append.1 hb).elim (hf.raw b) fun hb => ?_ }
    rwa [List.mem_singleton.1 hb]

/-! ## Methods -/

/-- The name of an attribute is put behind those that have been read. -/
theorem Decoding.attributeOrder_of_readMethodAttribute {a : Attribute} {m m' : Method}
    (h : Outline.whole (readMethodAttribute t a.name a.data.length m) a.data = .ok m') :
    m'.layout.attributeOrder = m.layout.attributeOrder ++ [a.name] := by
  have hyields : Yields a.data (readMethodAttribute t a.name a.data.length m) fun m' =>
      m'.layout.attributeOrder = m.layout.attributeOrder ++ [a.name] := by
    -- the readers of attributes about parameters get the method with the name noted
    have hparameters {d : Decoder Method} {m : Method} (hd : Yields a.data d (ChangesParameters m)) :
        Yields a.data d fun m' => m'.layout.attributeOrder = m.layout.attributeOrder :=
      fun c c' m' hc h => by
        obtain ⟨_, _, _, _, -, rfl⟩ := hd c c' m' hc h
        rfl
    have hlists (visible : Bool) (m : Method) := hparameters
      (show Yields a.data (readParameterAnnotations t visible m) _ from
        changesParameters_readParameterAnnotations visible m)
    have hnames (m : Method) := hparameters
      (show Yields a.data (readMethodParameters t m) _ from changesParameters_readMethodParameters m)
    unfold readMethodAttribute
    exact .ite (.any_map fun _ => rfl) <| .ite (.any_map fun _ => rfl) <|
      .ite (.any_bind fun _ => .any_map fun _ => rfl) <| .ite (.any_map fun _ => rfl) <|
      .ite (.any_map fun _ => rfl) <| .ite (hlists true _) <| .ite (hlists false _) <|
      .ite (.any_map fun _ => rfl) <| .ite (hnames _) <| .any_map fun _ => rfl
  obtain ⟨c, hread, -⟩ := whole_eq_ok_iff.1 h
  exact hyields _ _ _ (Cursor.isIn_drop a.data 0) hread

/-- The layout of a method names its attributes in order. -/
theorem Decoding.attributeOrder_of_readAll {as : List Attribute} {m m' : Method}
    (h : Attribute.readAll (readMethodAttribute t) as m = .ok m') :
    m'.layout.attributeOrder = m.layout.attributeOrder ++ as.map Attribute.name :=
  order_of_readAll (fun _ _ _ => attributeOrder_of_readMethodAttribute) h

/-- What is said about the parameters of a method: the descriptor gives their places and their
types, and attributes say the rest. -/
def Method.HasParameters (m : Method) : Prop :=
  ∃ types s, Descriptor.arguments m.descriptor = .ok types ∧
    m.parameters.map Parameter.head = (parametersOf types).map Parameter.head ∧
      ParameterTables.AreWithin types.length s ∧ m.HasTables types.length s

/-- A method that has been read keeps no attribute as bytes that is taken apart, and its annotations
have the visibilities of their attributes. Attributes about its parameters that stand once at most
are told. -/
structure Method.IsTold (m : Method) : Prop where
  raw : ∀ a ∈ m.attributes, a.name ∉ AttributeName.ofMethod
  annotations : ∀ a ∈ m.annotations, a.IsSeen
  default : ∀ v ∈ m.default, v.IsSeen true
  bodiless : m.hasCode = false → m.onlyCode = { access := 0, name := m.name, descriptor := m.descriptor }
  parameters : (∀ name ∈ AttributeName.ofParameters, m.layout.attributeOrder.count name ≤ 1) →
    m.HasParameters

/-- A method that has been read without code has nothing of code. -/
theorem MemberOutline.IsReadAsMethod.onlyCode_eq {o : MemberOutline} {m : Method}
    (h : o.IsReadAsMethod t m) (hnone : m.hasCode = false) :
    m.onlyCode = { access := 0, name := m.name, descriptor := m.descriptor } := by
  obtain ⟨types, -, h⟩ := h.attributes
  rcases isCodeOf_of_readAll h with ⟨a, -, r, outline, seen, l, code, -, -, hsome⟩ | hkeeps
  · obtain ⟨maxima, hmaxima, -⟩ := Option.map_eq_some_iff.1 hsome
    simp [Method.hasCode, hmaxima] at hnone
  · have hkept : onlyCode m = onlyCode (o.head types) := hkeeps
    exact congrArg (fun c : Method => { c with name := m.name, descriptor := m.descriptor, layout := {} })
      hkept

/-- A method that has been read keeps what is said about its parameters, if it is said once. -/
theorem MemberOutline.IsReadAsMethod.hasParameters {o : MemberOutline} {m : Method}
    (h : o.IsReadAsMethod t m)
    (hone : ∀ name ∈ AttributeName.ofParameters, m.layout.attributeOrder.count name ≤ 1) :
    m.HasParameters := by
  obtain ⟨types, htypes, h⟩ := h.attributes
  obtain ⟨-, -, hdescriptor, hheads⟩ : _ ∧ _ ∧ _ ∧ _ := by
    simpa only [Prod.mk.injEq] using methodHead_eq_of_readAll h
  have horder : m.layout.attributeOrder = o.attributes.map Attribute.name := attributeOrder_of_readAll h
  obtain ⟨s, hwithin, htables⟩ :=
    exists_hasTables_of_readAll (horder ▸ hone) (hasTables_head o types) h
  exact ⟨types, s, by rw [hdescriptor]; exact htypes, hheads, hwithin, htables⟩

/-- Every method that has been read is told. -/
theorem MemberOutline.IsReadAsMethod.isTold {o : MemberOutline} {m : Method}
    (hread : o.IsReadAsMethod t m) : m.IsTold := by
  obtain ⟨types, -, h⟩ := hread.attributes
  have hraw := invariant_of_readAll
    (S := fun m : Method => ∀ a ∈ m.attributes, a.name ∉ AttributeName.ofMethod)
    (fun a m m' hm hread => by
      cases changes_of_readMethodAttribute hread with
      | raw hname =>
        intro b hb
        rcases List.mem_append.1 hb with hb | hb
        · exact hm b hb
        · rwa [List.mem_singleton.1 hb]
      | _ => exact hm) (fun _ ha => (by cases ha)) h
  have hannotations := invariant_of_readAll (S := fun m : Method => ∀ a ∈ m.annotations, a.IsSeen)
    (fun a m m' hm hread => by
      cases changes_of_readMethodAttribute hread with
      | annotations visible _ as _ hseen =>
        exact fun b hb => (List.mem_append.1 hb).elim (hm b) (hseen b)
      | _ => exact hm) (fun _ ha => (by cases ha)) h
  have hdefault := invariant_of_readAll (S := fun m : Method => ∀ v ∈ m.default, v.IsSeen true)
    (fun a m m' hm hread => by
      cases changes_of_readMethodAttribute hread with
      | default _ v hseen => exact fun w hw => Option.some.inj hw ▸ hseen
      | _ => exact hm) (fun _ hv => (by cases hv)) h
  exact ⟨hraw, hannotations, hdefault, hread.onlyCode_eq, hread.hasParameters⟩

/-! ## Classes -/

/-- What the reader tells of a class apart from its members. The version is known, no attribute that
the reader understands is kept as bytes, and the method around the class has no descriptor without a
name. -/
structure Class.IsToldItself (c : Class) : Prop where
  version : oldestMajor ≤ c.major ∧ c.major ≤ newestMajor
  raw : ∀ a ∈ c.attributes, a.name ∉ AttributeName.ofClass
  annotations : ∀ a ∈ c.annotations, a.IsSeen
  enclosing : ∀ e ∈ c.enclosing, e.name = none → e.descriptor = none

/-- What the reader tells of a class and of each of its members. -/
structure Class.IsTold (c : Class) : Prop extends c.IsToldItself where
  fields : ∀ f ∈ c.fields, f.IsTold
  methods : ∀ m ∈ c.methods, m.IsTold

namespace Decoding

variable {file : Bytes}

/-- An attribute of a class leaves it told. -/
theorem yields_isToldItself_readClassAttribute (name : Text) (length : Nat) (c : Class)
    (hc : c.IsToldItself) : Yields file (readClassAttribute t name length c) Class.IsToldItself := by
  have hannotations (visible : Bool) : Yields file (do return { c.noting name with
      annotations := c.annotations ++ (← readAnnotationUses t visible) }) Class.IsToldItself :=
    (yields_isSeen_readAnnotationUses visible).bind fun as has => .pure { hc with
      annotations := fun b hb => (List.mem_append.1 hb).elim (hc.annotations b) (has b) }
  have henclosing : Yields file (readEnclosingMethod t) fun e => e.name = none → e.descriptor = none :=
    fun _ _ _ _ h => descriptor_eq_none_of_readEnclosingMethod h
  unfold readClassAttribute
  refine .ite_of (fun _ => .any_bind fun _ => .any_map fun _ => { hc with }) fun hsignature =>
    .ite_of (fun _ => .any_bind fun _ => .any_map fun _ => { hc with }) fun hsourceFile =>
    .ite_of (fun _ => hannotations true) fun hvisible =>
    .ite_of (fun _ => hannotations false) fun hinvisible =>
    .ite_of (fun _ => .any_map fun _ => { hc with }) fun hinnerClasses =>
    .ite_of (fun _ => henclosing.bind fun e he => .pure { hc with
      enclosing := fun e' he' => Option.some.inj he' ▸ he }) fun hmethod =>
    .ite_of (fun _ => .any_bind fun _ => .pure { hc with }) fun hbootstrap => .any_map fun data =>
      { hc with
      raw := fun b hb => (List.mem_append.1 hb).elim (hc.raw b) fun hb => ?_ }
  rw [List.mem_singleton.1 hb]
  simp [AttributeName.ofClass, hsignature, hsourceFile, hvisible, hinvisible, hinnerClasses, hmethod,
    hbootstrap]

/-- A class file is of a version that is known. -/
theorem yields_readVersion : Yields file readVersion fun version =>
    oldestMajor ≤ version.1 ∧ version.1 ≤ newestMajor := by
  refine .any_bind fun found => .ite ?_ (.throw_bind _)
  refine .any_bind fun minor => .any_bind fun major => ?_
  exact .ite_of (fun hknown => .pure hknown) fun _ => .throw_bind _

/-- A class without its members is told when its file has been read. -/
theorem yields_isToldItself_readClassFile : Yields file readClassFile Class.IsToldItself := by
  refine yields_readVersion.bind fun version hversion => .any_bind fun t => ?_
  refine .any_bind fun access => .any_bind fun name => .any_bind fun i => .any_bind fun super => ?_
  refine .any_bind fun interfaces => .any_bind fun fields => .any_bind fun methods => ?_
  refine .bind (.attributes yields_isToldItself_readClassAttribute ?_) fun c hc => ?_
  · -- before its attributes the class has none of what is asked about
    refine ⟨?_, fun _ ha => (by cases ha), fun _ ha => (by cases ha), fun _ he => (by cases he)⟩
    dsimp only
    omega
  · exact .any_bind fun here => .ite (.pure hc)
      (.bind (P := fun _ => False) (.refuseHere _) fun _ h => h.elim)

end Decoding

/-- Every class that has been read is told. -/
theorem Class.isTold_of_ofBytes {bytes : Bytes} {c : Class} (h : ofBytes bytes = .ok c) : c.IsTold := by
  obtain ⟨o, -, t, hparts⟩ := exists_isReadAs_of_ofBytes h
  have hfields : ∀ f ∈ c.fields, f.IsTold := fun f hf => by
    obtain ⟨_, -, hread⟩ := Result.exists_of_mem_right hparts.fields hf
    exact hread.isTold
  have hmethods : ∀ m ∈ c.methods, m.IsTold := fun m hm => by
    obtain ⟨_, -, hread⟩ := Result.exists_of_mem_right hparts.methods hm
    exact hread.isTold
  unfold ofBytes StateT.run at h
  split at h
  · next found stop hrun =>
    cases h
    have hitself := yields_isToldItself_readClassFile _ _ _ (Cursor.isIn_drop bytes 0) hrun
    exact { hitself with fields := hfields, methods := hmethods }
  · cases h

end ClassTree
