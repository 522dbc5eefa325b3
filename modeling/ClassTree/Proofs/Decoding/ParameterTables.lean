/-
# ClassTree.Proofs.Decoding.ParameterTables — what is read of the attributes about parameters

Three attributes of a method are about its parameters: annotations of each visibility, which belong
to the last parameters, and names with flags, which belong to the first ones. How many they cover is
kept with the method only where the parameters do not tell.

What a method keeps of one of the attributes is a function of the method that no other attribute
touches. So the attributes may stand in any order, among any others: the method keeps of each of
them what the method of a single attribute keeps.
-/
import ClassTree.Proofs.Acceptance.Member
import ClassTree.Proofs.Decoding.CodeTables
import ClassTree.Proofs.Decoding.Drawn
import ClassTree.Proofs.Spelling

namespace ClassTree

open Decoding Encoding Encoder

variable {entries : Array (Option Pool.Entry)} {t : Table} {P : Pool} {data : Bytes} {visible : Bool}
  {n : Nat}

/-! ## What the attributes say -/

/-- The attributes about parameters. -/
def AttributeName.ofParameters : List Text :=
  [parameterAnnotations true, parameterAnnotations false, methodParameters]

/-- What the attributes about the parameters of a method say: annotations of a visibility for the
last ones, names and flags for the first ones. An attribute may be missing. -/
structure ParameterTables where
  annotations : Bool → Option (List (List AnnotationUse))
  names : Option (List (Option Text × Nat))

namespace ParameterTables

/-- Nothing is said about parameters. -/
def empty : ParameterTables := ⟨fun _ => none, none⟩

/-- The bytes of a name, which may be missing, and of flags. -/
def SpellsEntry (entries : Array (Option Pool.Entry)) (e : Option Text × Nat) (bytes : Bytes) : Prop :=
  ∃ name access, (match e.1 with
    | none => name = [0, 0]
    | some s => Pool.Spells entries (.utf8 s) name) ∧
      Bytes.unsigned? 2 (e.2 : Nat) = some access ∧ bytes = name ++ access

/-- The bytes of a table that covers some of `n` parameters: how many, and something for each. -/
def IsCounted {α : Type} (spells : α → Bytes → Prop) (n : Nat) (as : List α) (data : Bytes) : Prop :=
  as.length ≤ n ∧ ∃ count parts, Bytes.unsigned? 1 (as.length : Nat) = some count ∧
    List.Forall₂ spells as parts ∧ data = count ++ parts.flatten

/-- Attributes of a method with `n` parameters say this about the parameters, once each. -/
structure AreSpelled (entries : Array (Option Pool.Entry)) (n : Nat) (s : ParameterTables)
    (as : List Attribute) : Prop where
  annotations : ∀ visible, List.Forall₂
    (fun lists (a : Attribute) => IsCounted (AnnotationUse.AreSpelled entries visible) n lists a.data)
    (s.annotations visible).toList
    (as.filter fun a => a.name = AttributeName.parameterAnnotations visible)
  names : List.Forall₂ (fun named (a : Attribute) => IsCounted (SpellsEntry entries) n named a.data)
    s.names.toList (as.filter fun a => a.name = AttributeName.methodParameters)

/-- How many parameters a table covers, where that is kept: a full table that says something about
one of them can be told by the parameters. -/
def keptCount (n count : Nat) (tells : Bool) : Option Int :=
  if count = n ∧ tells then none else some count

end ParameterTables

open ParameterTables

/-! ## What a method keeps of them -/

namespace Method

/-- The annotations of a visibility of each parameter. -/
def annotationLists (visible : Bool) (m : Method) : List (List AnnotationUse) :=
  m.parameters.map fun p => ofVisibility visible p.annotations

/-- How many parameters have a list of annotations of a visibility, where that is kept. -/
def annotationCount (visible : Bool) (m : Method) : Option Int :=
  if visible then m.visibleCount else m.invisibleCount

/-- The name and the flags of each parameter. -/
def namesAndFlags (m : Method) : List (Option Text × Int) := m.parameters.map fun p => (p.name, p.access)

/-- A method with `n` parameters has what the attributes about parameters say: the lists of
annotations are those of the last parameters, the names and flags those of the first ones. -/
structure HasTables (n : Nat) (s : ParameterTables) (m : Method) : Prop where
  annotations : ∀ visible, m.annotationLists visible =
    List.replicate (n - ((s.annotations visible).getD []).length) [] ++ (s.annotations visible).getD []
  annotationCount : ∀ visible, m.annotationCount visible =
    (s.annotations visible).bind fun lists => keptCount n lists.length (lists.any (!·.isEmpty))
  names : m.namesAndFlags = (s.names.getD []).map (fun e => (e.1, (e.2 : Int))) ++
    List.replicate (n - (s.names.getD []).length) (none, 0)
  nameCount : m.parameterCount =
    s.names.bind fun named => keptCount n named.length (named.any fun e => e.1.isSome || e.2 ≠ 0)

/-- A parameter has annotations of a visibility if its list is not empty. -/
theorem any_isAnnotated (visible : Bool) (m : Method) :
    m.parameters.any (Encoding.isAnnotated visible) = (m.annotationLists visible).any (!·.isEmpty) := by
  rw [annotationLists, List.any_map]
  rfl

theorem any_isNamed (m : Method) : m.parameters.any Encoding.isNamed =
    m.namesAndFlags.any fun e => e.1.isSome || e.2 ≠ 0 := by
  rw [namesAndFlags, List.any_map]
  rfl

@[simp] theorem length_annotationLists (visible : Bool) (m : Method) :
    (m.annotationLists visible).length = m.parameters.length := List.length_map _

@[simp] theorem length_namesAndFlags (m : Method) : m.namesAndFlags.length = m.parameters.length :=
  List.length_map _

end Method

/-! ## One attribute is read -/

namespace Decoding

/-- A parameter with more annotations. -/
def annotated (p : Parameter) (as : List AnnotationUse) : Parameter :=
  { p with annotations := p.annotations ++ as }

/-- A parameter with a name and flags. -/
def named (p : Parameter) (e : Option Text × Nat) : Parameter := { p with name := e.1, access := e.2 }

/-- Reading goes on for parameters, with something for each of them. -/
theorem reads_readParametersOnto {β : Type} {read : Parameter → Decoder Parameter}
    {more : Parameter → β → Parameter} {bs : List β} {parts : List Bytes}
    (h : List.Forall₂ (fun b part => ∀ p, Reads (read p) part (more p b)) bs parts) {ps : List Parameter}
    (hlength : ps.length = bs.length) (acc : List Parameter) :
    Reads (readParametersOnto read ps acc) parts.flatten (acc.reverse ++ List.zipWith more ps bs) := by
  induction h generalizing ps acc with
  | nil =>
    obtain rfl := List.eq_nil_of_length_eq_zero hlength
    rw [List.zipWith_nil_left, List.append_nil]
    exact .pure acc.reverse
  | @cons b part bs parts hb _ ih =>
    obtain ⟨p, ps, rfl⟩ := List.exists_cons_of_length_eq_add_one hlength
    have hrest := ih (Nat.succ.inj hlength) (more p b :: acc)
    rw [List.reverse_cons, List.append_assoc, List.singleton_append, ← List.zipWith_cons_cons] at hrest
    exact (hb p).bind hrest

/-- A name that may be missing is looked up. -/
theorem reads_entry_of_spells (hzero : ∀ e, t.entries[0]? ≠ some (some e)) {e : Option Text × Nat}
    {part : Bytes} (h : SpellsEntry t.entries e part) (p : Parameter) :
    Reads (do
      let name ← t.utf8? (← Decoder.u2)
      return { p with name, access := ← Decoder.u2 }) part (named p e) := by
  obtain ⟨name, access⟩ := e
  obtain ⟨nameBytes, accessBytes, hname, haccess, rfl⟩ := h
  have hrest : Reads (do return ({ p with name, access := ← Decoder.u2 } : Parameter)) accessBytes
      (named p (name, access)) :=
    (Reads.of_unsigned? haccess).map fun a : Nat =>
      ({ p with name := name, access := (a : Int) } : Parameter)
  cases name with
  | none =>
    obtain rfl : nameBytes = [0, 0] := hname
    have hindex : Reads Decoder.u2 [0, 0] 0 := Reads.unsigned rfl
    exact hindex.bind (.nil_bind (.pure none) hrest)
  | some s =>
    obtain ⟨i, hi, hindex⟩ := hname
    have hne : i ≠ 0 := fun h => hzero _ (h ▸ hi)
    have hlookup : Reads (t.utf8? i) [] (some s) := by
      unfold Table.utf8?
      rw [if_neg hne]
      exact (t.reads_text hi).map some
    exact (Reads.of_unsigned? hindex).bind (.nil_bind hlookup hrest)

/-- The annotations of a parameter are read from these bytes. -/
def ReadsUses (t : Table) (visible : Bool) (as : List AnnotationUse) (bytes : Bytes) : Prop :=
  Reads (readAnnotationUses t visible) bytes as ∧ ∀ a ∈ as, a.visible = visible

/-- A name and flags are read from these bytes, for any parameter. -/
def ReadsEntry (t : Table) (e : Option Text × Nat) (bytes : Bytes) : Prop :=
  ∀ p : Parameter, Reads (do
    let name ← t.utf8? (← Decoder.u2)
    return { p with name, access := ← Decoder.u2 }) bytes (named p e)

end Decoding

namespace ParameterTables

/-- Attributes of a method with `n` parameters are read as what they say about the parameters. -/
structure AreRead (t : Table) (n : Nat) (s : ParameterTables) (as : List Attribute) : Prop where
  annotations : ∀ visible, List.Forall₂
    (fun lists (a : Attribute) => IsCounted (ReadsUses t visible) n lists a.data)
    (s.annotations visible).toList
    (as.filter fun a => a.name = AttributeName.parameterAnnotations visible)
  names : List.Forall₂ (fun named (a : Attribute) => IsCounted (ReadsEntry t) n named a.data)
    s.names.toList (as.filter fun a => a.name = AttributeName.methodParameters)

/-- A table covers the same parameters however its entries are given. -/
theorem IsCounted.imp {α : Type} {spells spells' : α → Bytes → Prop} {as : List α}
    (h : IsCounted spells n as data) (himp : ∀ a part, spells a part → spells' a part) :
    IsCounted spells' n as data := by
  obtain ⟨hle, count, parts, hcount, hparts, heq⟩ := h
  exact ⟨hle, count, parts, hcount, hparts.imp himp, heq⟩

theorem IsCounted.readsUses {lists : List (List AnnotationUse)}
    (h : IsCounted (AnnotationUse.AreSpelled t.entries visible) n lists data) :
    IsCounted (ReadsUses t visible) n lists data := by
  refine h.imp fun as part has => ⟨reads_annotationUses has, fun a ha => ?_⟩
  obtain ⟨count, parts, -, hall, -⟩ := has
  obtain ⟨_, -, hvisible, -⟩ := Result.exists_of_mem_left hall ha
  exact hvisible

theorem IsCounted.readsEntry (hzero : ∀ e, t.entries[0]? ≠ some (some e))
    {entries : List (Option Text × Nat)} (h : IsCounted (SpellsEntry t.entries) n entries data) :
    IsCounted (ReadsEntry t) n entries data :=
  h.imp fun _ _ he => reads_entry_of_spells hzero he

theorem AreSpelled.areRead {s : ParameterTables} {as : List Attribute}
    (h : s.AreSpelled t.entries n as) (hzero : ∀ e, t.entries[0]? ≠ some (some e)) :
    s.AreRead t n as where
  annotations visible := (h.annotations visible).imp fun _ _ hlists => hlists.readsUses
  names := h.names.imp fun _ _ hnamed => hnamed.readsEntry hzero

end ParameterTables

namespace Decoding

/-- The method with annotations of a visibility for its last parameters. -/
def withAnnotations (visible : Bool) (lists : List (List AnnotationUse)) (m : Method) : Method :=
  let arity := m.parameters.length
  let m := { m with
    parameters := m.parameters.take (arity - lists.length) ++
      List.zipWith annotated (m.parameters.drop (arity - lists.length)) lists }
  if lists.length = arity ∧ m.parameters.any (Decoding.isAnnotated visible) then m
  else if visible then { m with visibleCount := some lists.length }
  else { m with invisibleCount := some lists.length }

/-- The method with names and flags for its first parameters. -/
def withNames (entries : List (Option Text × Nat)) (m : Method) : Method :=
  let arity := m.parameters.length
  let m := { m with
    parameters := List.zipWith named (m.parameters.take entries.length) entries ++
      m.parameters.drop entries.length }
  if entries.length = arity ∧ m.parameters.any Decoding.isNamed then m
  else { m with parameterCount := some entries.length }

/-- Annotations of parameters are read for the last ones. -/
theorem reads_readParameterAnnotations {m : Method} {lists : List (List AnnotationUse)}
    (h : IsCounted (ReadsUses t visible) m.parameters.length lists data) :
    Reads (readParameterAnnotations t visible m) data (withAnnotations visible lists m) := by
  obtain ⟨hle, count, parts, hcount, hparts, rfl⟩ := h
  apply (reads_readParameterCount hcount hle).bind
  have hdrop : (m.parameters.drop (m.parameters.length - lists.length)).length = lists.length := by
    rw [List.length_drop]
    omega
  have hall : List.Forall₂ (fun as part => ∀ p : Parameter, Reads (do
      return { p with annotations := p.annotations ++ (← readAnnotationUses t visible) }) part
        (annotated p as)) lists parts :=
    hparts.imp fun _ _ has p => has.1.map _
  apply (reads_readParametersOnto hall hdrop []).bind_nil
  unfold withAnnotations
  rw [List.reverse_nil, List.nil_append]
  dsimp only
  split
  · exact .pure _
  · split
    · exact .pure _
    · exact .pure _

/-- Names and flags are read for the first parameters. -/
theorem reads_readMethodParameters {m : Method} {named_ : List (Option Text × Nat)}
    (h : IsCounted (ReadsEntry t) m.parameters.length named_ data) :
    Reads (readMethodParameters t m) data (withNames named_ m) := by
  obtain ⟨hle, count, parts, hcount, hparts, rfl⟩ := h
  apply (reads_readParameterCount hcount hle).bind
  have htake : (m.parameters.take named_.length).length = named_.length := by
    rw [List.length_take]
    omega
  apply (reads_readParametersOnto hparts htake []).bind_nil
  unfold withNames
  rw [List.reverse_nil, List.nil_append]
  dsimp only
  split
  · exact .pure _
  · exact .pure _

theorem reads_parameterAnnotations {m : Method} {lists : List (List AnnotationUse)}
    (h : IsCounted (ReadsUses t visible) m.parameters.length lists data) (length : Nat) :
    Reads (readMethodAttribute t (AttributeName.parameterAnnotations visible) length m) data
      (withAnnotations visible lists (m.noting (AttributeName.parameterAnnotations visible))) := by
  rw [readMethodAttribute_of_lookup _ _ _ (lookup_parameterAnnotations _ _)]
  exact reads_readParameterAnnotations h

theorem reads_methodParameters {m : Method} {entries : List (Option Text × Nat)}
    (h : IsCounted (ReadsEntry t) m.parameters.length entries data) (length : Nat) :
    Reads (readMethodAttribute t AttributeName.methodParameters length m) data
      (withNames entries (m.noting AttributeName.methodParameters)) := by
  rw [readMethodAttribute_of_lookup _ AttributeName.methodParameters _ rfl]
  exact reads_readMethodParameters h

/-! ## What is kept of one attribute -/

theorem zipWith_eq_map {α β γ : Type} {f : α → β → γ} {g : β → γ} {as : List α} {bs : List β}
    (hlength : as.length = bs.length) (h : ∀ a ∈ as, ∀ b ∈ bs, f a b = g b) :
    List.zipWith f as bs = bs.map g := by
  induction bs generalizing as with
  | nil => rw [List.zipWith_nil_right, List.map_nil]
  | cons b bs ih =>
    obtain ⟨a, as, rfl⟩ := List.exists_cons_of_length_eq_add_one hlength
    have hrest := ih (Nat.succ.inj hlength) fun a ha b hb =>
      h a (List.mem_cons_of_mem _ ha) b (List.mem_cons_of_mem _ hb)
    rw [List.zipWith_cons_cons, List.map_cons, hrest, h a List.mem_cons_self b List.mem_cons_self]

/-- The last parameters get the annotations, the others keep what they have. -/
theorem parameters_withAnnotations (visible : Bool) (lists : List (List AnnotationUse)) (m : Method) :
    (withAnnotations visible lists m).parameters =
      m.parameters.take (m.parameters.length - lists.length) ++
        List.zipWith annotated (m.parameters.drop (m.parameters.length - lists.length)) lists := by
  unfold withAnnotations
  dsimp only
  split
  · rfl
  · split <;> rfl

/-- The lists of a first attribute of annotations are those of the last parameters. -/
theorem annotationLists_withAnnotations {m : Method} {lists : List (List AnnotationUse)}
    (hle : lists.length ≤ m.parameters.length)
    (hlists : ∀ as ∈ lists, ∀ a ∈ as, a.visible = visible)
    (hfirst : m.annotationLists visible = List.replicate m.parameters.length []) :
    (withAnnotations visible lists m).annotationLists visible =
      List.replicate (m.parameters.length - lists.length) [] ++ lists := by
  have hnone : ∀ p ∈ m.parameters, ofVisibility visible p.annotations = [] := by
    intro p hp
    have hmem : ofVisibility visible p.annotations ∈ m.annotationLists visible :=
      List.mem_map_of_mem (f := fun p : Parameter => ofVisibility visible p.annotations) hp
    rw [hfirst] at hmem
    exact List.eq_of_mem_replicate hmem
  have hdrop : (m.parameters.drop (m.parameters.length - lists.length)).length = lists.length := by
    rw [List.length_drop]
    omega
  have hlast : List.zipWith (fun p as => ofVisibility visible (annotated p as).annotations)
      (m.parameters.drop (m.parameters.length - lists.length)) lists = lists.map id := by
    apply zipWith_eq_map hdrop
    intro p hp as has
    show (p.annotations ++ as).filter _ = as
    rw [List.filter_append]
    rw [show p.annotations.filter _ = [] from hnone p (List.mem_of_mem_drop hp), List.nil_append]
    apply List.filter_eq_self.2
    intro a ha
    simpa using hlists as has a ha
  unfold Method.annotationLists at hfirst ⊢
  rw [parameters_withAnnotations, List.map_append, List.map_take, hfirst, List.take_replicate,
    min_eq_left (Nat.sub_le _ _), List.map_zipWith, hlast, List.map_id]

/-- The count of a first attribute of annotations is kept if the parameters do not tell. -/
theorem annotationCount_withAnnotations {m : Method} {lists : List (List AnnotationUse)}
    (hle : lists.length ≤ m.parameters.length)
    (hlists : ∀ as ∈ lists, ∀ a ∈ as, a.visible = visible)
    (hfirst : m.annotationLists visible = List.replicate m.parameters.length [])
    (hcount : m.annotationCount visible = none) :
    (withAnnotations visible lists m).annotationCount visible =
      keptCount m.parameters.length lists.length (lists.any (!·.isEmpty)) := by
  have htells : (withAnnotations visible lists m).parameters.any (Decoding.isAnnotated visible) =
      lists.any (!·.isEmpty) := by
    rw [show Decoding.isAnnotated visible = Encoding.isAnnotated visible from
      funext (isAnnotated_eq visible), Method.any_isAnnotated,
      annotationLists_withAnnotations hle hlists hfirst, List.any_append, List.any_replicate]
    simp
  rw [parameters_withAnnotations] at htells
  unfold withAnnotations keptCount
  dsimp only
  rw [htells]
  split
  · exact hcount
  · cases visible <;> rfl

/-- The first parameters get names and flags, the others keep what they have. -/
theorem parameters_withNames (entries : List (Option Text × Nat)) (m : Method) :
    (withNames entries m).parameters =
      List.zipWith named (m.parameters.take entries.length) entries ++
        m.parameters.drop entries.length := by
  unfold withNames
  dsimp only
  split <;> rfl

/-- The entries of a first attribute of names are those of the first parameters. -/
theorem namesAndFlags_withNames {m : Method} {entries : List (Option Text × Nat)}
    (hle : entries.length ≤ m.parameters.length)
    (hfirst : m.namesAndFlags = List.replicate m.parameters.length (none, 0)) :
    (withNames entries m).namesAndFlags = entries.map (fun e => (e.1, (e.2 : Int))) ++
      List.replicate (m.parameters.length - entries.length) (none, 0) := by
  have htake : (m.parameters.take entries.length).length = entries.length := by
    rw [List.length_take]
    omega
  have hentries : List.zipWith (fun p e => ((named p e).name, (named p e).access))
      (m.parameters.take entries.length) entries = entries.map fun e => (e.1, (e.2 : Int)) :=
    zipWith_eq_map htake fun _ _ _ _ => rfl
  unfold Method.namesAndFlags at hfirst ⊢
  rw [parameters_withNames, List.map_append, List.map_drop, hfirst, List.drop_replicate,
    List.map_zipWith, hentries]

/-- The count of a first attribute of names is kept if the parameters do not tell. -/
theorem parameterCount_withNames {m : Method} {entries : List (Option Text × Nat)}
    (hle : entries.length ≤ m.parameters.length)
    (hfirst : m.namesAndFlags = List.replicate m.parameters.length (none, 0))
    (hcount : m.parameterCount = none) :
    (withNames entries m).parameterCount =
      keptCount m.parameters.length entries.length (entries.any fun e => e.1.isSome || e.2 ≠ 0) := by
  have htells : (withNames entries m).parameters.any Decoding.isNamed =
      entries.any fun e => e.1.isSome || e.2 ≠ 0 := by
    rw [show Decoding.isNamed = Encoding.isNamed from rfl, Method.any_isNamed,
      namesAndFlags_withNames hle hfirst, List.any_append, List.any_replicate, List.any_map]
    simp [Function.comp_def]
  rw [parameters_withNames] at htells
  unfold withNames keptCount
  dsimp only
  rw [htells]
  split
  · exact hcount
  · rfl

end Decoding

/-! ## Other attributes -/

/-- An attribute of a name leaves alone what other attributes say about the parameters of a method,
and it is not kept as bytes if it is about parameters itself. -/
structure Method.Spares (name : Text) (m m' : Method) : Prop where
  annotations : ∀ visible, name ≠ AttributeName.parameterAnnotations visible →
    m'.annotationLists visible = m.annotationLists visible ∧
      m'.annotationCount visible = m.annotationCount visible
  names : name ≠ AttributeName.methodParameters →
    m'.namesAndFlags = m.namesAndFlags ∧ m'.parameterCount = m.parameterCount
  raw : (∀ a ∈ m.attributes, a.name ∉ AttributeName.ofParameters) →
    ∀ a ∈ m'.attributes, a.name ∉ AttributeName.ofParameters

theorem Method.Spares.length_parameters {name : Text} {m m' : Method} (h : m.Spares name m') :
    m'.parameters.length = m.parameters.length := by
  by_cases hname : name = AttributeName.methodParameters
  · have hlists := (h.annotations true (hname ▸ by decide)).1
    rw [← m'.length_annotationLists true, hlists, m.length_annotationLists]
  · rw [← m'.length_namesAndFlags, (h.names hname).1, m.length_namesAndFlags]

/-- What changes nothing about the parameters spares everything. -/
theorem Method.Spares.of_eq {name : Text} {m m' : Method} (hparameters : m'.parameters = m.parameters)
    (hvisible : m'.visibleCount = m.visibleCount) (hinvisible : m'.invisibleCount = m.invisibleCount)
    (hcount : m'.parameterCount = m.parameterCount)
    (hraw : (∀ a ∈ m.attributes, a.name ∉ AttributeName.ofParameters) →
      ∀ a ∈ m'.attributes, a.name ∉ AttributeName.ofParameters) : m.Spares name m' where
  annotations visible _ := by
    unfold annotationLists annotationCount
    rw [hparameters, hvisible, hinvisible]
    exact ⟨rfl, rfl⟩
  names _ := by
    unfold namesAndFlags
    rw [hparameters]
    exact ⟨rfl, hcount⟩
  raw := hraw

namespace Decoding

variable {file : Bytes}

theorem Yields.ite_of {α : Type} {c : Prop} [Decidable c] {d e : Decoder α} {Q : α → Prop}
    (hd : c → Yields file d Q) (he : ¬ c → Yields file e Q) : Yields file (if c then d else e) Q := by
  split
  · next hc => exact hd hc
  · next hc => exact he hc

/-- What reading leaves alone of each parameter it leaves alone of all of them. -/
theorem yields_readParametersOnto {γ : Type} {kept : Parameter → γ} {read : Parameter → Decoder Parameter}
    [∀ p, Stays (read p)] (hread : ∀ p, Yields file (read p) fun q => kept q = kept p)
    (ps acc : List Parameter) : Yields file (readParametersOnto read ps acc) fun qs =>
      qs.map kept = acc.reverse.map kept ++ ps.map kept := by
  induction ps generalizing acc with
  | nil => exact .pure (by rw [List.map_nil, List.append_nil])
  | cons p ps ih =>
    refine (hread p).bind fun q hq => ?_
    intro c c' qs hc h
    rw [ih (q :: acc) c c' qs hc h, List.reverse_cons, List.map_append, List.map_singleton, hq,
      List.append_assoc, List.singleton_append, List.map_cons]

/-- Annotations of an attribute are of its visibility. -/
theorem yields_readAnnotationUses (visible : Bool) :
    Yields file (readAnnotationUses t visible) fun as => ∀ a ∈ as, a.visible = visible := by
  have hstays (fuel : Nat) : Stays (readAnnotationUse t visible fuel) := by
    unfold readAnnotationUse
    infer_instance
  have hvisible (fuel : Nat) : Yields file (readAnnotationUse t visible fuel) fun a =>
      a.visible = visible :=
    .any_bind fun _ => .any_bind fun _ => .any_map fun _ => rfl
  unfold readAnnotationUses nesting
  exact .any_bind fun fuel => .listOf (hvisible fuel)

/-- Values by name are of the sort of their values. -/
theorem yields_readNamed {value : Decoder ElementValue} [Stays value] {Q : ElementValue → Prop}
    (h : Yields file value Q) : Yields file (readNamed t value) fun vs => ∀ p ∈ vs, Q p.2 :=
  .listOf (.any_bind fun _ => .any_bind fun _ => h.bind fun _ hv => .pure hv)

/-- Every annotation in a value has the visibility of the attribute. -/
theorem yields_isSeen_readElementWith (visible : Bool) (fuel : Nat) :
    Yields file (readElementWith t visible fuel) (ElementValue.IsSeen visible) := by
  induction fuel with
  | zero => exact .refuseHere _
  | succ fuel ih =>
    unfold readElementWith
    refine .any_bind fun start => .any_bind fun code => ?_
    split
    · exact .any_bind fun _ => .any_map fun _ => trivial
    · exact .any_bind fun _ => .any_map fun _ => trivial
    · exact .any_bind fun _ => .any_map fun _ => trivial
    · refine .ite ?_ (.ite ?_ (.ite ?_ (.throw _)))
      · exact .any_bind fun _ => .any_bind fun _ => .any_bind fun _ => .any_map fun _ => trivial
      · refine .any_bind fun _ => .any_bind fun _ => (yields_readNamed ih).bind fun vs hvs => .pure ?_
        exact ⟨rfl, ElementValue.areSeenNamed_iff.2 hvs⟩
      · exact (Yields.listOf ih).bind fun vs hvs => .pure (ElementValue.areSeen_iff.2 hvs)

theorem yields_isSeen_readAnnotationUses (visible : Bool) :
    Yields file (readAnnotationUses t visible) fun as => ∀ a ∈ as, a.IsSeen := by
  have hstays (fuel : Nat) : Stays (readAnnotationUse t visible fuel) := by
    unfold readAnnotationUse
    infer_instance
  have hseen (fuel : Nat) : Yields file (readAnnotationUse t visible fuel) AnnotationUse.IsSeen := by
    refine .any_bind fun _ => .any_bind fun _ => ?_
    refine (yields_readNamed (yields_isSeen_readElementWith visible fuel)).bind fun vs hvs => .pure ?_
    exact ElementValue.areSeenNamed_iff.2 hvs
  unfold readAnnotationUses nesting
  exact .any_bind fun fuel => .listOf (hseen fuel)

/-- Annotations of a visibility spare those of the other one, and names. -/
theorem spares_readParameterAnnotations (visible : Bool) (m : Method) :
    Yields file (readParameterAnnotations t visible m)
      (m.Spares (AttributeName.parameterAnnotations visible)) := by
  let kept (p : Parameter) := (ofVisibility (!visible) p.annotations, p.name, p.access)
  have hread (p : Parameter) : Yields file (do
      return ({ p with annotations := p.annotations ++ (← readAnnotationUses t visible) } : Parameter))
      fun q => kept q = kept p := by
    refine (yields_readAnnotationUses visible).bind fun as has => ?_
    have hother : ofVisibility (!visible) (p.annotations ++ as) = ofVisibility (!visible) p.annotations :=
      ofVisibility_append_of_ne has (by simp)
    exact .pure (by simp only [kept, hother])
  unfold readParameterAnnotations
  refine .any_bind fun count => (yields_readParametersOnto hread _ []).bind fun annotated hannotated => ?_
  have hkept : (m.parameters.take (m.parameters.length - count) ++ annotated).map kept =
      m.parameters.map kept := by
    rw [List.map_append, hannotated, List.reverse_nil, List.map_nil, List.nil_append,
      ← List.map_append, List.take_append_drop]
  generalize m.parameters.take (m.parameters.length - count) ++ annotated = ps at hkept
  -- the three results differ in the count of this visibility at most
  have hspares {m' : Method} (hparameters : m'.parameters = ps)
      (hother : m'.annotationCount (!visible) = m.annotationCount (!visible))
      (hcount : m'.parameterCount = m.parameterCount) (hattributes : m'.attributes = m.attributes) :
      m.Spares (AttributeName.parameterAnnotations visible) m' := by
    refine ⟨fun other hne => ?_, fun _ => ⟨?_, hcount⟩, fun hraw => hattributes ▸ hraw⟩
    · obtain rfl : other = !visible := by
        cases other <;> cases visible <;> first | rfl | exact absurd rfl hne
      refine ⟨?_, hother⟩
      have hlists := congrArg (List.map Prod.fst) hkept
      rw [List.map_map, List.map_map, ← hparameters] at hlists
      exact hlists
    · have hnames := congrArg (List.map Prod.snd) hkept
      rw [List.map_map, List.map_map, ← hparameters] at hnames
      exact hnames
  refine .ite (.pure (hspares rfl rfl rfl rfl)) (.ite_of (fun htrue => ?_) fun hfalse => ?_)
  · obtain rfl : visible = true := htrue
    exact .pure (hspares rfl rfl rfl rfl)
  · obtain rfl : visible = false := by simpa using hfalse
    exact .pure (hspares rfl rfl rfl rfl)

/-- Names and flags spare the annotations. -/
theorem spares_readMethodParameters (m : Method) :
    Yields file (readMethodParameters t m) (m.Spares AttributeName.methodParameters) := by
  have hread (p : Parameter) : Yields file (do
      let name ← t.utf8? (← Decoder.u2)
      return ({ p with name, access := ← Decoder.u2 } : Parameter)) fun q =>
        q.annotations = p.annotations :=
    .any_bind fun _ => .any_bind fun _ => .any_map fun _ => rfl
  unfold readMethodParameters
  refine .any_bind fun count => (yields_readParametersOnto hread _ []).bind fun named hnamed => ?_
  have hkept : (named ++ m.parameters.drop count).map Parameter.annotations =
      m.parameters.map Parameter.annotations := by
    rw [List.map_append, hnamed, List.reverse_nil, List.map_nil, List.nil_append,
      ← List.map_append, List.take_append_drop]
  generalize named ++ m.parameters.drop count = ps at hkept
  have hspares (given : Option Int) : m.Spares AttributeName.methodParameters
      { m with parameters := ps, parameterCount := given } := by
    refine ⟨fun visible _ => ⟨?_, rfl⟩, fun hne => absurd rfl hne, id⟩
    have hlists := congrArg (List.map (ofVisibility visible)) hkept
    rw [List.map_map, List.map_map] at hlists
    exact hlists
  exact .ite (.pure (hspares m.parameterCount)) (.pure (hspares (some count)))

/-- Every attribute of a method spares what others say about the parameters. -/
theorem spares_readMethodAttribute (name : Text) (length : Nat) (m : Method) :
    Yields file (readMethodAttribute t name length m) (m.Spares name) := by
  have hsame {m' : Method} (hparameters : m'.parameters = m.parameters)
      (hvisible : m'.visibleCount = m.visibleCount) (hinvisible : m'.invisibleCount = m.invisibleCount)
      (hcount : m'.parameterCount = m.parameterCount) (hattributes : m'.attributes = m.attributes) :
      m.Spares name m' := .of_eq hparameters hvisible hinvisible hcount fun h => hattributes ▸ h
  have hordered {m' : Method} (h : Method.Spares name { m with
      layout := { m.layout with attributeOrder := m.layout.attributeOrder ++ [name] } } m') :
      m.Spares name m' := ⟨h.annotations, h.names, h.raw⟩
  unfold readMethodAttribute
  refine .ite_of (fun _ => .any_map fun _ => hsame rfl rfl rfl rfl rfl) fun _ =>
    .ite_of (fun _ => .any_map fun _ => hsame rfl rfl rfl rfl rfl) fun _ =>
    .ite_of (fun _ => .any_bind fun _ => .any_map fun _ => hsame rfl rfl rfl rfl rfl) fun _ =>
    .ite_of (fun _ => .any_map fun _ => hsame rfl rfl rfl rfl rfl) fun _ =>
    .ite_of (fun _ => .any_map fun _ => hsame rfl rfl rfl rfl rfl) fun _ =>
    .ite_of (fun hname => ?_) fun hvisible => .ite_of (fun hname => ?_) fun hinvisible =>
    .ite_of (fun _ => .any_map fun _ => hsame rfl rfl rfl rfl rfl) fun _ =>
    .ite_of (fun hname => ?_) fun hnames => .any_map fun data => ?_
  · obtain rfl := hname
    exact fun c c' m' hc h => hordered (spares_readParameterAnnotations true _ c c' m' hc h)
  · obtain rfl := hname
    exact fun c c' m' hc h => hordered (spares_readParameterAnnotations false _ c c' m' hc h)
  · obtain rfl := hname
    exact fun c c' m' hc h => hordered (spares_readMethodParameters _ c c' m' hc h)
  · refine .of_eq rfl rfl rfl rfl fun h a ha => ?_
    rcases List.mem_append.1 ha with ha | ha
    · exact h a ha
    · obtain rfl := List.mem_singleton.1 ha
      simp [AttributeName.ofParameters, hvisible, hinvisible, hnames]

/-! ## All attributes are read -/

/-- What no attribute of a row touches is the same behind the row. -/
theorem observe_eq_of_readAll {σ γ : Type} (observe : σ → γ) {read : Text → Nat → σ → Decoder σ}
    {as : List Attribute} {s s' : σ} (h : Attribute.readAll read as s = .ok s')
    (heffect : ∀ a ∈ as, ∀ s s',
      Outline.whole (read a.name a.data.length s) a.data = .ok s' → observe s' = observe s) :
    observe s' = observe s := by
  induction as generalizing s with
  | nil =>
    cases h
    rfl
  | cons a as ih =>
    unfold Attribute.readAll at h
    rw [List.foldlM_cons] at h
    obtain ⟨s₁, hfirst, hrest⟩ := Result.bind_eq_ok_iff.1 h
    have htail := ih hrest fun b hb => heffect b (List.mem_cons_of_mem _ hb)
    exact htail.trans (heffect a List.mem_cons_self s s₁ hfirst)

theorem readAll_append_cons {σ : Type} {read : Text → Nat → σ → Decoder σ} {before after : List Attribute}
    {a : Attribute} {s s' : σ} (h : Attribute.readAll read (before ++ a :: after) s = .ok s') :
    ∃ s₁ s₂, Attribute.readAll read before s = .ok s₁ ∧
      Outline.whole (read a.name a.data.length s₁) a.data = .ok s₂ ∧
      Attribute.readAll read after s₂ = .ok s' := by
  unfold Attribute.readAll at h ⊢
  rw [List.foldlM_append] at h
  obtain ⟨s₁, hbefore, h⟩ := Result.bind_eq_ok_iff.1 h
  rw [List.foldlM_cons] at h
  obtain ⟨s₂, ha, hafter⟩ := Result.bind_eq_ok_iff.1 h
  exact ⟨s₁, s₂, hbefore, ha, hafter⟩

/-- An attribute that has been read by itself has spared what others say. -/
theorem spares_of_whole {a : Attribute} {m m' : Method}
    (h : Outline.whole (readMethodAttribute t a.name a.data.length m) a.data = .ok m') :
    m.Spares a.name m' := by
  obtain ⟨c, hread, -⟩ := whole_eq_ok_iff.1 h
  exact spares_readMethodAttribute _ _ _ _ _ _ (Cursor.isIn_drop a.data 0) hread

variable {as : List Attribute} {m m' : Method}

/-- The annotations of a visibility are as they were before attributes of other names. -/
theorem annotations_eq_of_readAll (h : Attribute.readAll (readMethodAttribute t) as m = .ok m')
    (hother : ∀ a ∈ as, a.name ≠ AttributeName.parameterAnnotations visible) :
    m'.annotationLists visible = m.annotationLists visible ∧
      m'.annotationCount visible = m.annotationCount visible := by
  have hobserve := observe_eq_of_readAll
    (fun m : Method => (m.annotationLists visible, m.annotationCount visible)) h fun a ha s s' hs =>
      Prod.ext_iff.2 ((spares_of_whole hs).annotations visible (hother a ha))
  exact Prod.ext_iff.1 hobserve

/-- Names and flags are as they were before attributes of other names. -/
theorem names_eq_of_readAll (h : Attribute.readAll (readMethodAttribute t) as m = .ok m')
    (hother : ∀ a ∈ as, a.name ≠ AttributeName.methodParameters) :
    m'.namesAndFlags = m.namesAndFlags ∧ m'.parameterCount = m.parameterCount := by
  have hobserve := observe_eq_of_readAll
    (fun m : Method => (m.namesAndFlags, m.parameterCount)) h fun a ha s s' hs =>
      Prod.ext_iff.2 ((spares_of_whole hs).names (hother a ha))
  exact Prod.ext_iff.1 hobserve

/-- Attributes about parameters are not kept as bytes. -/
theorem raw_of_readAll (h : Attribute.readAll (readMethodAttribute t) as m = .ok m')
    (hraw : ∀ a ∈ m.attributes, a.name ∉ AttributeName.ofParameters) :
    ∀ a ∈ m'.attributes, a.name ∉ AttributeName.ofParameters := by
  induction as generalizing m with
  | nil =>
    cases h
    exact hraw
  | cons a as ih =>
    obtain ⟨m₁, m₂, ⟨⟩, hfirst, hrest⟩ :=
      readAll_append_cons (show Attribute.readAll _ ([] ++ a :: as) m = .ok m' from h)
    exact ih hrest ((spares_of_whole hfirst).raw hraw)

/-- The only attribute of a name stands between attributes of other names. -/
theorem exists_between_of_filter {name : Text} {a : Attribute}
    (h : as.filter (fun a => a.name = name) = [a]) :
    ∃ before after, as = before ++ a :: after ∧ (∀ b ∈ before, b.name ≠ name) ∧ a.name = name ∧
      ∀ b ∈ after, b.name ≠ name := by
  obtain ⟨before, after, heq, hbefore, ha, hafter⟩ := List.filter_eq_cons_iff.1 h
  refine ⟨before, after, heq, by simpa using hbefore, by simpa using ha, ?_⟩
  simpa using List.filter_eq_nil_iff.1 hafter

/-- What is kept of the only attribute of annotations of a visibility, or of none. -/
theorem annotations_of_readAll {s : ParameterTables} (hs : s.AreRead t n as)
    (hm : m.HasTables n .empty) (h : Attribute.readAll (readMethodAttribute t) as m = .ok m')
    (visible : Bool) :
    m'.annotationLists visible = List.replicate (n - ((s.annotations visible).getD []).length) [] ++
        (s.annotations visible).getD [] ∧
      m'.annotationCount visible = (s.annotations visible).bind fun lists =>
        keptCount n lists.length (lists.any (!·.isEmpty)) := by
  have hspelled := hs.annotations visible
  have hfirst : m.annotationLists visible = List.replicate n [] := by
    rw [hm.annotations visible]
    exact List.append_nil _
  have hcount : m.annotationCount visible = none := hm.annotationCount visible
  cases htables : s.annotations visible with
  | none =>
    rw [htables] at hspelled
    have hother := List.filter_eq_nil_iff.1 (List.forall₂_nil_left_iff.1 hspelled)
    obtain ⟨hlists, hcounts⟩ := annotations_eq_of_readAll h (by simpa using hother)
    rw [hlists, hcounts, hfirst, hcount]
    exact ⟨(List.append_nil _).symm, rfl⟩
  | some lists =>
    rw [htables] at hspelled
    obtain ⟨a, rest, hdata, hrest, hfilter⟩ := List.forall₂_cons_left_iff.1 hspelled
    obtain rfl := List.forall₂_nil_left_iff.1 hrest
    obtain ⟨before, after, rfl, hbefore, ha, hafter⟩ := exists_between_of_filter hfilter
    obtain ⟨m₁, m₂, h₁, h₂, h₃⟩ := readAll_append_cons h
    -- before the attribute nothing has been said, and behind it nothing changes
    obtain ⟨hlists₁, hcount₁⟩ := annotations_eq_of_readAll h₁ hbefore
    obtain ⟨hlists₃, hcount₃⟩ := annotations_eq_of_readAll h₃ hafter
    have hlength : m₁.parameters.length = n := by
      rw [← m₁.length_annotationLists visible, hlists₁, hfirst, List.length_replicate]
    subst hlength
    rw [ha, Outline.whole_eq_ok (reads_parameterAnnotations hdata _)] at h₂
    cases h₂
    have hvisible : ∀ as ∈ lists, ∀ a ∈ as, a.visible = visible := by
      obtain ⟨-, count, parts, -, hparts, -⟩ := hdata
      intro as has
      obtain ⟨part, -, hall⟩ := Result.exists_of_mem_left hparts has
      exact hall.2
    refine ⟨hlists₃.trans ?_, hcount₃.trans ?_⟩
    · exact annotationLists_withAnnotations hdata.1 hvisible (hlists₁.trans hfirst)
    · exact annotationCount_withAnnotations hdata.1 hvisible (hlists₁.trans hfirst) (hcount₁.trans hcount)

/-- What is kept of the only attribute of names, or of none. -/
theorem names_of_readAll {s : ParameterTables} (hs : s.AreRead t n as) (hm : m.HasTables n .empty)
    (h : Attribute.readAll (readMethodAttribute t) as m = .ok m') :
    m'.namesAndFlags = (s.names.getD []).map (fun e => (e.1, (e.2 : Int))) ++
        List.replicate (n - (s.names.getD []).length) (none, 0) ∧
      m'.parameterCount = s.names.bind fun named =>
        keptCount n named.length (named.any fun e => e.1.isSome || e.2 ≠ 0) := by
  have hspelled := hs.names
  have hfirst : m.namesAndFlags = List.replicate n (none, 0) := hm.names
  have hcount : m.parameterCount = none := hm.nameCount
  cases htables : s.names with
  | none =>
    rw [htables] at hspelled
    have hother := List.filter_eq_nil_iff.1 (List.forall₂_nil_left_iff.1 hspelled)
    obtain ⟨hnames, hcounts⟩ := names_eq_of_readAll h (by simpa using hother)
    rw [hnames, hcounts, hfirst, hcount]
    exact ⟨rfl, rfl⟩
  | some entries =>
    rw [htables] at hspelled
    obtain ⟨a, rest, hdata, hrest, hfilter⟩ := List.forall₂_cons_left_iff.1 hspelled
    obtain rfl := List.forall₂_nil_left_iff.1 hrest
    obtain ⟨before, after, rfl, hbefore, ha, hafter⟩ := exists_between_of_filter hfilter
    obtain ⟨m₁, m₂, h₁, h₂, h₃⟩ := readAll_append_cons h
    obtain ⟨hnames₁, hcount₁⟩ := names_eq_of_readAll h₁ hbefore
    obtain ⟨hnames₃, hcount₃⟩ := names_eq_of_readAll h₃ hafter
    have hlength : m₁.parameters.length = n := by
      rw [← m₁.length_namesAndFlags, hnames₁, hfirst, List.length_replicate]
    subst hlength
    rw [ha, Outline.whole_eq_ok (reads_methodParameters hdata _)] at h₂
    cases h₂
    refine ⟨hnames₃.trans ?_, hcount₃.trans ?_⟩
    · exact namesAndFlags_withNames hdata.1 (hnames₁.trans hfirst)
    · exact parameterCount_withNames hdata.1 (hnames₁.trans hfirst) (hcount₁.trans hcount)

theorem hasTables_of_readAll {s : ParameterTables} (hs : s.AreRead t n as) (hm : m.HasTables n .empty)
    (h : Attribute.readAll (readMethodAttribute t) as m = .ok m') : m'.HasTables n s where
  annotations visible := (annotations_of_readAll hs hm h visible).1
  annotationCount visible := (annotations_of_readAll hs hm h visible).2
  names := (names_of_readAll hs hm h).1
  nameCount := (names_of_readAll hs hm h).2

/-- What the parameters of a descriptor have in common. -/
theorem map_parametersOf {γ : Type} {f : Parameter → γ} {c : γ} (types : List Text)
    (hf : ∀ (index : Nat) descriptor, f { index := index, descriptor } = c) :
    (parametersOf types).map f = List.replicate types.length c := by
  have hall : ∀ p ∈ parametersOf types, f p = c := by
    intro p hp
    obtain ⟨⟨descriptor, index⟩, -, rfl⟩ := List.mem_map.1 hp
    exact hf index descriptor
  have hlength : (parametersOf types).length = types.length := by
    rw [parametersOf, List.length_map, List.length_zipIdx]
  rw [List.map_eq_replicate_iff.2 hall, hlength]

theorem hasTables_head (o : MemberOutline) (types : List Text) :
    (o.head types).HasTables types.length .empty where
  annotations visible := (map_parametersOf types fun _ _ => rfl).trans (List.append_nil _).symm
  annotationCount visible := by cases visible <;> rfl
  names := map_parametersOf types fun _ _ => rfl
  nameCount := rfl

end Decoding

end ClassTree
