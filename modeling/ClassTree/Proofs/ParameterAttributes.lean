/-
# ClassTree.Proofs.ParameterAttributes — attributes about parameters are written as they were read

The writer has to find out, for each of the attributes about parameters, whether there was one and
how many parameters it covered: by the count that has been kept, or else by what the parameters
have. Where no two entries of the pool are equal, every index leads back to itself, and the
attributes are written byte for byte as they were read.
-/
import Mathlib
import ClassTree.Proofs.Decoding.ParameterTables

namespace ClassTree

open Decoding Encoding Encoder
open ParameterTables

variable {entries : Array (Option Pool.Entry)} {t : Table} {P : Pool} {data : Bytes} {visible : Bool}
  {n : Nat}

/-! ## What is written of parameters -/

namespace ParameterTables

/-- The bytes of every parameter with a name and flags. -/
def WritesEntry (P : Pool) (e : Option Text × Nat) (bytes : Bytes) : Prop :=
  ∀ p : Parameter, (p.name, p.access) = (e.1, (e.2 : Int)) → Fixed P (parameter p) bytes

/-- A parameter is written as it was spelled. -/
theorem SpellsEntry.writesEntry (hP : P.Locates entries) {e : Option Text × Nat} {bytes : Bytes}
    (h : SpellsEntry entries e bytes) : WritesEntry P e bytes := by
  intro p he
  obtain ⟨hname, haccess⟩ := Prod.ext_iff.1 he
  obtain ⟨name, access, hspelled, hbytes, rfl⟩ := h
  dsimp only at hname haccess
  unfold parameter
  rw [hname, haccess]
  cases hn : e.1 with
  | none =>
    rw [hn] at hspelled
    obtain rfl : name = [0, 0] := hspelled
    simp only [fixed_bind_iff, fixed_pure_iff, fixed_u2_iff]
    exact ⟨0, rfl, [0, 0], by decide, access, hbytes, rfl⟩
  | some s =>
    rw [hn] at hspelled
    obtain ⟨i, hi, hindex⟩ := hspelled
    simp only [fixed_bind_iff, fixed_pure_iff, fixed_u2_iff, fixed_addUtf8_iff]
    exact ⟨i, hP i _ hi, name, hindex, access, hbytes, rfl⟩

/-- Attributes of a method with `n` parameters are written for what is said about the parameters. -/
structure AreWritten (P : Pool) (n : Nat) (s : ParameterTables)
    (as : List Attribute) : Prop where
  annotations : ∀ visible, List.Forall₂ (fun lists (a : Attribute) =>
    IsCounted (fun uses part => Fixed P (annotationUses uses) part) n lists a.data)
    (s.annotations visible).toList
    (as.filter fun a => a.name = AttributeName.parameterAnnotations visible)
  names : List.Forall₂ (fun named (a : Attribute) => IsCounted (WritesEntry P) n named a.data)
    s.names.toList (as.filter fun a => a.name = AttributeName.methodParameters)

/-- What is spelled in a class file is written by a pool that has its texts where they were. -/
theorem AreSpelled.areWritten {s : ParameterTables} {as : List Attribute} (h : s.AreSpelled entries n as)
    (hP : P.Locates entries) : s.AreWritten P n as where
  annotations visible := (h.annotations visible).imp fun _ _ hdata =>
    hdata.imp fun _ _ hpart => fixed_annotationUses hP hpart
  names := h.names.imp fun _ _ hdata => hdata.imp fun _ _ hpart => SpellsEntry.writesEntry hP hpart

end ParameterTables

/-! ## The attributes are written -/

namespace Encoding

theorem filter_pieceIf_self (condition : Bool) (name : Text) (content : Encoder Bytes) :
    (pieceIf condition name content).filter (fun p => p.name = name) = pieceIf condition name content :=
  (filter_of_name name_of_mem_pieceIf name).trans (if_pos rfl)

theorem filter_pieceIf_of_ne {name other : Text} (hne : other ≠ name) (condition : Bool)
    (content : Encoder Bytes) :
    (pieceIf condition other content).filter (fun p => p.name = name) = [] :=
  (filter_of_name name_of_mem_pieceIf name).trans (if_neg hne)

theorem filter_pieceOf_of_ne {α : Type} {name other : Text} (hne : other ≠ name)
    (content : α → Encoder Bytes) (value : Option α) :
    (pieceOf? other content value).filter (fun p => p.name = name) = [] := by
  cases value
  · rfl
  · simp [pieceOf?, hne]

variable {m : Method} {owner : Text} {verify stackMaps : Bool}

/-- The attributes of a method whose names are about parameters are those about parameters. -/
theorem filter_methodPieces {name : Text} (hname : name ∈ AttributeName.ofParameters)
    (hraw : ∀ a ∈ m.attributes, a.name ∉ AttributeName.ofParameters) :
    (methodPieces owner verify stackMaps m).filter (fun p => p.name = name) =
      (parameterAnnotationPiece (Flow.Program.placeOf owner m) m true m.visibleCount ++
        parameterAnnotationPiece (Flow.Program.placeOf owner m) m false m.invisibleCount ++
        pieceIf (m.parameterCount.isSome || m.parameters.any isNamed) AttributeName.methodParameters
          (methodParameters (Flow.Program.placeOf owner m) m)).filter fun p => p.name = name := by
  have hother : ∀ other ∈ [AttributeName.code, AttributeName.exceptions, AttributeName.signature,
      AttributeName.annotations true, AttributeName.annotations false, AttributeName.annotationDefault],
      ∀ name ∈ AttributeName.ofParameters, other ≠ name := by decide
  have hrest : (rawPieces m.attributes).filter (fun p => p.name = name) = [] := by
    apply List.filter_eq_nil_iff.2
    intro p hp
    obtain ⟨a, ha, rfl⟩ := List.mem_map.1 hp
    have hne : a.name ≠ name := fun heq => hraw a ha (heq ▸ hname)
    simpa using hne
  have hannotations : (annotationPieces m.annotations).filter (fun p => p.name = name) = [] := by
    unfold annotationPieces
    simp only [List.flatMap_cons, List.flatMap_nil, List.filter_append, List.filter_nil]
    rw [filter_pieceIf_of_ne (hother _ (by simp) name hname),
      filter_pieceIf_of_ne (hother _ (by simp) name hname)]
    rfl
  unfold methodPieces signaturePiece
  simp only [List.filter_append]
  rw [filter_pieceIf_of_ne (hother _ (by simp) name hname),
    filter_pieceIf_of_ne (hother _ (by simp) name hname),
    filter_pieceOf_of_ne (hother _ (by simp) name hname), hannotations,
    filter_pieceOf_of_ne (hother _ (by simp) name hname), hrest]
  simp only [List.nil_append, List.append_nil]

theorem filter_parameterAnnotations (hraw : ∀ a ∈ m.attributes, a.name ∉ AttributeName.ofParameters)
    (visible : Bool) :
    (methodPieces owner verify stackMaps m).filter
        (fun p => p.name = AttributeName.parameterAnnotations visible) =
      parameterAnnotationPiece (Flow.Program.placeOf owner m) m visible (m.annotationCount visible) := by
  rw [filter_methodPieces (by cases visible <;> decide) hraw]
  unfold parameterAnnotationPiece
  simp only [List.filter_append]
  cases visible with
  | true =>
    rw [filter_pieceIf_self, filter_pieceIf_of_ne (by decide), filter_pieceIf_of_ne (by decide),
      List.append_nil, List.append_nil]
    rfl
  | false =>
    rw [filter_pieceIf_of_ne (by decide), filter_pieceIf_self, filter_pieceIf_of_ne (by decide),
      List.nil_append, List.append_nil]
    rfl

theorem filter_methodParameters (hraw : ∀ a ∈ m.attributes, a.name ∉ AttributeName.ofParameters) :
    (methodPieces owner verify stackMaps m).filter
        (fun p => p.name = AttributeName.methodParameters) =
      pieceIf (m.parameterCount.isSome || m.parameters.any isNamed) AttributeName.methodParameters
        (methodParameters (Flow.Program.placeOf owner m) m) := by
  rw [filter_methodPieces (by decide) hraw]
  unfold parameterAnnotationPiece
  simp only [List.filter_append]
  rw [filter_pieceIf_of_ne (by decide), filter_pieceIf_of_ne (by decide), filter_pieceIf_self]
  rfl

variable {place : Text}

/-- A count that is kept where the parameters do not tell is the count of the table. -/
theorem parameterCount_keptCount {count : Nat} {bytes : Bytes} {tells : Bool}
    (hle : count ≤ m.parameters.length) (hbyte : Bytes.unsigned? 1 (count : Nat) = some bytes) :
    parameterCount place m (keptCount m.parameters.length count tells) = .ok count := by
  have hlt : count < 256 := by
    obtain ⟨hlength, hcount⟩ := Bytes.unsigned?_eq_some_iff.1 hbyte
    have hbound := Bytes.toNat_lt bytes
    rw [hlength] at hbound
    omega
  unfold parameterCount keptCount
  by_cases hfull : count = m.parameters.length ∧ tells = true
  · rw [if_pos hfull, hfull.1]
  · rw [if_neg hfull]
    have hfits : (0 : Int) ≤ count ∧ (count : Int) ≤ min m.parameters.length maxByte := by
      unfold maxByte
      omega
    exact if_pos hfits

/-- A table is written if its count is kept or the parameters tell. -/
theorem isSome_keptCount_or (n count : Nat) (tells : Bool) :
    ((keptCount n count tells).isSome || tells) = true := by
  unfold keptCount
  split
  · next h => simp [h.2]
  · rfl

/-- Annotations of parameters are written for those that they cover. -/
theorem fixed_parameterAnnotations {lists : List (List AnnotationUse)} {given : Option Int}
    (h : IsCounted (fun uses part => Fixed P (annotationUses uses) part) m.parameters.length lists data)
    (hlists : m.annotationLists visible =
      List.replicate (m.parameters.length - lists.length) [] ++ lists)
    (hgiven : parameterCount place m given = .ok (lists.length : Int)) :
    Fixed P (parameterAnnotations place m visible given) data := by
  obtain ⟨hle, count, parts, hcount, hparts, rfl⟩ := h
  have hskipped : (m.parameters.take (m.parameters.length - lists.length)).find?
      (isAnnotated visible) = none := by
    apply List.find?_eq_none.2
    intro p hp
    have hmem : ofVisibility visible p.annotations ∈
        (m.annotationLists visible).take (m.parameters.length - lists.length) := by
      rw [Method.annotationLists, ← List.map_take]
      exact List.mem_map_of_mem (f := fun p : Parameter => ofVisibility visible p.annotations) hp
    rw [hlists, List.take_left' (List.length_replicate ..)] at hmem
    simp [isAnnotated, List.eq_of_mem_replicate hmem]
  have hcovered : List.Forall₂
      (fun p part => Fixed P (annotationUses (ofVisibility visible p.annotations)) part)
      (m.parameters.drop (m.parameters.length - lists.length)) parts := by
    have hdrop : (m.parameters.drop (m.parameters.length - lists.length)).map
        (fun p => ofVisibility visible p.annotations) = lists := by
      rw [List.map_drop]
      show (m.annotationLists visible).drop _ = lists
      rw [hlists, List.drop_left' (List.length_replicate ..)]
    rw [← hdrop, List.forall₂_map_left_iff] at hparts
    exact hparts
  unfold parameterAnnotations
  refine Encoder.bind_eq_ok_iff.2 ⟨_, P, lift_eq_ok_iff.2 ⟨hgiven, rfl⟩, ?_⟩
  show Fixed P _ _
  rw [Int.toNat_natCast, hskipped]
  dsimp only
  refine fixed_bind_iff.2 ⟨count, fixed_u1_iff.2 hcount, ?_⟩
  simp only [fixed_bind_iff, fixed_all_iff, fixed_pure_iff]
  exact ⟨parts.flatten, ⟨parts, hcovered, rfl⟩, rfl⟩

/-- Names and flags are written for the parameters that they cover. -/
theorem fixed_methodParameters {named : List (Option Text × Nat)}
    (h : IsCounted (WritesEntry P) m.parameters.length named data)
    (hnamed : m.namesAndFlags = named.map (fun e => (e.1, (e.2 : Int))) ++
      List.replicate (m.parameters.length - named.length) (none, 0))
    (hgiven : parameterCount place m m.parameterCount = .ok (named.length : Int)) :
    Fixed P (methodParameters place m) data := by
  obtain ⟨hle, count, parts, hcount, hparts, rfl⟩ := h
  have hlength : (named.map fun e => (e.1, (e.2 : Int))).length = named.length := List.length_map _
  have hrest : (m.parameters.drop named.length).find? isNamed = none := by
    apply List.find?_eq_none.2
    intro p hp
    have hmem : (p.name, p.access) ∈ m.namesAndFlags.drop named.length := by
      rw [Method.namesAndFlags, ← List.map_drop]
      exact List.mem_map_of_mem (f := fun p : Parameter => (p.name, p.access)) hp
    rw [hnamed, List.drop_left' hlength] at hmem
    obtain ⟨hname, haccess⟩ := Prod.ext_iff.1 (List.eq_of_mem_replicate hmem)
    have hnone : p.name = none := hname
    have hzero : p.access = 0 := haccess
    simp [isNamed, hnone, hzero]
  have hcovered : List.Forall₂ (fun p part => Fixed P (parameter p) part)
      (m.parameters.take named.length) parts := by
    have htake : (m.parameters.take named.length).map (fun p => (p.name, p.access)) =
        named.map fun e => (e.1, (e.2 : Int)) := by
      rw [List.map_take]
      show m.namesAndFlags.take _ = _
      rw [hnamed, List.take_left' hlength]
    have hsame : List.Forall₂ (fun (p : Parameter) e => (p.name, p.access) = (e.1, (e.2 : Int)))
        (m.parameters.take named.length) named := by
      rw [← List.forall₂_map_right_iff (f := fun e : Option Text × Nat => (e.1, (e.2 : Int))),
        ← List.forall₂_map_left_iff (f := fun p : Parameter => (p.name, p.access)), htake,
        List.forall₂_eq_eq_eq]
    exact Result.forall₂_trans hsame hparts fun p _ _ hp he => he p hp
  unfold methodParameters
  refine Encoder.bind_eq_ok_iff.2 ⟨_, P, lift_eq_ok_iff.2 ⟨hgiven, rfl⟩, ?_⟩
  show Fixed P _ _
  rw [Int.toNat_natCast, hrest]
  dsimp only
  refine fixed_bind_iff.2 ⟨count, fixed_u1_iff.2 hcount, ?_⟩
  simp only [fixed_bind_iff, fixed_all_iff, fixed_pure_iff]
  exact ⟨parts.flatten, ⟨parts, hcovered, rfl⟩, rfl⟩

/-- What a method keeps of the annotations of a visibility is written as the attribute that it was
read of, and is not written if there was none. -/
theorem writes_parameterAnnotations {s : ParameterTables} {as : List Attribute}
    (hm : m.HasTables n s) (hs : s.AreWritten P n as) (visible : Bool) :
    List.Forall₂ (fun p (a : Attribute) => Fixed P p.content a.data)
      (parameterAnnotationPiece place m visible (m.annotationCount visible))
      (as.filter fun a => a.name = AttributeName.parameterAnnotations visible) := by
  have hspelled := hs.annotations visible
  have hlists := hm.annotations visible
  have hcount := hm.annotationCount visible
  unfold parameterAnnotationPiece
  rw [Method.any_isAnnotated]
  cases htables : s.annotations visible with
  | none =>
    rw [htables] at hspelled hlists hcount
    have hnone : (m.annotationLists visible).any (!·.isEmpty) = false := by
      rw [hlists, Option.getD_none, List.append_nil, List.any_replicate]
      simp
    rw [hcount, hnone, List.forall₂_nil_left_iff.1 hspelled]
    exact .nil
  | some lists =>
    rw [htables] at hspelled hlists hcount
    obtain ⟨a, rest, hdata, hrest, hfilter⟩ := List.forall₂_cons_left_iff.1 hspelled
    obtain rfl := List.forall₂_nil_left_iff.1 hrest
    rw [Option.getD_some] at hlists
    have hle := hdata.1
    obtain rfl : m.parameters.length = n := by
      rw [← m.length_annotationLists visible, hlists, List.length_append, List.length_replicate]
      omega
    have htells : (m.annotationLists visible).any (!·.isEmpty) = lists.any (!·.isEmpty) := by
      rw [hlists, List.any_append, List.any_replicate]
      simp
    obtain ⟨-, count, -, hbyte, -, -⟩ := id hdata
    rw [hfilter, hcount, htells, Option.bind_some, isSome_keptCount_or]
    refine .cons ?_ .nil
    exact fixed_parameterAnnotations hdata hlists (parameterCount_keptCount hle hbyte)

/-- What a method keeps of names is written as the attribute that it was read of, and is not written
if there was none. -/
theorem writes_methodParameters {s : ParameterTables} {as : List Attribute}
    (hm : m.HasTables n s) (hs : s.AreWritten P n as) :
    List.Forall₂ (fun p (a : Attribute) => Fixed P p.content a.data)
      (pieceIf (m.parameterCount.isSome || m.parameters.any isNamed) AttributeName.methodParameters
        (methodParameters place m))
      (as.filter fun a => a.name = AttributeName.methodParameters) := by
  have hspelled := hs.names
  have hnames := hm.names
  have hcount := hm.nameCount
  rw [Method.any_isNamed]
  cases htables : s.names with
  | none =>
    rw [htables] at hspelled hnames hcount
    have hnone : (m.namesAndFlags.any fun e => e.1.isSome || e.2 ≠ 0) = false := by
      rw [hnames, Option.getD_none, List.map_nil, List.nil_append, List.any_replicate]
      simp
    rw [hcount, hnone, List.forall₂_nil_left_iff.1 hspelled]
    exact .nil
  | some named =>
    rw [htables] at hspelled hnames hcount
    obtain ⟨a, rest, hdata, hrest, hfilter⟩ := List.forall₂_cons_left_iff.1 hspelled
    obtain rfl := List.forall₂_nil_left_iff.1 hrest
    rw [Option.getD_some] at hnames
    have hle := hdata.1
    obtain rfl : m.parameters.length = n := by
      rw [← m.length_namesAndFlags, hnames, List.length_append, List.length_replicate, List.length_map]
      omega
    have htells : (m.namesAndFlags.any fun e => e.1.isSome || e.2 ≠ 0) =
        named.any fun e => e.1.isSome || e.2 ≠ 0 := by
      rw [hnames, List.any_append, List.any_replicate, List.any_map]
      simp [Function.comp_def]
    obtain ⟨-, count, -, hbyte, -, -⟩ := id hdata
    rw [Option.bind_some] at hcount
    rw [hfilter, htells]
    conv => arg 2; rw [hcount, isSome_keptCount_or]
    refine .cons ?_ .nil
    exact fixed_methodParameters hdata hnames (by rw [hcount]; exact parameterCount_keptCount hle hbyte)

/-- The attributes about parameters that a method is written with are those that it was read of. -/
theorem writes_ofParameters {s : ParameterTables} {as : List Attribute} (hm : m.HasTables n s)
    (hraw : ∀ a ∈ m.attributes, a.name ∉ AttributeName.ofParameters)
    (hs : s.AreWritten P n as) {name : Text} (hname : name ∈ AttributeName.ofParameters) :
    List.Forall₂ (fun p (a : Attribute) => Fixed P p.content a.data)
      ((methodPieces owner verify stackMaps m).filter fun p => p.name = name)
      (as.filter fun a => a.name = name) := by
  have hannotations (visible : Bool) : List.Forall₂ (fun p (a : Attribute) => Fixed P p.content a.data)
      (parameterAnnotationPiece (Flow.Program.placeOf owner m) m visible (m.annotationCount visible))
      (as.filter fun a => a.name = AttributeName.parameterAnnotations visible) :=
    writes_parameterAnnotations hm hs visible
  simp only [AttributeName.ofParameters, List.mem_cons, List.not_mem_nil, or_false] at hname
  rcases hname with rfl | rfl | rfl
  · rw [filter_parameterAnnotations hraw]
    exact hannotations true
  · rw [filter_parameterAnnotations hraw]
    exact hannotations false
  · rw [filter_methodParameters hraw]
    exact writes_methodParameters hm hs

/-- Attributes of one name that are written for the same pieces are the same. -/
theorem filter_eq_of_fixed {pieces : List Piece} {as bs : List Attribute} {name : Text}
    (has : List.Forall₂ (fun p (a : Attribute) => Fixed P p.content a.data) pieces
      (as.filter fun a => a.name = name))
    (hbs : List.Forall₂ (fun p (a : Attribute) => Fixed P p.content a.data) pieces
      (bs.filter fun a => a.name = name)) :
    as.filter (fun a => a.name = name) = bs.filter fun a => a.name = name := by
  have hnames (cs : List Attribute) : ∀ a ∈ cs.filter (fun a => a.name = name), a.name = name :=
    fun a ha => by simpa using (List.mem_filter.1 ha).2
  have hsame := Result.forall₂_trans has.flip hbs fun _ _ _ h h' => Fixed.unique h h'
  have heq : List.Forall₂ Eq (as.filter fun a => a.name = name) (bs.filter fun a => a.name = name) := by
    refine List.forall₂_iff_zip.2 ⟨hsame.length_eq, fun {a b} hab => ?_⟩
    obtain ⟨ha, hb⟩ := List.of_mem_zip hab
    have hdata := (List.forall₂_iff_zip.1 hsame).2 hab
    obtain ⟨aName, aData⟩ := a
    obtain ⟨bName, bData⟩ := b
    have hname : aName = bName := (hnames as _ ha).trans (hnames bs _ hb).symm
    exact congr (congrArg Attribute.mk hname) hdata
  rwa [List.forall₂_eq_eq_eq] at heq

end Encoding

/-! ## Class files -/

/-- The pool of an outline is that of the class file. -/
theorem Outline.poolOf_of_ofBytes {bytes : Bytes} {o : Outline} (h : Outline.ofBytes bytes = .ok o) :
    Outline.poolOf bytes = .ok o.table.entries := by
  obtain ⟨c, hread, -⟩ := whole_eq_ok_iff.1 h
  obtain ⟨_, _, ⟨⟩, hread⟩ := Decoder.bind_eq_ok_iff.1 hread
  obtain ⟨found, c₂, hfound, hread⟩ := Decoder.bind_eq_ok_iff.1 hread
  obtain ⟨_, _, ⟨⟩, hread⟩ := Decoder.bind_eq_ok_iff.1 hread
  obtain ⟨_, _, -, hread⟩ := Decoder.bind_eq_ok_iff.1 hread
  obtain ⟨_, _, -, hread⟩ := Decoder.bind_eq_ok_iff.1 hread
  obtain ⟨_, _, -, hread⟩ := Decoder.bind_eq_ok_iff.1 hread
  obtain ⟨_, _, -, hread⟩ := Decoder.bind_eq_ok_iff.1 hread
  obtain ⟨_, _, -, ⟨⟩⟩ := Decoder.bind_eq_ok_iff.1 hread
  have hrun : (do Decoder.skip 8; Table.readPool : Decoder _).run ⟨0, bytes⟩ = .ok (found, c₂) := hfound
  unfold Outline.poolOf
  rw [hrun]
  rfl

/-- The pool of an outline is a seed, and nothing stands at its index zero. -/
theorem Outline.isSeed_of_ofBytes {bytes : Bytes} {o : Outline} (h : Outline.ofBytes bytes = .ok o) :
    Pool.IsSeed o.table.entries.toList ∧ ∀ e, o.table.entries[0]? ≠ some (some e) := by
  obtain ⟨k, hread⟩ := Outline.readPool_of_poolOf (Outline.poolOf_of_ofBytes h)
  have hseed := Pool.isSeed_of_readPool hread
  refine ⟨hseed, fun e he => ?_⟩
  rw [← Array.getElem?_toList] at he
  rcases hseed with hempty | ⟨es, hes, -⟩
  · rw [hempty] at he
    cases he
  · rw [hes] at he
    cases he

/-- What stands at a place in one of two related lists is related to what stands there in the other.
-/
theorem exists_getElem?_of_forall₂ {α β : Type} {R : α → β → Prop} {as : List α} {bs : List β}
    (h : List.Forall₂ R as bs) {k : Nat} {a : α} (ha : as[k]? = some a) :
    ∃ b, bs[k]? = some b ∧ R a b := by
  obtain ⟨hk, rfl⟩ := List.getElem?_eq_some_iff.1 ha
  have hk' : k < bs.length := h.length_eq ▸ hk
  exact ⟨bs[k], List.getElem?_eq_getElem hk', h.get hk hk'⟩

/-- Each attribute about parameters is read, whatever has been read before, and there are as many
parameters as before. -/
theorem Decoding.exists_whole_of_areSpelled {as : List Attribute} {s : ParameterTables}
    (hzero : ∀ e, t.entries[0]? ≠ some (some e)) {m : Method}
    (hs : s.AreSpelled t.entries m.parameters.length as) {a : Attribute} (ha : a ∈ as)
    (hname : a.name ∈ AttributeName.ofParameters) :
    ∃ m', Outline.whole (readMethodAttribute t a.name a.data.length m) a.data = .ok m' ∧
      m'.parameters.length = m.parameters.length := by
  have hmem {name : Text} (h : a.name = name) : a ∈ as.filter fun a => a.name = name :=
    List.mem_filter.2 ⟨ha, by simpa using h⟩
  have hannotations {visible : Bool} (h : a.name = AttributeName.parameterAnnotations visible) :
      ∃ m', Outline.whole (readMethodAttribute t a.name a.data.length m) a.data = .ok m' := by
    obtain ⟨lists, -, hlists⟩ := Result.exists_of_mem_right (hs.annotations visible) (hmem h)
    rw [h]
    exact ⟨_, Outline.whole_eq_ok (reads_parameterAnnotations hlists.readsUses _)⟩
  have hread : ∃ m', Outline.whole (readMethodAttribute t a.name a.data.length m) a.data = .ok m' := by
    simp only [AttributeName.ofParameters, List.mem_cons, List.not_mem_nil, or_false] at hname
    rcases hname with h | h | h
    · exact hannotations h
    · exact hannotations h
    · obtain ⟨named, -, hnamed⟩ := Result.exists_of_mem_right hs.names (hmem h)
      rw [h]
      exact ⟨_, Outline.whole_eq_ok (reads_methodParameters (hnamed.readsEntry hzero) _)⟩
  obtain ⟨m', hm'⟩ := hread
  exact ⟨m', hm', (spares_of_whole hm').length_parameters⟩

/-- The method of a class that has been read has what its attributes about parameters say, and none
of them among its raw attributes. -/
theorem MemberOutline.IsReadAsMethod.hasTables {o : MemberOutline} {m : Method} {types : List Text}
    {s : ParameterTables} (h : o.IsReadAsMethod t m)
    (htypes : Descriptor.arguments o.descriptor = .ok types)
    (hzero : ∀ e, t.entries[0]? ≠ some (some e))
    (hs : s.AreSpelled t.entries types.length o.attributes) :
    m.HasTables types.length s ∧ ∀ a ∈ m.attributes, a.name ∉ AttributeName.ofParameters := by
  obtain ⟨types', htypes', hall⟩ := h.attributes
  rw [htypes] at htypes'
  cases htypes'
  refine ⟨hasTables_of_readAll (hs.areRead hzero) (hasTables_head o types) hall, raw_of_readAll hall ?_⟩
  simp [MemberOutline.head]

theorem AttributeName.isPlain_of_mem_ofParameters {name : Text} (h : name ∈ ofParameters) :
    ModifiedUtf8.IsPlain name := by
  apply AttributeName.isPlain_of_mem
  revert name
  decide

/-- Attributes about parameters are written as they were read, for any pool in which no two entries
are equal. Each of them is read, whatever has been read before; the method that is read has the
annotations for its last parameters and the names for its first ones; and each of them is written
with the bytes that it was read of, and none that was not there, whatever else has been written
before. -/
theorem Class.keeps_parameterAttributes {file : Bytes} {o : Outline}
    (ho : Outline.ofBytes file = .ok o) (hdistinct : (o.table.entries.toList.filterMap id).Nodup)
    {k : Nat} {member : MemberOutline} (hk : o.methods[k]? = some member) {types : List Text}
    (htypes : Descriptor.arguments member.descriptor = .ok types) {s : ParameterTables}
    (hs : s.AreSpelled o.table.entries types.length member.attributes) :
    (∀ a ∈ member.attributes, a.name ∈ AttributeName.ofParameters → ∀ bootstrap (m : Method),
      m.parameters.length = types.length → ∃ m', Outline.whole
        (readMethodAttribute { o.table with bootstrap } a.name a.data.length m) a.data = .ok m' ∧
          m'.parameters.length = types.length) ∧
    ∀ c, Class.ofBytes file = .ok c → ∃ m, c.methods[k]? = some m ∧ m.HasTables types.length s ∧
      (∀ P, (Pool.seeded c.layout.pool c.layout.bootstrap).Within P → ∀ owner verify stackMaps,
        ∀ name ∈ AttributeName.ofParameters,
          List.Forall₂ (fun p (a : Attribute) => Fixed P p.content a.data)
            ((methodPieces owner verify stackMaps m).filter fun p => p.name = name)
            (member.attributes.filter fun a => a.name = name)) ∧
      ∀ verify written, c.toBytes verify = .ok written → ∃ o' member',
        Outline.ofBytes written = .ok o' ∧ o'.methods[k]? = some member' ∧
          ∀ name ∈ AttributeName.ofParameters,
            member'.attributes.filter (fun a => a.name = name) =
              member.attributes.filter fun a => a.name = name := by
  obtain ⟨hseed, hzero⟩ := Outline.isSeed_of_ofBytes ho
  refine ⟨fun a ha hname bootstrap m hm => ?_, fun c hread => ?_⟩
  · rw [← hm] at hs ⊢
    exact exists_whole_of_areSpelled (t := { o.table with bootstrap }) hzero hs ha hname
  · obtain ⟨o₁, ho₁, t, hparts⟩ := Class.exists_isReadAs_of_ofBytes hread
    obtain rfl : o = o₁ := by
      rw [ho] at ho₁
      cases ho₁
      rfl
    have hentries : t.entries = o.table.entries := by rw [hparts.table]
    obtain ⟨m, hm, hmember⟩ := exists_getElem?_of_forall₂ hparts.methods hk
    obtain ⟨htables, hraw⟩ := hmember.hasTables htypes (hentries ▸ hzero) (hentries ▸ hs)
    have hpool : c.layout.pool = o.table.entries.toList := by
      obtain ⟨entries, hfound, heq⟩ := exists_poolOf_of_ofBytes hread
      rw [Outline.poolOf_of_ofBytes ho] at hfound
      cases hfound
      exact heq
    have hlocates {P : Pool} (h : (Pool.seeded c.layout.pool c.layout.bootstrap).Within P) :
        P.Locates o.table.entries := by
      rw [hpool] at h
      exact (Pool.locates_seeded hseed hdistinct _).of_within h
    refine ⟨m, hm, htables, fun P hP owner verify stackMaps name hname =>
      writes_ofParameters htables hraw (hs.areWritten (hlocates hP)) hname,
      fun verify written hwrite => ?_⟩
    obtain ⟨w⟩ := written_of_toBytes hwrite
    obtain ⟨o', ho', hshown⟩ := w.exists_outline (hpool ▸ hseed)
    obtain ⟨member', hmember', hshows⟩ := exists_getElem?_of_forall₂ hshown.methods hm
    refine ⟨o', member', ho', hmember', fun name hname => ?_⟩
    obtain ⟨as, hwrites, has⟩ := hshows.attributes
    rw [has]
    exact filter_eq_of_fixed
      (forall₂_filter_named (AttributeName.isPlain_of_mem_ofParameters hname) hwrites)
      (writes_ofParameters htables hraw (hs.areWritten (hlocates w.grows.within)) hname)

/-! ## A method with two of the attributes -/

/-- The class file of an abstract method with two parameters, of which the last one has an
annotation and the first one a name. -/
def coveredFile : Bytes :=
  [202, 254, 186, 190, 0, 0, 0, 52, 0, 11, 1, 0, 1, 65, 7, 0, 1, 1, 0, 1, 102, 1, 0, 5, 40, 73, 74, 41,
    86, 1, 0, 34, 82, 117, 110, 116, 105, 109, 101, 86, 105, 115, 105, 98, 108, 101, 80, 97, 114, 97, 109,
    101, 116, 101, 114, 65, 110, 110, 111, 116, 97, 116, 105, 111, 110, 115, 1, 0, 16, 77, 101, 116, 104,
    111, 100, 80, 97, 114, 97, 109, 101, 116, 101, 114, 115, 1, 0, 3, 76, 88, 59, 1, 0, 1, 112, 1, 0, 1,
    118, 3, 0, 0, 0, 7, 4, 33, 0, 2, 0, 0, 0, 0, 0, 0, 0, 1, 4, 1, 0, 3, 0, 4, 0, 2, 0, 5, 0, 0, 0, 14, 2,
    0, 0, 0, 1, 0, 7, 0, 1, 0, 9, 73, 0, 10, 0, 6, 0, 0, 0, 5, 1, 0, 8, 0, 16, 0, 0]

/-- Its pool. -/
def coveredTable : Table where
  entries := #[none, some (.utf8 "A"), some (.type 1), some (.utf8 "f"), some (.utf8 "(IJ)V"),
    some (.utf8 "RuntimeVisibleParameterAnnotations"), some (.utf8 "MethodParameters"),
    some (.utf8 "LX;"), some (.utf8 "p"), some (.utf8 "v"), some (.integer 7)]
  bootstrap := #[]

/-- The method by its parts. -/
def coveredMember : MemberOutline where
  access := 0x401
  name := "f"
  descriptor := "(IJ)V"
  attributes := [
    ⟨"RuntimeVisibleParameterAnnotations", [2, 0, 0, 0, 1, 0, 7, 0, 1, 0, 9, 73, 0, 10]⟩,
    ⟨"MethodParameters", [1, 0, 8, 0, 16]⟩]

/-- What the attributes say. -/
def coveredTables : ParameterTables where
  annotations visible := if visible then some [[],
    [⟨"LX;", true, [("v", .scalar .int (.int 7))]⟩]] else none
  names := some [(some "p", 16)]

/-- The method. -/
def coveredMethod : Method where
  access := 0x401
  name := "f"
  descriptor := "(IJ)V"
  parameters := [{ index := 0, descriptor := "I", name := some "p", access := 16 },
    { index := 1, descriptor := "J", annotations := [⟨"LX;", true, [("v", .scalar .int (.int 7))]⟩] }]
  parameterCount := some 1
  layout := { attributeOrder := ["RuntimeVisibleParameterAnnotations", "MethodParameters"] }

/-- Its class. -/
def coveredClass : Class where
  name := "A"
  access := 0x421
  super := none
  methods := [coveredMethod]
  layout := { pool := coveredTable.entries.toList }

theorem isCounted_coveredLists : IsCounted (AnnotationUse.AreSpelled coveredTable.entries true) 2
    [[], [⟨"LX;", true, [("v", .scalar .int (.int 7))]⟩]]
    [2, 0, 0, 0, 1, 0, 7, 0, 1, 0, 9, 73, 0, 10] := by
  refine ⟨by decide, [2], [[0, 0], [0, 1, 0, 7, 0, 1, 0, 9, 73, 0, 10]], by decide, ?_, rfl⟩
  refine .cons ⟨[0, 0], [], by decide, .nil, rfl⟩ (.cons ?_ .nil)
  refine ⟨[0, 1], [[0, 7, 0, 1, 0, 9, 73, 0, 10]], by decide, .cons ⟨rfl, ?_⟩ .nil, rfl⟩
  refine ⟨[0, 7], [0, 1], [[0, 9, 73, 0, 10]], ⟨7, rfl, by decide⟩, by decide, ?_, rfl⟩
  refine ⟨[0, 9], [73, 0, 10], [], ⟨9, rfl, by decide⟩, ?_, rfl, rfl⟩
  exact ⟨73, .integer 7, [0, 10], rfl, .integer (by decide) 7, ⟨10, rfl, by decide⟩, rfl⟩

theorem isCounted_coveredNames : IsCounted (SpellsEntry coveredTable.entries) 2 [(some "p", 16)]
    [1, 0, 8, 0, 16] := by
  refine ⟨by decide, [1], [[0, 8, 0, 16]], by decide, .cons ?_ .nil, rfl⟩
  exact ⟨[0, 8], [0, 16], ⟨8, rfl, by decide⟩, by decide, rfl⟩

theorem areSpelled_coveredTables :
    coveredTables.AreSpelled coveredTable.entries 2 coveredMember.attributes where
  annotations visible := by
    cases visible with
    | false => exact .nil
    | true => exact .cons isCounted_coveredLists .nil
  names := .cons isCounted_coveredNames .nil

theorem ofBytes_outline_coveredFile :
    Outline.ofBytes coveredFile = .ok ⟨coveredTable, [], [coveredMember], []⟩ := by cbv

namespace Decoding

theorem length_coveredFile : coveredFile.length = 157 := by cbv

/-- The attributes of the method are read. -/
theorem attributes_coveredFile : attributes coveredTable (readMethodAttribute coveredTable)
    (coveredMember.head ["I", "J"]) ⟨122, coveredFile.drop 122⟩ =
      .ok (coveredMethod, ⟨155, coveredFile.drop 155⟩) := by
  let one : Method := { coveredMember.head ["I", "J"] with
    parameters := [{ index := 0, descriptor := "I" },
      { index := 1, descriptor := "J", annotations := [⟨"LX;", true, [("v", .scalar .int (.int 7))]⟩] }]
    layout := { attributeOrder := ["RuntimeVisibleParameterAnnotations"] } }
  have hfirst : IsAttributeAt coveredTable coveredFile 124 14 (AttributeName.parameterAnnotations true) :=
    ⟨⟨5, by cbv, rfl⟩, by cbv, by simp [length_coveredFile]⟩
  have hsecond : IsAttributeAt coveredTable coveredFile 144 5 AttributeName.methodParameters :=
    ⟨⟨6, by cbv, rfl⟩, by cbv, by simp [length_coveredFile]⟩
  have hempty : ∀ e, coveredTable.entries[0]? ≠ some (some e) := by
    rintro e ⟨⟩
  have hannotations := reads_parameterAnnotations (t := coveredTable)
    (m := coveredMember.head ["I", "J"]) isCounted_coveredLists.readsUses 14
  have hnames := reads_methodParameters (t := coveredTable) (m := one)
    (isCounted_coveredNames.readsEntry hempty) 5
  refine Decoder.bind_eq_ok_iff.2 ⟨2, ⟨124, coveredFile.drop 124⟩, by cbv, ?_⟩
  refine Decoder.bind_eq_ok_iff.2 ⟨one, ⟨144, coveredFile.drop 144⟩, hfirst.attribute_eq_ok ?_, ?_⟩
  · exact hannotations 130 (coveredFile.drop 144)
  · refine Decoder.bind_eq_ok_iff.2
      ⟨coveredMethod, ⟨155, coveredFile.drop 155⟩, hsecond.attribute_eq_ok ?_, rfl⟩
    exact hnames 150 (coveredFile.drop 155)

theorem readMethod_coveredFile : readMethod coveredTable ⟨116, coveredFile.drop 116⟩ =
    .ok (coveredMethod, ⟨155, coveredFile.drop 155⟩) := by
  have harguments : Descriptor.arguments "(IJ)V" = .ok ["I", "J"] := by cbv
  refine Decoder.bind_eq_ok_iff.2 ⟨0x401, ⟨118, coveredFile.drop 118⟩, by cbv, ?_⟩
  refine Decoder.bind_eq_ok_iff.2 ⟨3, ⟨120, coveredFile.drop 120⟩, by cbv, ?_⟩
  refine Decoder.bind_eq_ok_iff.2 ⟨"f", ⟨120, coveredFile.drop 120⟩, by cbv, ?_⟩
  refine Decoder.bind_eq_ok_iff.2 ⟨4, ⟨122, coveredFile.drop 122⟩, by cbv, ?_⟩
  refine Decoder.bind_eq_ok_iff.2 ⟨"(IJ)V", ⟨122, coveredFile.drop 122⟩, by cbv, ?_⟩
  rw [harguments]
  exact attributes_coveredFile

theorem readTable_coveredFile :
    readTable ⟨8, coveredFile.drop 8⟩ = .ok (coveredTable, ⟨104, coveredFile.drop 104⟩) := by
  have hscan : scanBootstrap coveredTable ⟨104, coveredFile.drop 104⟩ = .ok ([], ⟨157, []⟩) := by cbv
  exact readTable_eq_ok (by cbv) hscan

end Decoding

theorem Class.ofBytes_coveredFile : Class.ofBytes coveredFile = .ok coveredClass := by
  have hread : readClassFile ⟨0, coveredFile⟩ = .ok (coveredClass, ⟨157, []⟩) := by
    unfold readClassFile
    refine Decoder.bind_eq_ok_iff.2 ⟨(52, 0), ⟨8, coveredFile.drop 8⟩, by cbv, ?_⟩
    refine Decoder.bind_eq_ok_iff.2 ⟨_, _, readTable_coveredFile, ?_⟩
    refine Decoder.bind_eq_ok_iff.2 ⟨0x421, ⟨106, coveredFile.drop 106⟩, by cbv, ?_⟩
    refine Decoder.bind_eq_ok_iff.2 ⟨"A", ⟨108, coveredFile.drop 108⟩, by cbv, ?_⟩
    refine Decoder.bind_eq_ok_iff.2 ⟨0, ⟨110, coveredFile.drop 110⟩, by cbv, ?_⟩
    refine Decoder.bind_eq_ok_iff.2 ⟨none, ⟨110, coveredFile.drop 110⟩, by cbv, ?_⟩
    refine Decoder.bind_eq_ok_iff.2 ⟨[], ⟨112, coveredFile.drop 112⟩, by cbv, ?_⟩
    refine Decoder.bind_eq_ok_iff.2 ⟨[], ⟨114, coveredFile.drop 114⟩, by cbv, ?_⟩
    refine Decoder.bind_eq_ok_iff.2 ⟨[coveredMethod], ⟨155, coveredFile.drop 155⟩, ?_, by cbv⟩
    refine Decoder.bind_eq_ok_iff.2 ⟨1, ⟨116, coveredFile.drop 116⟩, by cbv, ?_⟩
    exact Decoder.bind_eq_ok_iff.2 ⟨coveredMethod, _, readMethod_coveredFile, rfl⟩
  unfold Class.ofBytes StateT.run
  rw [hread]

theorem Class.toBytes_coveredClass : coveredClass.toBytes true = .ok coveredFile := by
  have hrun : ∃ P, (classFile true coveredClass).run
      (Pool.seeded coveredClass.layout.pool coveredClass.layout.bootstrap) = .ok (coveredFile, P) :=
    ⟨_, by cbv⟩
  obtain ⟨P, hrun⟩ := hrun
  exact toBytes_eq_ok hrun

/-- The annotation belongs to the last parameter and the name to the first one; both attributes are
read, kept and written. -/
theorem Class.keeps_coveredTables :
    (∃ a ∈ coveredMember.attributes, a.name ∈ AttributeName.ofParameters) ∧
    Class.ofBytes coveredFile = .ok coveredClass ∧ coveredClass.methods[0]? = some coveredMethod ∧
    coveredMethod.HasTables 2 coveredTables ∧
    ∃ written o' member', coveredClass.toBytes true = .ok written ∧ Outline.ofBytes written = .ok o' ∧
      o'.methods[0]? = some member' ∧ ∀ name ∈ AttributeName.ofParameters,
        member'.attributes.filter (fun a => a.name = name) =
          coveredMember.attributes.filter fun a => a.name = name := by
  have harguments : Descriptor.arguments coveredMember.descriptor = .ok ["I", "J"] := by cbv
  have hmember : ([coveredMember] : List MemberOutline)[0]? = some coveredMember := rfl
  obtain ⟨-, hkeeps⟩ := Class.keeps_parameterAttributes ofBytes_outline_coveredFile (by decide) hmember
    harguments areSpelled_coveredTables
  obtain ⟨m, hm, htables, -, hwritten⟩ := hkeeps coveredClass Class.ofBytes_coveredFile
  cases hm
  obtain ⟨o', member', ho', hmember', hsame⟩ := hwritten true coveredFile Class.toBytes_coveredClass
  exact ⟨⟨_, List.mem_cons_self, by decide⟩, Class.ofBytes_coveredFile, rfl, htables, _, o', member',
    Class.toBytes_coveredClass, ho', hmember', hsame⟩

end ClassTree
