/-
# ClassTree.Proofs.LocalVariables — local variables that are read and written

The local variables of a method are kept in one list, although a class file has two tables for them:
one with their descriptors and one with their generic signatures. Reading joins the two tables, and
nothing keeps what order the signatures were in. What is left of them is at most one for each
variable, in the order in which the variables are described; those of other variables come last. So
a table of signatures comes back as it was just if it is of that form.

Writing takes the two tables apart again. If the instructions keep their lengths, the entries of the
first table all come back, in their order, and those of the second one in the order of the first.
-/
import ClassTree.Proofs.Decoding.DrawnCode
import ClassTree.Proofs.Decoding.Labels
import ClassTree.Proofs.Encoding.CodeTables

namespace ClassTree.Decoding

/-- What makes two entries be about the same variable. -/
def RawVariable.key (v : RawVariable) : Nat × Nat × Nat × Text := (v.start, v.length, v.slot, v.name)

theorem RawVariable.sameVariable_eq (v w : RawVariable) : v.sameVariable w = decide (v.key = w.key) := by
  rw [Bool.eq_iff_iff]
  simp [sameVariable, key, and_assoc]

/-- Where a variable is described for the first time, if it is. -/
def placeAmong (described : List RawVariable) (v : RawVariable) : Nat :=
  described.findIdx v.sameVariable

/-- Signatures in the order in which the variables are described. -/
def groupSignatures : List RawVariable → List RawVariable → List RawVariable
  | [], signatures => signatures
  | v :: described, signatures =>
    signatures.filter v.sameVariable ++
      groupSignatures described (signatures.filter fun w => !v.sameVariable w)

/-- What is left of signatures: the last one for each variable. -/
def keptSignatures (described signatures : List RawVariable) : List RawVariable :=
  groupSignatures described (signatures.foldl putSignature [])

/-! ## One signature for each variable -/

/-- A signature takes the place of an earlier one for the same variable, or the last place. -/
theorem map_key_putSignature (signatures : List RawVariable) (v : RawVariable) :
    (putSignature signatures v).map RawVariable.key =
      if v.key ∈ signatures.map RawVariable.key then signatures.map RawVariable.key
      else signatures.map RawVariable.key ++ [v.key] := by
  have hany : (signatures.any v.sameVariable = true) ↔ v.key ∈ signatures.map RawVariable.key := by
    simp only [List.any_eq_true, RawVariable.sameVariable_eq, decide_eq_true_eq, List.mem_map]
    exact exists_congr fun w => and_congr_right fun _ => eq_comm
  unfold putSignature
  by_cases h : v.key ∈ signatures.map RawVariable.key
  · rw [if_pos (hany.2 h), if_pos h, List.map_map]
    refine List.map_congr_left fun w _ => ?_
    by_cases heq : v.key = w.key <;> simp [RawVariable.sameVariable_eq, heq]
  · rw [if_neg fun hmem => h (hany.1 hmem), if_neg h, List.map_append]
    rfl

/-- No two of the signatures that are left are for one variable. -/
theorem nodup_foldl_putSignature (more : List RawVariable) {signatures : List RawVariable}
    (h : (signatures.map RawVariable.key).Nodup) :
    ((more.foldl putSignature signatures).map RawVariable.key).Nodup := by
  induction more generalizing signatures with
  | nil => exact h
  | cons v more ih =>
    refine ih ?_
    rw [map_key_putSignature]
    split
    · exact h
    · next hnot => exact List.nodup_append.2 ⟨h, by simp, by grind⟩

/-- If no two signatures are for one variable all of them are left. -/
theorem foldl_putSignature_eq {more signatures : List RawVariable}
    (h : ((signatures ++ more).map RawVariable.key).Nodup) :
    more.foldl putSignature signatures = signatures ++ more := by
  induction more generalizing signatures with
  | nil => exact (List.append_nil _).symm
  | cons v more ih =>
    have hput : putSignature signatures v = signatures ++ [v] := by
      unfold putSignature
      rw [if_neg]
      simp only [RawVariable.sameVariable_eq, List.any_eq_true, decide_eq_true_eq]
      rintro ⟨w, hw, heq⟩
      rw [List.map_append, List.nodup_append] at h
      exact h.2.2 _ (List.mem_map_of_mem hw) v.key (by simp) heq.symm
    rw [List.foldl_cons, hput, ih (by rwa [← List.append_cons]), ← List.append_cons]

/-! ## Their order -/

theorem groupSignatures_perm (described signatures : List RawVariable) :
    (groupSignatures described signatures).Perm signatures := by
  induction described generalizing signatures with
  | nil => exact .refl _
  | cons v described ih =>
    exact (List.Perm.append_left _ (ih _)).trans (List.filter_append_perm _ _)

/-- The place of a variable behind the first one. -/
theorem placeAmong_cons (v : RawVariable) (described : List RawVariable) (w : RawVariable) :
    placeAmong (v :: described) w = if v.sameVariable w then 0 else placeAmong described w + 1 := by
  have hcomm : w.sameVariable v = v.sameVariable w := by
    rw [RawVariable.sameVariable_eq, RawVariable.sameVariable_eq]
    exact decide_eq_decide.2 eq_comm
  unfold placeAmong
  rw [List.findIdx_cons, hcomm]
  cases v.sameVariable w <;> rfl

/-- Grouped signatures are in the order of the variables. -/
theorem pairwise_groupSignatures (described signatures : List RawVariable) :
    (groupSignatures described signatures).Pairwise fun v w =>
      placeAmong described v ≤ placeAmong described w := by
  induction described generalizing signatures with
  | nil => exact List.pairwise_of_forall fun _ _ => Nat.le_refl 0
  | cons v described ih =>
    -- the signatures of the first variable are at place zero, all others behind it
    have hfirst {w : RawVariable} (hw : w ∈ signatures.filter v.sameVariable) :
        placeAmong (v :: described) w = 0 := by
      rw [placeAmong_cons, if_pos (List.mem_filter.1 hw).2]
    refine List.pairwise_append.2 ⟨?_, ?_, fun w hw _ _ => by rw [hfirst hw]; exact Nat.zero_le _⟩
    · refine List.pairwise_of_forall_mem_list fun w hw _ _ => ?_
      rw [hfirst hw]
      exact Nat.zero_le _
    · refine (ih _).imp_of_mem fun {w u} hw hu hle => ?_
      have hother {w : RawVariable}
          (hw : w ∈ groupSignatures described (signatures.filter fun w => !v.sameVariable w)) :
          ¬ v.sameVariable w = true := by
        simpa using (List.mem_filter.1 ((groupSignatures_perm _ _).subset hw)).2
      rw [placeAmong_cons, placeAmong_cons, if_neg (hother hw), if_neg (hother hu)]
      omega

/-- What comes first by its place comes first in a list that is in order. -/
theorem filter_append_filter_eq {α : Type} {place : α → Nat} {first : α → Bool}
    (hfirst : ∀ a, first a = true ↔ place a = 0) {as : List α}
    (h : as.Pairwise fun a b => place a ≤ place b) :
    as.filter first ++ as.filter (fun a => !first a) = as := by
  induction as with
  | nil => rfl
  | cons a as ih =>
    obtain ⟨hle, hrest⟩ := List.pairwise_cons.1 h
    cases ha : first a with
    | true => simpa [List.filter_cons, ha] using ih hrest
    | false =>
      have hnone : as.filter first = [] := by
        rw [List.filter_eq_nil_iff]
        intro b hb hb'
        have hzero := (hfirst b).1 hb'
        have hpos : ¬ place a = 0 := fun hzero => by simp [(hfirst a).2 hzero] at ha
        have := hle b hb
        omega
      have := ih hrest
      rw [hnone, List.nil_append] at this
      simp [ha, hnone, this]

/-- Signatures in the order of the variables stay as they are. -/
theorem groupSignatures_eq {described signatures : List RawVariable}
    (h : signatures.Pairwise fun v w => placeAmong described v ≤ placeAmong described w) :
    groupSignatures described signatures = signatures := by
  induction described generalizing signatures with
  | nil => rfl
  | cons v described ih =>
    have hplace (w : RawVariable) : v.sameVariable w = true ↔ placeAmong (v :: described) w = 0 := by
      rw [placeAmong_cons]
      split <;> simp [*]
    have hrest : (signatures.filter fun w => !v.sameVariable w).Pairwise fun w u =>
        placeAmong described w ≤ placeAmong described u := by
      refine (h.sublist List.filter_sublist).imp_of_mem fun {w u} hw hu hle => ?_
      have hother {w : RawVariable} (hw : w ∈ signatures.filter fun w => !v.sameVariable w) :
          ¬ v.sameVariable w = true := by simpa using (List.mem_filter.1 hw).2
      rw [placeAmong_cons, placeAmong_cons, if_neg (hother hw), if_neg (hother hu)] at hle
      omega
    rw [groupSignatures, ih hrest, filter_append_filter_eq hplace h]

/-- Signatures come back as they were just if no two are for one variable and all are in the order
of the variables. -/
theorem keptSignatures_eq_iff (described signatures : List RawVariable) :
    keptSignatures described signatures = signatures ↔ (signatures.map RawVariable.key).Nodup ∧
      signatures.Pairwise fun v w => placeAmong described v ≤ placeAmong described w := by
  unfold keptSignatures
  constructor
  · intro h
    have hperm := (groupSignatures_perm described (signatures.foldl putSignature [])).map RawVariable.key
    rw [h] at hperm
    refine ⟨hperm.symm.nodup (nodup_foldl_putSignature signatures List.nodup_nil), ?_⟩
    rw [← h]
    exact pairwise_groupSignatures _ _
  · rintro ⟨hnodup, horder⟩
    have hall : signatures.foldl putSignature [] = signatures := foldl_putSignature_eq hnodup
    rw [hall, groupSignatures_eq horder]

/-! ## Variables that have been joined -/

/-- The entries of those joined variables that have a type of some sort. -/
def typedEntries (typeOf : JoinedVariable → Option Text) (vs : List JoinedVariable) : List RawVariable :=
  vs.filterMap fun v => (typeOf v).map fun type => { v.variable_ with descriptor := type }

theorem typedEntries_cons (typeOf : JoinedVariable → Option Text) (v : JoinedVariable)
    (vs : List JoinedVariable) : typedEntries typeOf (v :: vs) =
      (typeOf v).toList.map (fun type => { v.variable_ with descriptor := type }) ++
        typedEntries typeOf vs := by
  unfold typedEntries
  rw [List.filterMap_cons]
  cases typeOf v <;> rfl

/-- The variables that are described come back as they were. -/
theorem typedEntries_descriptor (described signatures : List RawVariable) :
    typedEntries JoinedVariable.descriptor (joinVariables described signatures) = described := by
  induction described generalizing signatures with
  | nil => simp [typedEntries, joinVariables]
  | cons v described ih =>
    rw [joinVariables, typedEntries_cons, ih]
    rfl

theorem filter_sameVariable {signatures : List RawVariable} (h : (signatures.map RawVariable.key).Nodup)
    (v : RawVariable) :
    signatures.filter v.sameVariable = (signatures.find? v.sameVariable).toList := by
  induction signatures with
  | nil => rfl
  | cons w signatures ih =>
    obtain ⟨hnot, h⟩ := List.nodup_cons.1 h
    rw [List.find?_cons, List.filter_cons]
    cases hsame : v.sameVariable w with
    | false => exact ih h
    | true =>
      have hnone : signatures.filter v.sameVariable = [] := by
        rw [List.filter_eq_nil_iff]
        intro u hu hu'
        rw [RawVariable.sameVariable_eq, decide_eq_true_eq] at hsame hu'
        exact hnot (List.mem_map.2 ⟨u, hu, hu'.symm.trans hsame⟩)
      rw [hnone]
      rfl

/-- The signature of a variable is that of its entry. -/
theorem toList_takeSignature {signatures : List RawVariable}
    (h : (signatures.map RawVariable.key).Nodup) (v : RawVariable) :
    (takeSignature signatures v).1.toList.map (fun type => { v with descriptor := type }) =
      signatures.filter v.sameVariable := by
  rw [filter_sameVariable h]
  unfold takeSignature
  split
  · next w hfound =>
    have hsame : v.start = w.start ∧ v.length = w.length ∧ v.slot = w.slot ∧ v.name = w.name := by
      simpa [RawVariable.sameVariable_eq, RawVariable.key] using List.find?_some hfound
    obtain ⟨hstart, hlength, hslot, hname⟩ := hsame
    rw [hfound, hstart, hlength, hslot, hname]
    rfl
  · next hnone =>
    rw [hnone]
    rfl

/-- What is left of the signatures behind that of a variable. -/
theorem takeSignature_snd (signatures : List RawVariable) (v : RawVariable) :
    (takeSignature signatures v).2 = signatures.filter fun w => !v.sameVariable w := by
  unfold takeSignature
  split
  · rfl
  · next hnone =>
    exact (List.filter_eq_self.2 fun w hw => by simpa using List.find?_eq_none.1 hnone w hw).symm

theorem typedEntries_signature (described : List RawVariable) {signatures : List RawVariable}
    (h : (signatures.map RawVariable.key).Nodup) :
    typedEntries JoinedVariable.signature (joinVariables described signatures) =
      groupSignatures described signatures := by
  induction described generalizing signatures with
  | nil => simp [typedEntries, joinVariables, groupSignatures]
  | cons v described ih =>
    rw [joinVariables, typedEntries_cons, toList_takeSignature h, takeSignature_snd, groupSignatures]
    rw [ih (h.sublist (List.Sublist.map _ List.filter_sublist))]

end ClassTree.Decoding

namespace ClassTree

open Decoding Encoding Encoder
open ModifiedUtf8 (stored IsPlain isPlain_ofString)

/-- The tables of local variables that some code has: those with descriptors and those with generic
signatures. -/
structure CodeOutline.HasVariables (code : CodeOutline) (t : Table)
    (described signatures : List (List RawVariable)) : Prop where
  described : Attribute.tables code.attributes AttributeName.localVariables
    (Decoder.listOf (readVariable t)) = described.map .ok
  signatures : Attribute.tables code.attributes AttributeName.localVariableTypes
    (Decoder.listOf (readVariable t)) = signatures.map .ok

variable {P : Pool} {t : Table}

/-! ## Entries of a class file -/

/-- The texts of entries that have been read are stored as they are. -/
theorem Attribute.isWhole_of_tables (ht : t.IsReadable) {as : List Attribute} {name : Text}
    {tables : List (List RawVariable)}
    (h : Attribute.tables as name (Decoder.listOf (readVariable t)) = tables.map .ok) :
    ∀ v ∈ tables.flatten, v.IsWhole := by
  intro v hv
  obtain ⟨table, htable, hv⟩ := List.mem_flatten.1 hv
  have hmem : Except.ok table ∈ Attribute.tables as name (Decoder.listOf (readVariable t)) :=
    h ▸ List.mem_map_of_mem htable
  obtain ⟨a, -, ha⟩ := List.mem_map.1 hmem
  obtain ⟨c, hread, -⟩ := whole_eq_ok_iff.1 ha
  have hdrawn := ((Finds.all_listOf (finds_drawn_readVariable ht)).of_eq_ok hread).2 v hv
  exact ⟨hdrawn.name.isWhole, hdrawn.descriptor.isWhole⟩

/-! ## Written entries -/

namespace Decoding.RawCode

variable {r : RawCode} {seen : List (Int × Label)} {l : LabelledCode} {code : Code} {layout : Layout}

/-- The variables of a sort stand for the entries that they were joined from. -/
theorem Assembles.forall₂_standsFor (h : r.Assembles seen l code)
    (hr : InOrder r.length r.instructions) (hstart : startOf r.length r.instructions = 0)
    (hl : Fixed P (Layout.of code.body) layout)
    (hkept : layout.lengthsFrom 0 code.body = r.lengths) {typeOf : LocalVariable → Option Text}
    {typeOf' : JoinedVariable → Option Text}
    (htype : ∀ j v, JoinedVariable.Matches (Known seen) j v → typeOf' j = typeOf v) :
    List.Forall₂ (StandsFor layout) (typedVariables typeOf code.localVariables)
      (typedEntries typeOf' (joinVariables r.tables.described r.tables.signatures)) := by
  refine List.rel_filterMap ?_ (h.localVariables ▸ h.labelled.locals).flip
  intro v j hmatches
  beta_reduce
  rw [htype j v hmatches]
  cases typeOf v with
  | none => exact .none
  | some type =>
    refine .some ⟨fun offset hoffset => ?_, fun offset hoffset => ?_, hmatches.name.symm, rfl, ?_⟩
    · exact h.eq_of_resolve hr hstart hl hkept hmatches.start hoffset
    · exact h.eq_of_resolve hr hstart hl hkept hmatches.stop hoffset
    · exact hmatches.slot.symm

end Decoding.RawCode

/-- The tables of local variables that are written for a method that has been read. -/
theorem Encoding.CodeParts.hasVariables {owner : Text} {verify stackMaps : Bool} {m : Method}
    (parts : CodeParts owner verify stackMaps m P) {outline : CodeOutline}
    (hshown : parts.ShownBy outline) (ht : Backs stored t P) {r : RawCode}
    {seen : List (Int × Label)} {l : LabelledCode} {code : Code}
    (h : r.Assembles seen l code) (hm : m.code? = some code) (hr : InOrder r.length r.instructions)
    (hstart : startOf r.length r.instructions = 0)
    (hraw : ∀ a ∈ r.tables.attributes, a.name ∉ AttributeName.ofCode)
    (hsignatures : (r.tables.signatures.map RawVariable.key).Nodup)
    (hwhole : ∀ v ∈ r.tables.described ++ r.tables.signatures, v.IsWhole)
    (hkept : r.KeepsLengths P m) :
    outline.HasVariables t (gathered r.tables.described)
      (gathered (groupSignatures r.tables.described r.tables.signatures)) := by
  obtain ⟨hbody, hlocals, hattributes, -⟩ := Method.eq_of_code? hm
  obtain ⟨layout, hlayout, hlengths⟩ := hkept
  obtain rfl := hlayout.unique parts.fixed_layout
  rw [hbody] at hlayout hlengths
  -- no attribute that was kept as bytes has the name of a table: the reader would have taken it
  -- apart
  have hnone {name : Text} (hname : name ∈ AttributeName.ofCode) :
      Attribute.tables m.codeAttributes name (Decoder.listOf (readVariable t)) = [] := by
    rw [hattributes, h.attributes]
    unfold Attribute.tables
    rw [List.map_eq_nil_iff, List.filter_eq_nil_iff]
    intro a ha heq
    exact hraw a ha (of_decide_eq_true heq ▸ hname)
  have htable {name : Text} (hname : name ∈ AttributeName.ofCode) (hplain : IsPlain name)
      {typeOf : LocalVariable → Option Text} {entries : List RawVariable}
      (hsort : name = AttributeName.localVariables ∧ typeOf = LocalVariable.descriptor ∨
        name = AttributeName.localVariableTypes ∧ typeOf = LocalVariable.signature)
      (hstands : List.Forall₂ (StandsFor parts.layout) (typedVariables typeOf m.localVariables) entries)
      (hentries : ∀ v ∈ entries, v.IsWhole) :
      Attribute.tables outline.attributes name (Decoder.listOf (readVariable t)) =
        (gathered entries).map .ok := by
    obtain ⟨found, hfound, heq⟩ := Attribute.exists_tables hplain parts.writes
      (Q := fun _ table => table = entries)
      (filter_localVariables m (Flow.Program.placeOf owner m) parts.frames typeOf hsort)
      fun typed htyped data hdata =>
        ⟨entries, reads_localVariables ht (eq_of_mem_gathered htyped ▸ hstands) hentries hdata, rfl⟩
    rw [hshown.attributes, heq, hnone hname, List.append_nil, gathered_of_forall₂ hstands hfound]
  have hstands {typeOf : LocalVariable → Option Text} {typeOf' : JoinedVariable → Option Text}
      (htype : ∀ j v, JoinedVariable.Matches (Known seen) j v → typeOf' j = typeOf v) :=
    hlocals ▸ h.forall₂_standsFor hr hstart hlayout hlengths htype
  constructor
  · refine htable (by decide) (isPlain_ofString (by decide)) (.inl ⟨rfl, rfl⟩) ?_
      fun v hv => hwhole v (List.mem_append_left _ hv)
    have := hstands (fun j v hmatches => hmatches.descriptor)
    rwa [typedEntries_descriptor] at this
  · refine htable (by decide) (isPlain_ofString (by decide)) (.inr ⟨rfl, rfl⟩) ?_ fun v hv =>
      hwhole v (List.mem_append_right _ ((groupSignatures_perm _ _).subset hv))
    have := hstands (fun j v hmatches => hmatches.signature)
    rwa [typedEntries_signature _ hsignatures] at this

/-- The tables of local variables of a method that has been read, and those that are written for it.
If the instructions keep their lengths, the entries with descriptors are the same. Those with
signatures are the last ones for each variable, in the order of the others: they are the same just
if no two are for one variable and their order was that one. -/
theorem Class.exists_hasVariables_of_toBytes {file written : Bytes} {c : Class} {verify : Bool} {k : Nat}
    {m : Method} (hread : Class.ofBytes file = .ok c) (hwrite : c.toBytes verify = .ok written)
    (hm : c.methods[k]? = some m) (hcode : m.hasCode = true) :
    ∃ (P : Pool) (t : Table) (r : RawCode) (code : CodeOutline) (o : Outline) (member : MemberOutline)
      (code' : CodeOutline) (described signatures : List (List RawVariable)),
      (classFile verify c).run (Pool.seeded c.layout.pool c.layout.bootstrap) = .ok (written, P) ∧
      c.HasCodeAt file k t r code ∧ code.HasVariables t described signatures ∧
      Outline.ofBytes written = .ok o ∧ o.methods[k]? = some member ∧
      member.code? o.table = some (.ok code') ∧
      (r.KeepsLengths P m → code'.HasVariables o.table (gathered described.flatten)
        (gathered (keptSignatures described.flatten signatures.flatten))) ∧
      (keptSignatures described.flatten signatures.flatten = signatures.flatten ↔
        (signatures.flatten.map RawVariable.key).Nodup ∧ signatures.flatten.Pairwise fun v w =>
          placeAmong described.flatten v ≤ placeAmong described.flatten w) := by
  obtain ⟨w⟩ := written_of_toBytes hwrite
  obtain ⟨t, r, outline, seen, l, code, hat, ht, hassembles, hm'⟩ :=
    Class.exists_hasCodeAt hread hm hcode
  obtain ⟨o, member, code', parts, ho, hbacks, hmember, hcode', hshown⟩ :=
    w.exists_shownBy (Class.isSeed_of_ofBytes hread) hm hcode
  obtain ⟨_, _, a, -, -, -, -, hholds⟩ := hat.parts
  obtain ⟨described, hdescribed, heqDescribed⟩ := hholds.adds.described
  obtain ⟨signatures, hsignatures, heqSignatures⟩ := hholds.adds.signatures
  obtain ⟨raw, heqRaw, hraw⟩ := hholds.adds.attributes
  have hwhole : ∀ v ∈ r.tables.described ++ r.tables.signatures, v.IsWhole := by
    intro v hv
    rcases List.mem_append.1 hv with hv | hv
    · rw [heqDescribed] at hv
      exact Attribute.isWhole_of_tables ht hdescribed v hv
    · rw [heqSignatures] at hv
      exact Attribute.isWhole_of_tables ht hsignatures v ((mem_foldl_putSignature hv).resolve_left nofun)
  refine ⟨w.pool, t, r, outline, o, member, code', described, signatures, w.run, hat,
    ⟨hdescribed, hsignatures⟩, ho, hmember, hcode', fun hkept => ?_, keptSignatures_eq_iff _ _⟩
  have hnodup : (r.tables.signatures.map RawVariable.key).Nodup :=
    heqSignatures ▸ nodup_foldl_putSignature _ List.nodup_nil
  have hvariables := parts.hasVariables hshown hbacks hassembles hm' (hholds.isSound ht).inOrder
    hholds.startOf_eq (by rw [heqRaw]; exact hraw) hnodup hwhole hkept
  rw [heqDescribed, heqSignatures] at hvariables
  exact hvariables

/-- The class whose two tables have different orders. -/
theorem exists_hasVariables_shuffledFile : Class.ofBytes shuffledFile = .ok shuffledClass ∧
    shuffledClass.toBytes false = .ok gatheredFile ∧
    ∃ (P : Pool) (t : Table) (r : RawCode) (code : CodeOutline) (o : Outline) (member : MemberOutline)
      (code' : CodeOutline) (described signatures : List (List RawVariable)),
      (classFile false shuffledClass).run
        (Pool.seeded shuffledClass.layout.pool shuffledClass.layout.bootstrap) = .ok (gatheredFile, P) ∧
      shuffledClass.HasCodeAt shuffledFile 0 t r code ∧ code.HasVariables t described signatures ∧
      Outline.ofBytes gatheredFile = .ok o ∧ o.methods[0]? = some member ∧
      member.code? o.table = some (.ok code') ∧
      (r.KeepsLengths P shuffledMethod → code'.HasVariables o.table (gathered described.flatten)
        (gathered (keptSignatures described.flatten signatures.flatten))) ∧
      (keptSignatures described.flatten signatures.flatten = signatures.flatten ↔
        (signatures.flatten.map RawVariable.key).Nodup ∧ signatures.flatten.Pairwise fun v w =>
          placeAmong described.flatten v ≤ placeAmong described.flatten w) :=
  ⟨Class.ofBytes_shuffledFile, toBytes_shuffledClass, Class.exists_hasVariables_of_toBytes
    Class.ofBytes_shuffledFile toBytes_shuffledClass rfl rfl⟩

/-- Although its instructions keep their lengths, the entries with signatures change places. -/
theorem not_hasVariables_gatheredFile : Class.ofBytes shuffledFile = .ok shuffledClass ∧
    readRawCode shuffledTable ⟨124, shuffledFile.drop 124⟩ =
      .ok (shuffledCode, ⟨222, shuffledFile.drop 222⟩) ∧
    (∃ (o : Outline) (member : MemberOutline) (code : CodeOutline),
      Outline.ofBytes shuffledFile = .ok o ∧ o.methods[0]? = some member ∧
      member.code? o.table = some (.ok code) ∧
      code.HasVariables o.table [[shuffledVariable 0, shuffledVariable 1]]
        [[shuffledVariable 1, shuffledVariable 0]]) ∧
    ∃ (P : Pool) (o : Outline) (member : MemberOutline) (code : CodeOutline),
      (classFile false shuffledClass).run
        (Pool.seeded shuffledClass.layout.pool shuffledClass.layout.bootstrap) = .ok (gatheredFile, P) ∧
      shuffledCode.KeepsLengths P shuffledMethod ∧ Outline.ofBytes gatheredFile = .ok o ∧
      o.methods[0]? = some member ∧ member.code? o.table = some (.ok code) ∧
      code.HasVariables o.table [[shuffledVariable 0, shuffledVariable 1]]
        [[shuffledVariable 0, shuffledVariable 1]] ∧
      ¬ code.HasVariables o.table [[shuffledVariable 0, shuffledVariable 1]]
        [[shuffledVariable 1, shuffledVariable 0]] := by
  obtain ⟨P, hrun⟩ := run_shuffledClass
  refine ⟨Class.ofBytes_shuffledFile, readRawCode_shuffledFile,
    ⟨_, _, _, by cbv, by cbv, by cbv, by cbv, by cbv⟩, P, ?_⟩
  have hwritten : ∃ (o : Outline) (member : MemberOutline) (code : CodeOutline),
      Outline.ofBytes gatheredFile = .ok o ∧ o.methods[0]? = some member ∧
      member.code? o.table = some (.ok code) ∧
      code.HasVariables o.table [[shuffledVariable 0, shuffledVariable 1]]
        [[shuffledVariable 0, shuffledVariable 1]] :=
    ⟨_, _, _, by cbv, by cbv, by cbv, by cbv, by cbv⟩
  obtain ⟨o, member, code, ho, hmember, hcode, hvariables⟩ := hwritten
  refine ⟨o, member, code, hrun, keepsLengths_shuffledCode P, ho, hmember, hcode, hvariables, ?_⟩
  intro h
  have hsame := hvariables.signatures.symm.trans h.signatures
  rw [List.map_singleton, List.map_singleton] at hsame
  have hslots := congrArg (List.map RawVariable.slot) (Except.ok.inj (List.singleton_inj.1 hsame))
  exact absurd hslots (by decide)

end ClassTree
