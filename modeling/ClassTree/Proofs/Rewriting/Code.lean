/-
# ClassTree.Proofs.Rewriting.Code — code that is written as it was

The labels of a code attribute that has been read lead to the offsets that they were issued for,
since the instructions keep their places. So every table around the instructions says again what it
said: handlers, lines, variables and frames are written by the bytes that they were read from.
-/
import ClassTree.Proofs.Rewriting.Instructions

namespace ClassTree

open Decoding Encoding Encoder
open ModifiedUtf8 (stored)

variable {P : Pool} {t : Table} {layout : Layout} {bytes : Bytes}

/-! ## Instructions -/

/-- Only a jump of the short form is written in another way where it is far. -/
theorem Encoding.operation_isFar_eq {offset : Nat} {isFar : Bool} {i : Instruction Int}
    (h : ∀ op target, i = .jump op target → op.isFar = false → isFar = false) :
    operation offset isFar i = operation offset false i := by
  cases i with
  | jump op target =>
    cases hop : op.isFar with
    | true => simp only [operation, jump, hop, if_true]
    | false => rw [h op target rfl hop]
  | _ => rfl

/-- A class that may be missing is found as what it is read as. -/
theorem Encoding.fixed_classIndex_stored (hP : P.KeepsTexts) {name : Option Text} {i : Nat}
    (h : Fixed P (classIndex name) i) : Fixed P (classIndex (storedName name)) i := by
  cases name with
  | none => exact h
  | some s =>
    cases s with
    | nil => exact h
    | cons c rest =>
      have hsame : stored (c :: rest) = c :: rest := Option.some.inj (map_stored_of_fixed_addClass hP h)
      show Fixed P (classIndex (some (stored (c :: rest)))) i
      rw [hsame]
      exact h

/-! ## Variables in their order -/

/-- A variable stands in one of the tables. -/
def LocalVariable.IsTyped (v : LocalVariable) : Prop := v.descriptor ≠ none ∨ v.signature ≠ none

/-- Where a variable is and what it is called. -/
def LocalVariable.place (layout : Layout) (v : LocalVariable) : Nat × Int × Text × Int :=
  (layout.labelOffset v.start, (layout.labelOffset v.stop : Int) - layout.labelOffset v.start, v.name,
    v.slot)

/-- The variables that have only a signature come last. -/
def HasSignaturesLast (vs : List LocalVariable) : Prop :=
  vs.Pairwise fun v w => v.descriptor = none → v.signature ≠ none → w.descriptor = none

/-- The entries of variables differ in more than the type. -/
def HasOwnKeys (layout : Layout) (vs : List LocalVariable) : Prop :=
  vs.Pairwise fun v w => v.IsTyped → w.IsTyped →
    (rawVariable layout (v, [])).key ≠ (rawVariable layout (w, [])).key

/-- An entry of a typed variable comes of one that has this type. -/
theorem exists_of_mem_typed {typeOf : LocalVariable → Option Text} {vs : List LocalVariable}
    {raw : RawVariable} (h : raw ∈ (typedVariables typeOf vs).map (rawVariable layout)) :
    ∃ v ∈ vs, typeOf v ≠ none ∧ raw.key = (rawVariable layout (v, [])).key := by
  obtain ⟨p, hp, rfl⟩ := List.mem_map.1 h
  obtain ⟨v, hv, htyped⟩ := List.mem_filterMap.1 hp
  obtain ⟨type, htype, rfl⟩ := Option.map_eq_some_iff.1 htyped
  exact ⟨v, hv, by rw [htype]; exact nofun, rfl⟩

theorem HasOwnKeys.nodup {vs : List LocalVariable} (h : HasOwnKeys layout vs) :
    (((typedVariables LocalVariable.signature vs).map
      (rawVariable layout)).map RawVariable.key).Nodup := by
  induction vs with
  | nil => exact List.nodup_nil
  | cons v vs ih =>
    obtain ⟨hfirst, hrest⟩ := List.pairwise_cons.1 h
    unfold typedVariables
    rw [List.filterMap_cons]
    cases hsignature : v.signature with
    | none => exact ih hrest
    | some signature =>
      refine List.nodup_cons.2 ⟨fun hmem => ?_, ih hrest⟩
      obtain ⟨raw, hraw, hkey⟩ := List.mem_map.1 hmem
      obtain ⟨w, hw, htyped, hsame⟩ := exists_of_mem_typed hraw
      refine hfirst w hw (.inr ?_) (.inr htyped) (hkey.symm.trans hsame)
      rw [hsignature]
      exact nofun

/-- Signatures stay where they are when they are grouped by their variables. -/
theorem groupSignatures_typed {vs : List LocalVariable} (h : HasOwnKeys layout vs)
    (hlast : HasSignaturesLast vs) :
    groupSignatures ((typedVariables LocalVariable.descriptor vs).map (rawVariable layout))
      ((typedVariables LocalVariable.signature vs).map (rawVariable layout)) =
        (typedVariables LocalVariable.signature vs).map (rawVariable layout) := by
  induction vs with
  | nil => rfl
  | cons v vs ih =>
    obtain ⟨hfirst, hrest⟩ := List.pairwise_cons.1 h
    obtain ⟨honly, hlast⟩ := List.pairwise_cons.1 hlast
    have ih := ih hrest hlast
    have hcons (typeOf : LocalVariable → Option Text) :
        (typedVariables typeOf (v :: vs)).map (rawVariable layout) =
          (typeOf v).toList.map (fun type => rawVariable layout (v, type)) ++
            (typedVariables typeOf vs).map (rawVariable layout) := by
      unfold typedVariables
      rw [List.filterMap_cons]
      cases typeOf v <;> rfl
    rw [hcons, hcons]
    cases hdescriptor : v.descriptor with
    | none =>
      cases hsignature : v.signature with
      | none => exact ih
      | some signature =>
        -- no variable behind it has a descriptor
        have hnone : typedVariables LocalVariable.descriptor vs = [] := by
          refine List.filterMap_eq_nil_iff.2 fun w hw => ?_
          rw [honly w hw hdescriptor (by rw [hsignature]; exact nofun)]
          rfl
        rw [hnone]
        rfl
    | some descriptor =>
      have hother : ∀ raw ∈ (typedVariables LocalVariable.signature vs).map (rawVariable layout),
          (rawVariable layout (v, descriptor)).sameVariable raw = false := by
        intro raw hraw
        obtain ⟨w, hw, htyped, hsame⟩ := exists_of_mem_typed hraw
        rw [RawVariable.sameVariable_eq, hsame]
        exact decide_eq_false (hfirst w hw (.inl (by rw [hdescriptor]; exact nofun)) (.inr htyped))
      have hnone := List.filter_eq_nil_iff.2 fun raw hraw => Bool.eq_false_iff.1 (hother raw hraw)
      have hall := List.filter_eq_self.2 fun raw hraw => congrArg (!·) (hother raw hraw)
      have hown (signature : Text) : (rawVariable layout (v, descriptor)).sameVariable
          (rawVariable layout (v, signature)) = true := by
        rw [RawVariable.sameVariable_eq]
        exact decide_eq_true rfl
      show List.filter _ _ ++ groupSignatures _ (List.filter _ _) = _
      cases v.signature with
      | none =>
        show List.filter _ (List.map _ _) ++ groupSignatures _ (List.filter _ (List.map _ _)) = _
        rw [hnone]
        exact (congrArg (groupSignatures _) hall).trans ih
      | some signature =>
        show List.filter _ (_ :: List.map _ _) ++
            groupSignatures _ (List.filter _ (_ :: List.map _ _)) = _
        rw [List.filter_cons_of_pos (hown signature), hnone, List.filter_cons_of_neg]
        · exact congrArg (List.cons _) ((congrArg (groupSignatures _) hall).trans ih)
        · rw [hown signature]
          exact nofun

/-- An entry of a table is that of a variable with one of its types, whose labels were issued for
it. -/
structure Decoding.RawVariable.IsEntryOf (seen : List (Int × Label)) (v : RawVariable)
    (p : LocalVariable × Text) : Prop where
  start : Known seen v.start p.1.start
  stop : Known seen (v.start + v.length : Nat) p.1.stop
  name : v.name = p.1.name
  slot : v.slot = p.1.slot
  type : v.descriptor = p.2

/-- What a type is read as has its tag, the name of its class as it is stored, and the offset of its
site. -/
theorem VerificationType.readAs?_eq_some {v raw : VerificationType} {g : Text → Text}
    (h : v.readAs? g layout = some raw) :
    (v.tag = 7 ∧ ∃ n, v.payload = .name n ∧ raw = .object (some (g n))) ∨
    (v.tag = 8 ∧ ∀ offset : Nat, siteOffset layout v.payload = .ok offset →
      raw = .uninitialized (.position offset)) ∨
    (v.tag ≠ 7 ∧ v.tag ≠ 8 ∧ raw.tag = v.tag ∧ ∀ p : Nat, raw ≠ .uninitialized (.position p)) := by
  unfold VerificationType.readAs? at h
  split at h
  case h_8 n htag hpayload => exact .inl ⟨htag, n, hpayload, (Option.some.inj h).symm⟩
  case h_9 p htag hpayload =>
    refine .inr (.inl ⟨htag, fun offset hoffset => ?_⟩)
    rw [hpayload] at hoffset
    obtain rfl := Except.ok.inj hoffset
    exact (Option.some.inj h).symm
  case h_10 label htag hpayload =>
    refine .inr (.inl ⟨htag, fun offset hoffset => ?_⟩)
    rw [hpayload] at hoffset
    rw [Layout.resolve_eq_ok_iff.1 hoffset] at h
    exact (Option.some.inj h).symm
  case h_11 => cases h
  all_goals
    next htag =>
    obtain rfl := Option.some.inj h
    exact .inr (.inr ⟨by omega, by omega, htag.symm, nofun⟩)

theorem Encoding.AreReadBack.length_eq {g : Text → Text} {next : Nat} {frames : List (Nat × Frame)}
    {raws : List RawFrame} (h : AreReadBack g layout next frames raws) : frames.length = raws.length := by
  induction h with
  | nil => rfl
  | cons _ _ _ ih => rw [List.length_cons, List.length_cons, ih]

namespace Decoding.RawCode.IsKeptIn

variable {r : RawCode} {seen : List (Int × Label)} {l : LabelledCode} {code : Code}
  (h : r.IsKeptIn seen l code P layout)
include h

/-- An instruction at its offset is written as it was. -/
theorem fixed_item {p : Nat × Instruction Int} {i : Instruction Label} {position : Nat} {first : Bytes}
    (hat : code.body[position]? = some (.instruction i)) (hmatches : p.2.Matches (Known seen) i)
    (hoffset : layout.offset position = p.1) (hwrite : Fixed P (operation p.1 false p.2) first)
    (place : Text) : Fixed P (item layout place position (.instruction i)) first := by
  refine fixed_bind_iff.2 ⟨p.2, fixed_mapTargets hmatches fun offset label hknown => ?_, ?_⟩
  · obtain ⟨n, rfl, hresolve⟩ := h.exists_resolve_eq hknown
    exact fixed_bind_iff.2 ⟨n, fixed_lift_iff.2 hresolve, fixed_pure_iff.2 rfl⟩
  · rw [fixed_naming_iff, hoffset, operation_isFar_eq]
    · exact hwrite
    · intro op target hjump hop
      rw [hjump] at hmatches
      cases hmatches with
      | jump op _ => exact (h.isShortAt hat).near op _ rfl hop

/-- The instructions of the body are written as they were. -/
theorem fixed_operations (hcode : RewritesCode t P 0 bytes r.instructions)
    (hlength : r.length = bytes.length) (place : Text) :
    Fixed P (operations layout place code.body) bytes := by
  have htakes := Layout.takes_lengthsFrom h.fixed
  rw [h.lengths] at htakes
  have hzero : layout.offset 0 = 0 := by
    obtain ⟨rooms, far, -, -, rfl, -⟩ := Layout.fixed_of h.fixed
    exact Layout.offset_zero
  -- what stands from a position on is written by the bytes from there on
  have hfrom {is : List (Nat × Instruction Int)} {items : List Item} (hstands : r.Stands seen is items)
      {offset : Nat} {tail : Bytes} (hcode : RewritesCode t P offset tail is) (before : List Item)
      (hbody : code.body = before ++ items) (hoffset : layout.offset before.length = offset)
      (htakes : layout.Takes before.length items (lengthsTo (offset + tail.length) is)) :
      ∃ parts, List.Forall₂ (fun (p : Item × Nat) part => Fixed P (item layout place p.2 p.1) part)
        (items.zipIdx before.length) parts ∧ tail = parts.flatten := by
    have hmarkers {offset : Int} {markers : List Item} (hmarkers : ∀ i ∈ markers, r.Owns seen offset i)
        (position : Nat) : List.Forall₂ (fun (p : Item × Nat) part =>
          Fixed P (item layout place p.2 p.1) part) (markers.zipIdx position)
          ((markers.zipIdx position).map fun _ => []) := by
      refine List.forall₂_map_right_iff.2 (List.forall₂_same.2 fun p hp => ?_)
      obtain ⟨item, n⟩ := p
      have hmem := hmarkers item (List.fst_mem_of_mem_zipIdx hp)
      cases item with
      | instruction i => cases hmem
      | _ => exact fixed_pure_iff.2 rfl
    have hnothing {α : Type} (as : List α) : (as.map fun _ => ([] : Bytes)).flatten = [] := by simp
    induction hstands generalizing offset tail before with
    | done hdone =>
      cases hcode
      exact ⟨_, hmarkers hdone _, (hnothing _).symm⟩
    | @next p rest markers items i hbefore hi _ ih =>
      cases hcode with
      | @cons _ first tail j _ hread hwrite hrest =>
      have hisMarker : ∀ i ∈ markers, i.isMarker = true := by
        intro i hi
        have howns := hbefore i hi
        cases i with
        | instruction i => cases howns
        | _ => rfl
      obtain ⟨htakes, hsame, -⟩ := htakes.markers hisMarker
      have hlength : (before ++ markers).length = before.length + markers.length := List.length_append
      have hlength' : (before ++ markers ++ [Item.instruction i]).length =
          before.length + markers.length + 1 := by
        rw [List.length_append, hlength, List.length_singleton]
      have hat : code.body[before.length + markers.length]? = some (.instruction i) := by
        rw [hbody, ← List.append_assoc, ← hlength]
        simp
      cases htakes with
      | marker hmarker => cases hmarker
      | instruction hnext htakes =>
      have hstop : offset + (first ++ tail).length = offset + first.length + tail.length := by
        rw [List.length_append, Nat.add_assoc]
      have hstart : startOf (offset + (first ++ tail).length) rest = offset + first.length := by
        rw [hstop]
        exact hrest.startOf_eq
      obtain ⟨parts, hparts, rfl⟩ := ih hrest (before ++ markers ++ [.instruction i])
        (by rw [hbody]; simp)
        (by rw [hlength', hnext, hsame, hoffset, hstart]; omega) (by rw [hlength', ← hstop]; exact htakes)
      refine ⟨((markers.zipIdx before.length).map fun _ => []) ++ first :: parts, ?_, ?_⟩
      · rw [List.zipIdx_append, List.zipIdx_cons]
        refine List.rel_append (hmarkers hbefore _) (.cons ?_ (hlength' ▸ hparts))
        exact h.fixed_item hat hi (hsame.trans hoffset) hwrite place
      · rw [List.flatten_append, hnothing, List.nil_append, List.flatten_cons]
  refine fixed_all_iff.2 (hfrom h.assembles.stands hcode [] rfl hzero ?_)
  rw [Nat.zero_add, ← hlength]
  exact htakes

/-! ## Handlers and variables -/

/-- A label that was issued for an offset leads there. -/
theorem resolve_eq {offset : Nat} {label : Label} (hknown : Known seen offset label) :
    layout.resolve label = .ok offset := by
  obtain ⟨n, hn, hresolve⟩ := h.exists_resolve_eq hknown
  rw [hresolve, Int.ofNat.inj hn]

theorem fixed_handler (hP : P.KeepsTexts) {old : Layout} {handler handler' : Handler}
    (hmatches : (rawHandler old handler).Matches (Known seen) handler')
    (hwrite : Fixed P (Encoding.handler old handler) bytes) :
    Fixed P (Encoding.handler layout handler') bytes := by
  rw [handler_eq] at hwrite ⊢
  simp only [fixed_bind_iff, fixed_lift_iff] at hwrite ⊢
  obtain ⟨start, hstart, stop, hstop, target, htarget, type, htype, hrest⟩ := hwrite
  obtain ⟨hknownStart, hknownStop, hknownTarget, hsame⟩ := hmatches
  have hresolved := And.intro (h.resolve_eq hknownStart)
    (And.intro (h.resolve_eq hknownStop) (h.resolve_eq hknownTarget))
  rw [rawHandler, Layout.labelOffset_eq hstart, Layout.labelOffset_eq hstop,
    Layout.labelOffset_eq htarget] at hresolved
  refine ⟨start, hresolved.1, stop, hresolved.2.1, target, hresolved.2.2, type, ?_, hrest⟩
  rw [← hsame]
  exact fixed_classIndex_stored hP htype

/-- A variable with a type of some sort is written as it was. -/
theorem fixed_localVariable (hP : P.KeepsTexts) {old : Layout} {p q : LocalVariable × Text}
    (hentry : (rawVariable old p).IsEntryOf seen q) (hwrite : Fixed P (localVariable old p.1 p.2) bytes) :
    Fixed P (localVariable layout q.1 q.2) bytes := by
  obtain ⟨v, type⟩ := p
  obtain ⟨v', type'⟩ := q
  obtain ⟨hstart, hstop, hname, hslot, rfl⟩ := hentry
  show Fixed P (localVariable layout v' (stored type)) bytes
  unfold localVariable at hwrite ⊢
  simp only [fixed_bind_iff, fixed_lift_iff, fixed_addUtf8_iff, fixed_u2_iff, fixed_pure_iff] at hwrite ⊢
  obtain ⟨start, hfrom, stop, hto, n, hn, d, hd, a, ha, b, hb, c, hc, e, he, f, hf, rfl⟩ := hwrite
  have hresolved := And.intro (h.resolve_eq hstart) (h.resolve_eq hstop)
  have hlength := exists_nat_of_unsigned? hb
  have hslot' := exists_nat_of_unsigned? hf
  simp only [rawVariable, Layout.labelOffset_eq hfrom, Layout.labelOffset_eq hto] at hresolved hname hslot
  have hend : start + (stop - start) = stop := by omega
  have hslotSame : v'.slot = v.slot := by omega
  rw [hend] at hresolved
  rw [← hname, hP hn, hP hd, hslotSame]
  exact ⟨start, hresolved.1, stop, hresolved.2, n, hn, d, hd, a, ha, b, hb, c, hc, e, he, f, hf, rfl⟩

/-- The entries of a table of variables are those of the variables that have been read. -/
theorem forall₂_isEntryOf {old : Layout} {vs : List LocalVariable} {typeOf : LocalVariable → Option Text}
    {typeOf' : JoinedVariable → Option Text}
    (htype : ∀ j v, JoinedVariable.Matches (Known seen) j v → typeOf' j = typeOf v)
    (hentries : (typedVariables typeOf vs).map (rawVariable old) =
      typedEntries typeOf' (joinVariables r.tables.described r.tables.signatures)) :
    List.Forall₂ (fun p q => (rawVariable old p).IsEntryOf seen q) (typedVariables typeOf vs)
      (typedVariables typeOf code.localVariables) := by
  refine List.forall₂_map_left_iff.1 (hentries ▸ ?_)
  refine List.rel_filterMap ?_ (h.assembles.localVariables ▸ h.assembles.labelled.locals)
  intro j v hmatches
  beta_reduce
  rw [htype j v hmatches]
  cases typeOf v with
  | none => exact .none
  | some type => exact .some ⟨hmatches.start, hmatches.stop, hmatches.name, hmatches.slot, rfl⟩

/-- A table of variables is written as it was. -/
theorem forall₂_rewrites_localVariablePiece (hP : P.KeepsTexts) {as : List Attribute} {name : Text}
    {old : Layout} {vs : List LocalVariable} {typeOf : LocalVariable → Option Text}
    {typeOf' : JoinedVariable → Option Text}
    (htype : ∀ j v, JoinedVariable.Matches (Known seen) j v → typeOf' j = typeOf v)
    (hentries : (typedVariables typeOf vs).map (rawVariable old) =
      typedEntries typeOf' (joinVariables r.tables.described r.tables.signatures)) :
    List.Forall₂ (Piece.Rewrites P as) (localVariablePiece name old typeOf vs)
      (localVariablePiece name layout typeOf code.localVariables) := by
  have hsame := h.forall₂_isEntryOf htype hentries
  refine forall₂_rewrites_pieceIf ?_ fun _ a _ _ hwrite => ?_
  · refine congrArg (!·) (Bool.eq_iff_iff.2 ?_)
    rw [List.isEmpty_iff_length_eq_zero, List.isEmpty_iff_length_eq_zero]
    exact Iff.of_eq (congrArg (· = 0) hsame.length_eq.symm)
  · obtain ⟨count, hcount, parts, hparts, heq⟩ := fixed_listOf_iff.1 hwrite
    refine fixed_listOf_iff.2 ⟨count, ?_, parts, ?_, heq⟩
    · rw [← hcount]
      exact congrArg (fun n : Nat => Bytes.unsigned? 2 n) hsame.length_eq.symm
    · exact Result.forall₂_trans hsame.flip hparts fun q p part hentry hpart =>
        h.fixed_localVariable hP hentry hpart

/-! ## Frames -/

/-- A type is written as it was: what has been read of its bytes is written with the same bytes.
Where it points into the code it had an offset, became a label and is resolved to that offset again.
-/
theorem fixed_verificationType (hP : P.KeepsTexts) {old : Layout} {v raw v' : VerificationType}
    (hread : v.readAs? stored old = some raw) (hmatches : raw.Matches (Known seen) v')
    (hwrite : Fixed P (verificationType old v) bytes) : Fixed P (verificationType layout v') bytes := by
  have hsame (hraw : ∀ p : Nat, raw ≠ .uninitialized (.position p)) : v' = raw := by
    cases hmatches with
    | same => rfl
    | site => exact absurd rfl (hraw _)
  obtain ⟨b, hb, hcases⟩ := fixed_verificationType_iff.1 hwrite
  refine fixed_verificationType_iff.2 ⟨b, ?_⟩
  rcases VerificationType.readAs?_eq_some hread with ⟨htag, n, hpayload, rfl⟩ | ⟨htag, hsite⟩ |
    ⟨h7, h8, htag, hraw⟩
  · -- an object keeps its name
    have hseven : b.toNat = 7 := by omega
    rcases hcases with ⟨-, i, hi, rfl⟩ | ⟨h8, -⟩ | ⟨h7, -⟩
    · rw [hpayload] at hi
      obtain ⟨k, hk, -⟩ := fixed_index_iff.1 (show Fixed P (index (Pool.addClass (some n))) i from hi)
      have hname : stored n = n := Option.some.inj (map_stored_of_fixed_addClass hP hk)
      rw [hsame nofun, hname]
      exact ⟨by rw [hseven]; rfl, .inl ⟨hseven, i, hi, rfl⟩⟩
    · omega
    · exact absurd hseven h7
  · -- the offset that a site was read with is that of its label
    have height : b.toNat = 8 := by omega
    rcases hcases with ⟨h7, -⟩ | ⟨-, offset, i, hoffset, hi, rfl⟩ | ⟨-, h8, -⟩
    · omega
    · obtain rfl := hsite offset hoffset
      cases hmatches with
      | same hnot => exact absurd rfl (hnot offset)
      | site hknown =>
        exact ⟨by rw [height]; rfl, .inr (.inl ⟨height, offset, i, h.resolve_eq hknown, hi, rfl⟩)⟩
    · exact absurd height h8
  · rcases hcases with ⟨hseven, -⟩ | ⟨height, -⟩ | ⟨hno7, hno8, rfl⟩
    · omega
    · omega
    · rw [hsame hraw]
      exact ⟨by rw [htag, hb], .inr (.inr ⟨hno7, hno8, rfl⟩)⟩

/-- Types in a row are written as they were. -/
theorem forall₂_fixed_types (hP : P.KeepsTexts) {old : Layout} {vs raws vs' : List VerificationType}
    {parts : List Bytes} (hread : AreReadAs stored old vs raws)
    (hmatches : List.Forall₂ (VerificationType.Matches (Known seen)) raws vs')
    (hwrite : List.Forall₂ (fun v part => Fixed P (verificationType old v) part) vs parts) :
    List.Forall₂ (fun v part => Fixed P (verificationType layout v) part) vs' parts := by
  have hsame : List.Forall₂ (fun v' v => ∃ raw, v.readAs? stored old = some raw ∧
      raw.Matches (Known seen) v') vs' vs :=
    Result.forall₂_trans hmatches.flip hread.flip fun _ raw _ hmatch hv => ⟨raw, hv, hmatch⟩
  exact Result.forall₂_trans hsame hwrite fun _ _ _ ⟨_, hv, hmatch⟩ hpart =>
    h.fixed_verificationType hP hv hmatch hpart

/-- Types that are counted are written as they were. -/
theorem fixed_listOf_types (hP : P.KeepsTexts) {old : Layout} {vs raws vs' : List VerificationType}
    (hread : AreReadAs stored old vs raws)
    (hmatches : List.Forall₂ (VerificationType.Matches (Known seen)) raws vs')
    (hwrite : Fixed P (listOf (verificationType old) vs) bytes) :
    Fixed P (listOf (verificationType layout) vs') bytes := by
  obtain ⟨count, hcount, parts, hparts, rfl⟩ := fixed_listOf_iff.1 hwrite
  rw [hread.length_eq, hmatches.length_eq] at hcount
  exact fixed_listOf_iff.2
    ⟨count, hcount, parts, h.forall₂_fixed_types hP hread hmatches hparts, rfl⟩

/-- The one stack item of a frame is written as it was. -/
theorem fixed_stackItem (hP : P.KeepsTexts) {old : Layout} {f f' : Frame} {v raw : VerificationType}
    {stack : List VerificationType} (hstack : f.stack = v :: stack)
    (hread : v.readAs? stored old = some raw)
    (hmatches : List.Forall₂ (VerificationType.Matches (Known seen)) [raw] f'.stack)
    (hwrite : Fixed P (stackItem old f) bytes) : Fixed P (stackItem layout f') bytes := by
  unfold stackItem at hwrite ⊢
  rw [hstack] at hwrite
  cases hf : f'.stack with
  | nil =>
    rw [hf] at hmatches
    cases hmatches
  | cons v' rest =>
    rw [hf] at hmatches
    cases hmatches with
    | cons hmatch _ => exact h.fixed_verificationType hP hread hmatch hwrite

/-- A frame is written as it was, at the same distance from the one before. -/
theorem fixed_frame (hP : P.KeepsTexts) {old : Layout} {place place' : Text}
    {position position' distance : Nat} {f raw f' : Frame}
    (hread : f.IsReadAs stored old distance raw) (hmatches : raw.Matches (Known seen) f')
    (hwrite : Fixed P (frame old place position distance f) bytes) :
    Fixed P (frame layout place' position' distance f') bytes := by
  obtain ⟨kind, locals, stack, chop⟩ := f'
  obtain ⟨hkind, hlocals, hstack, hchop⟩ := hmatches
  cases hread with
  | same locals₁ stack₁ chop₁ =>
    by_cases hle : distance ≤ maxShortDistance
    · simp only [frame, if_pos hle] at hkind hwrite
      obtain rfl := hkind
      simp only [frame, if_pos hle]
      exact hwrite
    · simp only [frame, if_neg hle] at hkind hwrite
      obtain rfl := hkind
      exact hwrite
  | sameExtended locals₁ stack₁ chop₁ =>
    obtain rfl := hkind
    exact hwrite
  | sameLocals1 locals₁ stack₁ chop₁ hv =>
    rw [frame_sameLocals1] at hwrite
    simp only [fixed_bind_iff, fixed_pure_iff] at hwrite
    obtain ⟨head, hhead, item, hitem, rfl⟩ := hwrite
    -- past the short distance the frame was read in the long kind, whose head is the same
    by_cases hle : distance ≤ maxShortDistance
    · simp only [if_pos hle] at hkind
      obtain rfl := hkind
      rw [frame_sameLocals1]
      exact fixed_bind_iff.2 ⟨head, hhead, fixed_bind_iff.2
        ⟨item, h.fixed_stackItem hP rfl hv hstack hitem, fixed_pure_iff.2 rfl⟩⟩
    · simp only [if_neg hle] at hkind
      obtain rfl := hkind
      rw [shortHead, if_neg hle] at hhead
      exact fixed_bind_iff.2 ⟨head, hhead, fixed_bind_iff.2
        ⟨item, h.fixed_stackItem hP rfl hv hstack hitem, fixed_pure_iff.2 rfl⟩⟩
  | sameLocals1Extended locals₁ stack₁ chop₁ hv =>
    obtain rfl := hkind
    obtain ⟨head, hhead, hwrite⟩ := fixed_bind_iff.1 hwrite
    obtain ⟨item, hitem, hpure⟩ := fixed_bind_iff.1 hwrite
    exact fixed_bind_iff.2 ⟨head, hhead, fixed_bind_iff.2
      ⟨item, h.fixed_stackItem hP rfl hv hstack hitem, hpure⟩⟩
  | chop locals₁ stack₁ chop₁ =>
    obtain rfl := hkind
    obtain rfl := hchop
    exact hwrite
  | append stack₁ chop₁ htypes =>
    obtain rfl := hkind
    obtain ⟨head, hhead, hwrite⟩ := fixed_bind_iff.1 hwrite
    obtain ⟨items, hitems, hpure⟩ := fixed_bind_iff.1 hwrite
    obtain ⟨parts, hparts, rfl⟩ := fixed_all_iff.1 hitems
    rw [htypes.length_eq, hlocals.length_eq] at hhead
    exact fixed_bind_iff.2 ⟨head, hhead, fixed_bind_iff.2
      ⟨_, fixed_all_iff.2 ⟨parts, h.forall₂_fixed_types hP htypes hlocals hparts, rfl⟩, hpure⟩⟩
  | full chop₁ htypes htypes' =>
    obtain rfl := hkind
    obtain ⟨head, hhead, hwrite⟩ := fixed_bind_iff.1 hwrite
    obtain ⟨first, hfirst, hwrite⟩ := fixed_bind_iff.1 hwrite
    obtain ⟨second, hsecond, hpure⟩ := fixed_bind_iff.1 hwrite
    exact fixed_bind_iff.2 ⟨head, hhead, fixed_bind_iff.2
      ⟨first, h.fixed_listOf_types hP htypes hlocals hfirst, fixed_bind_iff.2
        ⟨second, h.fixed_listOf_types hP htypes' hstack hsecond, hpure⟩⟩⟩

/-- Frames are written as they were if they are at the offsets that they were read from. -/
theorem areFrames (hP : P.KeepsTexts) {old : Layout} {place place' : Text} {next : Nat}
    {frames frames' : List (Nat × Frame)} {raws : List RawFrame} {parts : List Bytes}
    (hread : AreReadBack stored old next frames raws)
    (hmatches : List.Forall₂ (fun (raw : RawFrame) f => raw.offset = layout.offset f.1 ∧
      raw.frame.Matches (Known seen) f.2) raws frames')
    (hwrite : AreFrames P old place next frames parts) :
    AreFrames P layout place' next frames' parts := by
  induction hread generalizing frames' parts with
  | nil next =>
    cases hmatches
    cases hwrite
    exact .nil next
  | @cons next position f raw frames raws hnext hframe _ ih =>
    cases hwrite with
    | cons _ hpart hparts =>
    cases hmatches with
    | @cons _ f' _ frames' hmatch hmatches =>
    obtain ⟨position', f'⟩ := f'
    obtain ⟨hoffset, hmatch⟩ := hmatch
    dsimp only at hoffset
    refine .cons (hoffset ▸ hnext) ?_ ?_
    · rw [← hoffset]
      exact h.fixed_frame hP hframe hmatch hpart
    · rw [← hoffset]
      exact ih hmatches hparts

/-- The stack map is written as it was. -/
theorem fixed_stackMap (hP : P.KeepsTexts) {old : Layout} {place place' : Text}
    {frames : List (Nat × Frame)}
    (hread : AreReadBack stored old 0 (frames.map fun f => (f.1, f.2.spelled)) r.tables.frames)
    (hwrite : Fixed P (stackMap old place frames) bytes) :
    Fixed P (stackMap layout place' (ownFrames code.body)) bytes := by
  obtain ⟨count, parts, hcount, hparts, rfl⟩ := fixed_stackMap_iff.1 (fixed_stackMap_spelled hwrite)
  have hmatches : List.Forall₂ (fun (raw : RawFrame) f => raw.offset = layout.offset f.1 ∧
      raw.frame.Matches (Known seen) f.2) r.tables.frames (ownFrames code.body) := by
    have hlabelled := h.assembles.labelled.frames
    rw [← h.map_ownFrames, List.forall₂_map_right_iff] at hlabelled
    exact hlabelled
  have hparts : AreFrames P layout place' 0 (ownFrames code.body) parts :=
    h.areFrames hP hread hmatches hparts
  rw [hread.length_eq, hmatches.length_eq] at hcount
  exact fixed_stackMap_iff.2 ⟨count, parts, hcount, hparts, rfl⟩

/-! ## Tables -/

/-- The tables of code that has been read are written as they were. -/
theorem forall₂_rewrites_tablePieces (hP : P.KeepsTexts) {as : List Attribute} {old : Layout}
    {place place' : Text} {frames : List (Nat × Frame)} {m m' : Method} (hcode : m'.code? = some code)
    (hlines : ((Encoding.lineTables m.layout.lineTables (linesOf old m.body).size).map fun table =>
      table.filterMap fun n => (linesOf old m.body)[n]?) = r.tables.lines.map (List.map RawLine.entry))
    (hdescriptors : (typedVariables LocalVariable.descriptor m.localVariables).map (rawVariable old) =
      typedEntries JoinedVariable.descriptor (joinVariables r.tables.described r.tables.signatures))
    (hsignatures : (typedVariables LocalVariable.signature m.localVariables).map (rawVariable old) =
      typedEntries JoinedVariable.signature (joinVariables r.tables.described r.tables.signatures))
    (hframes : AreReadBack stored old 0 (frames.map fun f => (f.1, f.2.spelled)) r.tables.frames) :
    List.Forall₂ (Piece.Rewrites P as) (tablePieces m old place frames)
      (tablePieces m' layout place' (ownFrames m'.body)) := by
  obtain ⟨maxima, -, rfl⟩ := Option.map_eq_some_iff.1 hcode
  have hsameLines : (Encoding.lineTables m'.layout.lineTables (linesOf layout m'.body).size).map
      (linePiece (linesOf layout m'.body)) =
        (Encoding.lineTables m.layout.lineTables (linesOf old m.body).size).map
        (linePiece (linesOf old m.body)) := by
    have hagain := h.assembles.map_lineTables h.isSound.inOrder h.start h.fixed h.lengths
    have hsame := congrArg (List.map fun entries =>
      Piece.mk AttributeName.lineNumbers (lineTable entries))
      (hagain.trans hlines.symm)
    rw [List.map_map, List.map_map] at hsame
    exact hsame
  have hmaps : ownFrames m'.body = [] ↔ frames = [] := by
    have hlength := congrArg List.length h.map_ownFrames
    rw [List.length_map, ← h.assembles.labelled.frames.length_eq, ← hframes.length_eq,
      List.length_map] at hlength
    rw [← List.length_eq_zero_iff, ← List.length_eq_zero_iff]
    exact Iff.of_eq (congrArg (· = 0) hlength)
  unfold tablePieces
  rw [hsameLines]
  refine List.rel_append (List.rel_append (List.rel_append ?_ ?_) ?_) ?_
  · exact List.forall₂_same.2 fun p _ => ⟨rfl, fun _ _ _ hwrite => hwrite⟩
  · exact h.forall₂_rewrites_localVariablePiece hP (fun _ _ hv => hv.descriptor) hdescriptors
  · exact h.forall₂_rewrites_localVariablePiece hP (fun _ _ hv => hv.signature) hsignatures
  · refine forall₂_rewrites_pieceIf (congrArg (!·) (Bool.eq_iff_iff.2 ?_)) fun _ a _ _ hwrite => ?_
    · rw [List.isEmpty_iff, List.isEmpty_iff]
      exact hmaps
    · exact h.fixed_stackMap hP hframes hwrite

end Decoding.RawCode.IsKeptIn

/-! ## The whole attribute -/

namespace Encoding

/-- A variable that has been written is where its entry tells. -/
theorem place_eq_of_fixed_localVariable (hP : P.KeepsTexts) {v : LocalVariable} {type : Text}
    (h : Fixed P (localVariable layout v type) bytes) : v.place layout =
      ((rawVariable layout (v, [])).start, ((rawVariable layout (v, [])).length : Int),
        (rawVariable layout (v, [])).name, ((rawVariable layout (v, [])).slot : Int)) := by
  unfold localVariable at h
  simp only [fixed_bind_iff, fixed_lift_iff, fixed_addUtf8_iff, fixed_u2_iff, fixed_pure_iff] at h
  obtain ⟨start, hstart, stop, hstop, n, hn, d, hd, a, ha, b, hb, c, hc, e, he, f, hf, rfl⟩ := h
  have hlength := exists_nat_of_unsigned? hb
  have hslot := exists_nat_of_unsigned? hf
  unfold LocalVariable.place rawVariable
  dsimp only
  rw [Layout.labelOffset_eq hstart, Layout.labelOffset_eq hstop, hP hn, Int.toNat_of_nonneg (by omega),
    Int.ofNat_sub (by omega)]

section

variable {owner : Text} {verify stackMaps : Bool} {m : Method}
  (parts : CodeParts owner verify stackMaps m P)

/-- The parts of some code make up the attribute. -/
theorem CodeParts.fixed : Fixed P (Encoding.code owner verify stackMaps m) parts.bytes := by
  have hsteady (l : Layout) (frames : List (Nat × Frame)) :
      Steady (Encoding.attributes (codePieces m l
        (Flow.Program.placeOf owner m) frames) m.layout.codeOrder) :=
    steady_attributes (steady_codePieces m l _ frames) _
  have hattributes := (fixed_attributes_iff fun p hp =>
    (steady_codePieces m parts.layout _ parts.frames p hp).toGrowing).2
      ⟨parts.attributes, parts.writes, parts.areAttributes⟩
  rw [code_eq]
  simp only [fixed_bind_iff, fixed_lift_iff, fixed_checkLength_iff, fixed_u2_iff, fixed_u4_iff,
    fixed_pure_iff]
  exact ⟨(), parts.labels, parts.layout, parts.fixed_layout, (parts.sizes, parts.frames),
    parts.verified_eq, parts.instructions, parts.fixed_instructions, (), parts.length_le, parts.stack,
    parts.stack_eq, parts.locals, parts.locals_eq, parts.length, parts.length_eq, parts.handlers,
    parts.fixed_handlers, parts.rest, hattributes, rfl⟩

/-- A variable that has a type of some sort has been written. -/
theorem CodeParts.exists_of_typed {v : LocalVariable} (hv : v ∈ m.localVariables) (htyped : v.IsTyped) :
    ∃ type part, Fixed P (localVariable parts.layout v type) part := by
  have hpieces (name : Text) {typeOf : LocalVariable → Option Text} {type : Text}
      (htype : typeOf v = some type)
      (hmem : ∀ p ∈ localVariablePiece name parts.layout typeOf m.localVariables, p ∈ codePieces m
        parts.layout (Flow.Program.placeOf owner m) parts.frames) :
      ∃ part, Fixed P (localVariable parts.layout v type) part := by
    have hmember : (v, type) ∈ typedVariables typeOf m.localVariables :=
      List.mem_filterMap.2 ⟨v, hv, by rw [htype]; rfl⟩
    have hnonempty : (!(typedVariables typeOf m.localVariables).isEmpty) = true := by
      rw [List.isEmpty_eq_false_iff_exists_mem.2 ⟨_, hmember⟩]
      rfl
    have hpiece := hmem ⟨name, listOf (fun p => localVariable parts.layout p.1 p.2)
      (typedVariables typeOf m.localVariables)⟩ (by
        show _ ∈ pieceIf (!(typedVariables typeOf m.localVariables).isEmpty) name _
        unfold pieceIf
        rw [if_pos hnonempty]
        exact List.mem_singleton.2 rfl)
    obtain ⟨a, -, -, hwrites⟩ := Result.exists_of_mem_left parts.writes
      ((ordered_perm _ _).mem_iff.2 hpiece)
    obtain ⟨-, -, items, hitems, -⟩ := fixed_listOf_iff.1 hwrites
    obtain ⟨part, -, hpart⟩ := Result.exists_of_mem_left hitems hmember
    exact ⟨part, hpart⟩
  rcases htyped with hdescriptor | hsignature
  · obtain ⟨type, htype⟩ := Option.ne_none_iff_exists'.1 hdescriptor
    exact ⟨type, hpieces AttributeName.localVariables htype fun p hp => by
      simp [codePieces, hp]⟩
  · obtain ⟨type, htype⟩ := Option.ne_none_iff_exists'.1 hsignature
    exact ⟨type, hpieces AttributeName.localVariableTypes htype fun p hp => by
      simp [codePieces, hp]⟩

/-- Variables at different places have entries of their own. -/
theorem CodeParts.hasOwnKeys (hP : P.KeepsTexts)
    (h : (m.localVariables.map (LocalVariable.place parts.layout)).Nodup) :
    HasOwnKeys parts.layout m.localVariables := by
  refine (List.pairwise_map.1 h).imp_of_mem fun {v w} hv hw hne htypedV htypedW heq => hne ?_
  obtain ⟨_, _, hwriteV⟩ := parts.exists_of_typed hv htypedV
  obtain ⟨_, _, hwriteW⟩ := parts.exists_of_typed hw htypedW
  obtain ⟨hstart, hrest⟩ := Prod.mk.inj heq
  obtain ⟨hlength, hrest⟩ := Prod.mk.inj hrest
  obtain ⟨hslot, hname⟩ := Prod.mk.inj hrest
  rw [place_eq_of_fixed_localVariable hP hwriteV, place_eq_of_fixed_localVariable hP hwriteW, hstart,
    hlength, hslot, hname]

end

end Encoding

/-- Nothing that the code of a method says is lost in a class file. Instructions have what their
opcodes ask for, frames what their kinds ask for. No attribute that is kept as bytes has the name of
a table. Variables are told apart by where they are and what they are called, and those that have
only a signature come last. -/
structure Method.HasWholeCode (P : Pool) (m : Method) : Prop where
  families : ∀ i, .instruction i ∈ m.body → i.InFamily
  keys : ∀ i, .instruction i ∈ m.body → i.FitsKeys
  frames : ∀ f, .frame f ∈ m.body → f.IsLegible
  raw : ∀ a ∈ m.codeAttributes, a.name ∉ AttributeName.ofCode
  places : ∀ layout, Fixed P (Layout.of m.body) layout →
    (m.localVariables.map (LocalVariable.place layout)).Nodup
  signaturesLast : HasSignaturesLast m.localVariables

namespace Encoding

section

variable {owner : Text} {stackMaps : Bool} {m : Method} (parts : CodeParts owner false stackMaps m P)
  (hP : P.KeepsTexts)
include hP

/-- The entries of the tables that have been read are those of the variables that are put together
of them. -/
theorem CodeParts.typedEntries_eq (hm : m.HasWholeCode P) {r : RawCode}
    (hdescribed : r.tables.described =
      (typedVariables LocalVariable.descriptor m.localVariables).map (rawVariable parts.layout))
    (hsignatures : r.tables.signatures = ((typedVariables LocalVariable.signature m.localVariables).map
      (rawVariable parts.layout)).foldl putSignature []) :
    (typedVariables LocalVariable.descriptor m.localVariables).map (rawVariable parts.layout) =
        typedEntries JoinedVariable.descriptor (joinVariables r.tables.described r.tables.signatures) ∧
      (typedVariables LocalVariable.signature m.localVariables).map (rawVariable parts.layout) =
        typedEntries JoinedVariable.signature (joinVariables r.tables.described r.tables.signatures) := by
  have hkeys := parts.hasOwnKeys hP (hm.places _ parts.fixed_layout)
  have hall : r.tables.signatures = (typedVariables LocalVariable.signature m.localVariables).map
      (rawVariable parts.layout) := by
    rw [hsignatures]
    refine foldl_putSignature_eq ?_
    rw [List.nil_append]
    exact hkeys.nodup
  refine ⟨?_, ?_⟩
  · rw [typedEntries_descriptor, hdescribed]
  · rw [typedEntries_signature _ (hall ▸ hkeys.nodup), hdescribed, hall,
      groupSignatures_typed hkeys hm.signaturesLast]

/-- The code of a method that is put together of what has been read is written as it was. -/
theorem CodeParts.fixed_again (ht : Backs stored t P) (hdrawn : t.IsDrawn) (hsites : HasSites t P)
    (hm : m.HasWholeCode P) {r : RawCode} (hread : Outline.whole (readRawCode t) parts.bytes = .ok r)
    {seen : List (Int × Label)} {l : LabelledCode} {code : Code} (hassembles : r.Assembles seen l code)
    {m' : Method} (hsound : m'.IsSound) (hcode : m'.code? = some code) (owner' : Text) :
    Fixed P (Encoding.code owner' false stackMaps m') parts.bytes := by
  obtain ⟨outline, hshown, hholds⟩ := parts.exists_shownBy_of_readRawCode ht hread
  obtain ⟨hmaxima, hlength, hhandlers⟩ := parts.exists_of_readRawCode ht hread
  have hinstructions := hholds.instructions
  rw [hshown.instructions] at hinstructions
  obtain ⟨hrewrites, htargets⟩ := rewritesCode_of_readOperations ht hP hsites parts.fixed_layout
    hm.families hm.keys parts.fixed_instructions hinstructions
  have hlines := parts.lineTables_of_readAll hm.raw hshown hholds.attributes
  have htables := hholds.attributes
  rw [hshown.attributes] at htables
  obtain ⟨hdescribed, hsignatures, hframes⟩ :=
    parts.tables_of_readAll ht ⟨hm.families, htargets, hm.frames, hm.raw⟩ htables
  rw [parts.areAttributes.map_mapName hP] at htables
  -- the labels that were issued lead to the offsets again, since the instructions keep their
  -- lengths
  obtain ⟨layout, hfixed, hlengths⟩ := hrewrites.exists_layout hlength hassembles
    (hholds.isSound hdrawn.isReadable).inOrder (hholds.hasTargets hdrawn.isReadable)
  have hkept := hholds.isKeptIn hdrawn hassembles hfixed hlengths
  obtain ⟨maxima, hsizes, rfl⟩ := Option.map_eq_some_iff.1 hcode
  obtain ⟨hdescriptors, htypes⟩ := parts.typedEntries_eq hP hm hdescribed hsignatures
  have hhandlersAgain : Fixed P (listOf (handler layout) m'.handlers) parts.handlers := by
    have hmatches := hassembles.handlers ▸ hassembles.labelled.handlers
    rw [hhandlers, List.forall₂_map_left_iff] at hmatches
    exact fixed_listOf_again hmatches (fun _ _ _ hmatch hentry => hkept.fixed_handler hP hmatch hentry)
      parts.fixed_handlers
  have hwrites : List.Forall₂ (Piece.Writes P) (Piece.ordered m'.layout.codeOrder
      (codePieces m' layout (Flow.Program.placeOf owner' m') (ownFrames m'.body))) parts.attributes := by
    have horder : m'.layout.codeOrder = parts.attributes.map Attribute.name :=
      hassembles.order.trans (order_of_readAll (fun _ _ _ h => by
        cases changes_of_readCodeAttribute h <;> rfl) htables)
    have hraw : m'.codeAttributes = parts.attributes.filter fun a => a.name ∉ AttributeName.ofCode :=
      hassembles.attributes.trans (keepsRaw_readCodeAttribute.observe_eq htables)
    have hfront : List.Forall₂ (Piece.Rewrites P parts.attributes)
        (tablePieces m parts.layout (Flow.Program.placeOf owner m) parts.frames)
        (tablePieces m' layout (Flow.Program.placeOf owner' m') (ownFrames m'.body)) :=
      hkept.forall₂_rewrites_tablePieces hP hcode hlines hdescriptors htypes hframes
    have hagain := forall₂_writes_front parts.writes (areNamedIn_tablePieces _ _ _ _) hm.raw hfront
    rw [← horder, ← hraw] at hagain
    exact hagain
  exact CodeParts.fixed {
    layout
    sizes := maxima
    frames := ownFrames m'.body
    instructions := parts.instructions
    stack := parts.stack
    locals := parts.locals
    length := parts.length
    handlers := parts.handlers
    attributes := parts.attributes
    rest := parts.rest
    labels := checkLabels_eq_ok hsound _
    fixed_layout := hfixed
    verified_eq := verified_false hsizes
    fixed_instructions := hkept.fixed_operations hrewrites hlength _
    length_le := parts.length_le
    stack_eq := by
      rw [show maxima = parts.sizes from hassembles.maxima.trans hmaxima]
      exact parts.stack_eq
    locals_eq := by
      rw [show maxima = parts.sizes from hassembles.maxima.trans hmaxima]
      exact parts.locals_eq
    length_eq := parts.length_eq
    fixed_handlers := hhandlersAgain
    writes := hwrites
    areAttributes := parts.areAttributes }

end

end Encoding

end ClassTree
