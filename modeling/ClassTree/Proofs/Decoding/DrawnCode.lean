/-
# ClassTree.Proofs.Decoding.DrawnCode — the code of a method is drawn from its file

The tables of a code attribute are counted in two bytes, and so are the attributes that they come
from. Putting the code together neither lengthens a table nor adds one, so everything fits that is
written of it.
-/
import ClassTree.Proofs.Decoding.Markers
import ClassTree.Proofs.Decoding.Storable

namespace ClassTree.Decoding

open Decoder Encoding

variable {t : Table}

/-! ## Code attributes -/

/-- The texts of a variable can be stored, and the slot fits. -/
structure RawVariable.IsDrawn (v : RawVariable) : Prop where
  name : v.name.IsStorable
  descriptor : v.descriptor.IsStorable
  slot : v.slot < 0x10000

/-- The tables of a code attribute keep within the bounds of a class file. -/
structure CodeTables.IsDrawn (tables : CodeTables) : Prop where
  lines : ∀ table ∈ tables.lines, table.length < 0x10000
  locals : ∀ v ∈ tables.described ++ tables.signatures, v.IsDrawn
  frames : tables.frames.length < 0x10000 ∧ ∀ f ∈ tables.frames, f.frame.IsDrawn
  attributes : ∀ a ∈ tables.attributes, a.IsDrawn

/-- How many attributes are enough for the tables. -/
def CodeTables.count (tables : CodeTables) : Nat :=
  tables.lines.length + (!tables.described.isEmpty).toNat + (!tables.signatures.isEmpty).toNat
    + (!tables.frames.isEmpty).toNat + tables.attributes.length

/-- A code attribute that keeps within the bounds of a class file. -/
structure RawCode.IsDrawn (r : RawCode) : Prop where
  maxima : IsWord r.maxima.stack ∧ IsWord r.maxima.locals
  handlers : r.handlers.length < 0x10000 ∧ ∀ h ∈ r.handlers, ∀ s ∈ h.type, s.IsStorable
  instructions : ∀ p ∈ r.instructions, p.2.IsDrawn
  tables : r.tables.IsDrawn
  count : r.tables.count < 0x10000

/-- An entry of a table of local variables. -/
theorem finds_drawn_readVariable (ht : t.IsReadable) : Finds (readVariable t) RawVariable.IsDrawn := by
  refine Finds.u2_bind fun start _ => ?_
  refine Finds.u2_bind fun length _ => ?_
  refine Finds.u2_bind fun nameIndex _ => ?_
  refine Finds.u2_bind fun descriptorIndex _ => ?_
  refine Finds.u2_bind fun slot hslot => ?_
  refine (Finds.storable ht nameIndex).bind fun name hname => ?_
  exact (Finds.storable ht descriptorIndex).map fun _ hdescriptor => ⟨hname, hdescriptor, hslot⟩

theorem finds_drawn_readHandler (ht : t.IsReadable) :
    Finds (readHandler t) fun h => ∀ s ∈ h.type, s.IsStorable := by
  refine Finds.u2_bind fun start _ => ?_
  refine Finds.u2_bind fun stop _ => ?_
  refine Finds.u2_bind fun target _ => ?_
  exact Finds.u2_bind fun i _ => (finds_drawn_className ht i).map fun _ h => h

/-- An attribute that is kept as its bytes. -/
theorem forall_isDrawn_append {as : List Attribute} (h : ∀ a ∈ as, a.IsDrawn) {name : Text}
    (hname : name.IsStorable) {data : Bytes} {length : Nat} (hdata : data.length = length)
    (hlength : length < 0x100000000) : ∀ a ∈ as ++ [⟨name, data⟩], a.IsDrawn := by
  intro a ha
  rcases List.mem_append.1 ha with ha | ha
  · exact h a ha
  · rw [List.mem_singleton.1 ha]
    exact ⟨hname, hdata ▸ hlength⟩

/-- An attribute of the code adds one table at most. -/
theorem finds_drawn_readCodeAttribute (ht : t.IsReadable) (name : Text) (length n : Nat)
    (tables : CodeTables) (hname : some (.utf8 name) ∈ t.entries) (hlength : length < 0x100000000)
    (h : tables.IsDrawn ∧ tables.count ≤ n) : Finds (readCodeAttribute t name length tables) fun tables =>
      tables.IsDrawn ∧ tables.count ≤ n + 1 := by
  obtain ⟨h, hcount⟩ := h
  unfold CodeTables.count at hcount ⊢
  refine Finds.ite (fun _ => ?_) fun _ => Finds.ite (fun _ => ?_) fun _ =>
    Finds.ite (fun _ => ?_) fun _ => Finds.ite (fun _ => ?_) fun _ => ?_
  · refine (Finds.listOf finds_readLine).map fun lines hlines => ⟨{ h with lines := ?_ }, ?_⟩
    · intro table htable
      rcases List.mem_append.1 htable with htable | htable
      · exact h.lines table htable
      · exact List.mem_singleton.1 htable ▸ hlines.1
    · dsimp only
      rw [List.length_append, List.length_singleton]
      omega
  · refine (Finds.all_listOf (finds_drawn_readVariable ht)).map fun more hmore =>
      ⟨{ h with locals := ?_ }, ?_⟩
    · intro v hv
      have := h.locals v
      simp only [List.mem_append] at hv this
      tauto
    · have hone := Bool.toNat_le (!(tables.described ++ more).isEmpty)
      dsimp only
      omega
  · refine (Finds.all_listOf (finds_drawn_readVariable ht)).map fun more hmore =>
      ⟨{ h with locals := ?_ }, ?_⟩
    · intro v hv
      rcases List.mem_append.1 hv with hv | hv
      · exact h.locals v (List.mem_append_left _ hv)
      · rcases mem_foldl_putSignature hv with hv | hv
        · exact h.locals v (List.mem_append_right _ hv)
        · exact hmore v hv
    · have hone := Bool.toNat_le (!(more.foldl putSignature tables.signatures).isEmpty)
      dsimp only
      omega
  · refine (finds_drawn_readStackMap ht).map fun frames hframes => ⟨{ h with frames := hframes }, ?_⟩
    have hone := Bool.toNat_le (!frames.isEmpty)
    dsimp only
    omega
  · refine (Finds.bytes length).map fun data hdata => ?_
    have hattributes := forall_isDrawn_append h.attributes (ht.isStorable hname) hdata hlength
    refine ⟨{ h with attributes := hattributes }, ?_⟩
    dsimp only
    rw [List.length_append, List.length_singleton]
    omega

theorem finds_drawn_readRawCode (ht : t.IsDrawn) : Finds (readRawCode t) RawCode.IsDrawn := by
  refine Finds.u2_bind fun stack hstack => ?_
  refine Finds.u2_bind fun locals hlocals => ?_
  refine Finds.u4.bind fun length _ => ?_
  refine Finds.get_bind fun code => ?_
  refine (Finds.need length).any_bind fun _ => ?_
  refine (Finds.skip length).any_bind fun _ => ?_
  refine (Finds.listOf (finds_drawn_readHandler ht.isReadable)).bind fun handlers hhandlers => ?_
  have hempty : CodeTables.IsDrawn {} ∧ CodeTables.count {} ≤ 0 :=
    ⟨⟨by simp, by simp, by simp, by simp⟩, by decide⟩
  refine (Finds.attributes_counted (T := fun n (tables : CodeTables) => tables.IsDrawn ∧ tables.count ≤ n)
    (finds_drawn_readCodeAttribute ht.isReadable) hempty).bind fun tables htables => ?_
  obtain ⟨n, hn, htables, hcount⟩ := htables
  refine ((finds_drawn_readOperations ht length).elsewhere code).map fun instructions hcode => ?_
  exact ⟨⟨isWord_ofNat hstack, isWord_ofNat hlocals⟩, hhandlers, hcode, htables, hcount.trans_lt hn⟩

/-! ## What has been labelled -/

theorem isDrawn_of_matches {R : Int → Label → Prop} {i : Instruction Int} {i' : Instruction Label}
    (h : i.Matches R i') (hi : i.IsDrawn) : i'.IsDrawn := by
  cases h <;> exact hi

/-- Labels change nothing about the names of types. -/
theorem forall_isDrawn_of_matches {R : Int → Label → Prop} {vs vs' : List VerificationType}
    (h : List.Forall₂ (VerificationType.Matches R) vs vs')
    (hvs : vs.length < 0x10000 ∧ ∀ v ∈ vs, v.IsDrawn) :
    vs'.length < 0x10000 ∧ ∀ v ∈ vs', v.IsDrawn := by
  refine ⟨h.length_eq ▸ hvs.1, fun v' hv' => ?_⟩
  obtain ⟨v, hv, hmatches⟩ := Result.exists_of_mem_right h hv'
  cases hmatches with
  | same _ => exact hvs.2 _ hv
  | site _ => trivial

theorem frame_isDrawn_of_matches {R : Int → Label → Prop} {f f' : Frame} (h : f.Matches R f')
    (hf : f.IsDrawn) : f'.IsDrawn where
  shape := by
    have hshape := hf.shape
    unfold Frame.HasShape at hshape ⊢
    rwa [← h.kind, ← h.chop, ← h.locals.length_eq]
  one := by
    rw [← h.kind]
    intro hkind hempty
    have hlength := h.stack.length_eq
    rw [hempty] at hlength
    exact hf.one hkind (List.length_eq_zero_iff.1 hlength)
  locals := forall_isDrawn_of_matches h.locals hf.locals
  stack := forall_isDrawn_of_matches h.stack hf.stack

/-- The types of joined variables come from the tables, each sort from its own. -/
theorem joinVariables_isDrawn {described signatures : List RawVariable}
    (h : ∀ v ∈ described ++ signatures, v.IsDrawn) :
    ∀ v ∈ joinVariables described signatures, v.variable_.IsDrawn ∧
      (∀ s ∈ v.descriptor, s.IsStorable ∧ described ≠ []) ∧
        ∀ s ∈ v.signature, s.IsStorable ∧ signatures ≠ [] := by
  induction described generalizing signatures with
  | nil =>
    intro v hv
    obtain ⟨w, hw, rfl⟩ := List.mem_map.1 hv
    refine ⟨h w hw, nofun, fun s hs => ?_⟩
    cases hs
    exact ⟨(h w hw).descriptor, List.ne_nil_of_mem hw⟩
  | cons v described ih =>
    intro w hw
    rcases List.mem_cons.1 hw with rfl | hw
    · refine ⟨h v (by simp), fun s hs => ?_, fun s hs => ?_⟩
      · cases hs
        exact ⟨(h v (by simp)).descriptor, by simp⟩
      · unfold takeSignature at hs
        split at hs
        · next u hu =>
          have hmem := List.mem_of_find?_eq_some hu
          cases hs
          exact ⟨(h u (by simp [hmem])).descriptor, List.ne_nil_of_mem hmem⟩
        · cases hs
    · have hsubset : (takeSignature signatures v).2 ⊆ signatures := by
        unfold takeSignature
        split
        · exact List.filter_subset_self _
        · exact List.Subset.refl _
      obtain ⟨hvariable, hdescriptor, hsignature⟩ := ih (fun u hu => h u (by
        simp only [List.mem_append, List.mem_cons] at hu ⊢
        exact hu.imp .inr (@hsubset u))) w hw
      refine ⟨hvariable, fun s hs => ⟨(hdescriptor s hs).1, by simp⟩, fun s hs => ?_⟩
      refine ⟨(hsignature s hs).1, fun hempty => (hsignature s hs).2 ?_⟩
      exact List.eq_nil_of_subset_nil (hempty ▸ hsubset)

/-! ## The code of a method -/

/-- What is empty with something else takes no more pieces than that. -/
theorem toNat_isEmpty_le {α β : Type} {as : List α} {bs : List β} (h : bs = [] → as = []) :
    (!as.isEmpty).toNat ≤ (!bs.isEmpty).toNat := by
  by_cases hempty : bs = []
  · rw [h hempty, hempty]
    exact Nat.le_refl _
  · rw [List.isEmpty_eq_false_iff.2 hempty]
    exact Bool.toNat_le _

/-- The code of a method is that of a code attribute. -/
structure HasCode (m : Method) (code : Code) : Prop where
  maxima : m.maxima = some code.maxima
  body : m.body = code.body
  handlers : m.handlers = code.handlers
  locals : m.localVariables = code.localVariables
  attributes : m.codeAttributes = code.attributes
  lineTables : m.layout.lineTables = code.lineTables

namespace RawCode

variable {r : RawCode} {seen : List (Int × Label)} {l : LabelledCode} {code : Code} {m : Method}

/-- The items of a body keep within the bounds. -/
theorem Assembles.item_isDrawn (h : r.Assembles seen l code) (hr : r.IsSound) (hdrawn : r.IsDrawn)
    {i : Item} (hi : i ∈ code.body) : i.IsDrawn := by
  rcases h.mem_body hi with ⟨_, rfl⟩ | ⟨p, hp, rfl⟩ | ⟨p, hp, rfl⟩ | ⟨j, hj, rfl⟩
  · trivial
  · obtain ⟨table, htable, hp⟩ := List.mem_flatten.1 hp
    have hmem : table.map Prod.snd ∈ r.tables.lines := by
      rw [← (map_fst_flatten_numberLines r.tables.lines).2]
      exact List.mem_map_of_mem htable
    exact isWord_ofNat (hr.lines _ hmem p.2 (List.mem_map_of_mem hp))
  · obtain ⟨f, hf, -, hmatches⟩ := Result.exists_of_mem_right h.labelled.frames hp
    exact frame_isDrawn_of_matches hmatches (hdrawn.tables.frames.2 f hf)
  · obtain ⟨p, hp, hmatches⟩ := Result.exists_of_mem_right h.labelled.instructions hj
    exact isDrawn_of_matches hmatches (hdrawn.instructions p hp)

/-- The line tables are as long as they were. -/
theorem Assembles.length_lineTables (h : r.Assembles seen l code)
    (hr : InOrder r.length r.instructions) :
    code.lineTables.map List.length = r.tables.lines.map List.length := by
  have htables := h.lineTables ((h.entries_perm hr).nodup_iff.2 List.nodup_range)
  have hraw : r.lines.map List.length = r.tables.lines.map List.length := by
    conv_rhs => rw [← (map_fst_flatten_numberLines r.tables.lines).2, List.map_map]
    exact List.map_congr_left fun table _ => (List.length_map _).symm
  rw [← hraw, ← List.forall₂_eq_eq_eq, List.forall₂_map_left_iff, List.forall₂_map_right_iff]
  exact htables.flip.imp fun table raw htable => htable.length_eq.symm

/-- The code of a method keeps within the bounds of a class file if it has been put together of a
code attribute that does: markers are never more than the entries of the tables that they stem from,
and ranges keep their order, since labels stand in the body in the order of their offsets. -/
theorem Assembles.hasDrawnCode (h : r.Assembles seen l code) (hr : r.IsSound) (hdrawn : r.IsDrawn)
    (hm : HasCode m code) : m.HasDrawnCode where
  maxima := by
    rw [hm.maxima, h.maxima]
    rintro _ ⟨⟩
    exact hdrawn.maxima
  given _ := by
    rw [hm.maxima]
    rfl
  items i hi := h.item_isDrawn hr hdrawn (hm.body ▸ hi)
  handlers := by
    rw [hm.handlers, h.handlers, ← h.labelled.handlers.length_eq]
    refine ⟨hdrawn.handlers.1, fun handler hhandler => ?_⟩
    obtain ⟨raw, hraw, hmatches⟩ := Result.exists_of_mem_right h.labelled.handlers hhandler
    exact hmatches.type ▸ hdrawn.handlers.2 raw hraw
  locals := by
    rw [hm.locals, hm.body]
    intro v hv
    refine ⟨?_, h.isOrdered hr.inOrder hv⟩
    rw [h.localVariables] at hv
    obtain ⟨w, hw, hmatches⟩ := Result.exists_of_mem_right h.labelled.locals hv
    obtain ⟨hw, hdescriptor, hsignature⟩ := joinVariables_isDrawn hdrawn.tables.locals w hw
    exact {
      name := hmatches.name ▸ hw.name
      descriptor := hmatches.descriptor ▸ fun s hs => (hdescriptor s hs).1
      signature := hmatches.signature ▸ fun s hs => (hsignature s hs).1
      slot := hmatches.slot ▸ isWord_ofNat hw.slot }
  frames := by
    rw [hm.body]
    exact (h.length_ownFrames_le hr.inOrder).trans_lt hdrawn.tables.frames.1
  lines layout table htable := by
    rw [hm.lineTables, hm.body, h.lineTables_eq hr.inOrder] at htable
    obtain ⟨marks, hmarks, rfl⟩ := List.mem_map.1 htable
    have hlength := List.mem_map_of_mem (f := List.length) hmarks
    rw [h.length_lineTables hr.inOrder] at hlength
    obtain ⟨raw, hraw, heq⟩ := List.mem_map.1 hlength
    rw [List.length_map, ← heq]
    exact hdrawn.tables.lines raw hraw

/-- The attributes of the code of a method can be counted. -/
theorem Assembles.hasCountedCode (h : r.Assembles seen l code) (hr : r.IsSound) (hdrawn : r.IsDrawn)
    (hm : HasCode m code) : m.HasCountedCode := by
  intro layout place
  have hlines : (Encoding.lineTables m.layout.lineTables (linesOf layout m.body).size).length =
      r.tables.lines.length := by
    have hlengths := congrArg List.length (h.length_lineTables hr.inOrder)
    rw [List.length_map, List.length_map] at hlengths
    rw [hm.lineTables, hm.body, h.lineTables_eq hr.inOrder, List.length_map, hlengths]
  have hlocals : ∀ v ∈ m.localVariables, (∀ s ∈ v.descriptor, r.tables.described ≠ []) ∧
      ∀ s ∈ v.signature, r.tables.signatures ≠ [] := by
    rw [hm.locals, h.localVariables]
    intro v hv
    obtain ⟨w, hw, hmatches⟩ := Result.exists_of_mem_right h.labelled.locals hv
    obtain ⟨-, hdescriptor, hsignature⟩ := joinVariables_isDrawn hdrawn.tables.locals w hw
    exact ⟨hmatches.descriptor ▸ fun s hs => (hdescriptor s hs).2,
      hmatches.signature ▸ fun s hs => (hsignature s hs).2⟩
  have htyped {typeOf : LocalVariable → Option Text} {table : List RawVariable}
      (hne : ∀ v ∈ m.localVariables, ∀ s ∈ typeOf v, table ≠ []) (name : Text) :
      (localVariablePiece name layout typeOf m.localVariables).length ≤ (!table.isEmpty).toNat := by
    unfold localVariablePiece
    rw [length_pieceIf]
    refine toNat_isEmpty_le fun hempty => List.filterMap_eq_nil_iff.2 fun v hv => ?_
    cases htype : typeOf v with
    | none => rfl
    | some s => exact absurd hempty (hne v hv s htype)
  have hdescribed := htyped (fun v hv => (hlocals v hv).1) AttributeName.localVariables
  have hsigned := htyped (fun v hv => (hlocals v hv).2) AttributeName.localVariableTypes
  have hframes : (!(ownFrames m.body).isEmpty).toNat ≤ (!r.tables.frames.isEmpty).toNat := by
    refine toNat_isEmpty_le fun hempty => List.length_eq_zero_iff.1 (Nat.le_zero.1 ?_)
    rw [hm.body, ← List.length_eq_zero_iff.2 hempty]
    exact h.length_ownFrames_le hr.inOrder
  have hraw : m.codeAttributes.length = r.tables.attributes.length := by rw [hm.attributes, h.attributes]
  have hcount := hdrawn.count
  unfold CodeTables.count at hcount
  unfold codePieces
  simp only [List.length_append, List.length_map, length_pieceIf, length_rawPieces, hlines, hraw]
  omega

end RawCode

end ClassTree.Decoding
