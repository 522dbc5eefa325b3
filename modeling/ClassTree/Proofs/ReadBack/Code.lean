/-
# ClassTree.Proofs.ReadBack.Code — what the code of a method is read back as

Code that has been written is read back from a small pool as what the method says: its handlers, its
instructions, its local variables and its frames are functions of the method. Only the entries of
line tables, and attributes that are kept as bytes, come in an order that hints decide. A marker of
a line stands at its offset whichever table it came from, so a hint can do no more to a body than
exchange neighbouring markers of lines.

Two code attributes agree if they say the same, but for the order of the entries of their line
tables. The labels of a method are issued without a look at the line tables, so code attributes that
agree get the same labels, and the bodies that are woven of them differ at most in the order of line
markers that stand side by side.
-/
import ClassTree.Proofs.Acceptance.StackMap
import ClassTree.Proofs.Class.Proper
import ClassTree.Proofs.LineTables
import ClassTree.Proofs.ReadBack.Attributes
import ClassTree.Proofs.ReadBack.Instructions

namespace ClassTree

open Decoding Encoding Encoder
open ModifiedUtf8 (stored IsPlain isPlain_ofString)

variable {P : Pool} {t : Table} {l : Layout} {bytes : Bytes}

/-! ## Attributes of code -/

namespace Decoding

/-- What an attribute of some code changes. -/
inductive CodeTables.Changes (s : CodeTables) (a : Attribute) : CodeTables → Prop
  | lines (h : a.name = AttributeName.lineNumbers) (table : List RawLine) :
    Changes s a { s with order := s.order ++ [a.name], lines := s.lines ++ [table] }
  | described (h : a.name = AttributeName.localVariables) (vs : List RawVariable) :
    Changes s a { s with order := s.order ++ [a.name], described := s.described ++ vs }
  | signatures (h : a.name = AttributeName.localVariableTypes) (vs : List RawVariable) :
    Changes s a { s with
      order := s.order ++ [a.name], signatures := vs.foldl putSignature s.signatures }
  | frames (h : a.name = AttributeName.stackMap) (frames : List RawFrame) :
    Changes s a { s with order := s.order ++ [a.name], frames }
  | raw (h : a.name ∉ AttributeName.ofCode) :
    Changes s a { s with order := s.order ++ [a.name], attributes := s.attributes ++ [a] }

theorem changes_of_readCodeAttribute {a : Attribute} {s s' : CodeTables}
    (h : Outline.whole (readCodeAttribute t a.name a.data.length s) a.data = .ok s') :
    s.Changes a s' := by
  obtain ⟨c, hread, -⟩ := whole_eq_ok_iff.1 h
  unfold readCodeAttribute at hread
  by_cases hlines : a.name = AttributeName.lineNumbers
  · rw [if_pos hlines] at hread
    obtain ⟨table, _, -, hs⟩ := Decoder.bind_eq_ok_iff.1 hread
    cases hs
    exact .lines hlines table
  rw [if_neg hlines] at hread
  by_cases hdescribed : a.name = AttributeName.localVariables
  · rw [if_pos hdescribed] at hread
    obtain ⟨vs, _, -, hs⟩ := Decoder.bind_eq_ok_iff.1 hread
    cases hs
    exact .described hdescribed vs
  rw [if_neg hdescribed] at hread
  by_cases hsignatures : a.name = AttributeName.localVariableTypes
  · rw [if_pos hsignatures] at hread
    obtain ⟨vs, _, -, hs⟩ := Decoder.bind_eq_ok_iff.1 hread
    cases hs
    exact .signatures hsignatures vs
  rw [if_neg hsignatures] at hread
  by_cases hframes : a.name = AttributeName.stackMap
  · rw [if_pos hframes] at hread
    obtain ⟨frames, _, -, hs⟩ := Decoder.bind_eq_ok_iff.1 hread
    cases hs
    exact .frames hframes frames
  · rw [if_neg hframes] at hread
    obtain ⟨data, _, hdata, hs⟩ := Decoder.bind_eq_ok_iff.1 hread
    cases hs
    obtain rfl := eq_of_bytes hdata
    exact .raw (by simp [AttributeName.ofCode, hlines, hdescribed, hsignatures, hframes])

theorem isPlain_localVariables : IsPlain AttributeName.localVariables := isPlain_ofString (by decide)

theorem isPlain_localVariableTypes : IsPlain AttributeName.localVariableTypes :=
  isPlain_ofString (by decide)

theorem concerns_described :
    Concerns (readCodeAttribute t) CodeTables.described AttributeName.localVariables :=
  fun a s s' hname hread => by
    cases changes_of_readCodeAttribute hread with
    | described h => exact absurd h hname
    | _ => rfl

theorem concerns_signatures :
    Concerns (readCodeAttribute t) CodeTables.signatures AttributeName.localVariableTypes :=
  fun a s s' hname hread => by
    cases changes_of_readCodeAttribute hread with
    | signatures h => exact absurd h hname
    | _ => rfl

theorem concerns_frames : Concerns (readCodeAttribute t) CodeTables.frames AttributeName.stackMap :=
  fun a s s' hname hread => by
    cases changes_of_readCodeAttribute hread with
    | frames h => exact absurd h hname
    | _ => rfl

theorem keepsRaw_readCodeAttribute :
    KeepsRaw (readCodeAttribute t) CodeTables.attributes AttributeName.ofCode where
  modelled a s s' hname hread := by
    cases changes_of_readCodeAttribute hread with
    | raw h => exact absurd hname h
    | _ => rfl
  raw a s s' hname hread := by
    cases changes_of_readCodeAttribute hread with
    | raw => rfl
    | lines h => exact absurd (by rw [h]; decide) hname
    | described h => exact absurd (by rw [h]; decide) hname
    | signatures h => exact absurd (by rw [h]; decide) hname
    | frames h => exact absurd (by rw [h]; decide) hname

end Decoding

/-! ## What is read of a method -/

/-- The code of a method in a layout, with its sizes and its frames, read back. -/
structure Decoding.RawCode.IsReadOf (l : Layout) (sizes : Maxima) (frames : List (Nat × Frame))
    (m : Method) (r : RawCode) : Prop where
  maxima : r.maxima = sizes
  length : r.length = l.offset m.body.length
  handlers : r.handlers = m.handlers.map (rawHandler l)
  instructions : r.instructions = codeOf stored l m.body
  described : r.tables.described =
    (typedVariables LocalVariable.descriptor m.localVariables).map (rawVariable l)
  signatures : r.tables.signatures =
    ((typedVariables LocalVariable.signature m.localVariables).map (rawVariable l)).foldl putSignature []
  frames : AreReadBack stored l 0 (frames.map fun f => (f.1, f.2.spelled)) r.tables.frames
  lines : (r.tables.lines.flatten.map RawLine.entry).Perm (linesOf l m.body).toList
  attributes : Attribute.AreReadBackAs m.codeAttributes r.tables.attributes

/-- A method whose code is clear: nothing in it can be taken for anything else when it is read. -/
structure Method.HasClearCode (m : Method) : Prop where
  families : ∀ i, .instruction i ∈ m.body → i.InFamily
  targets : ∀ i, .instruction i ∈ m.body → i.HasTargets
  frames : ∀ f, .frame f ∈ m.body → f.IsLegible
  raw : ∀ a ∈ m.codeAttributes, a.name ∉ AttributeName.ofCode

namespace Encoding

/-- The frames that code is written with are legible if those of the body are. -/
theorem CodeParts.isLegible_frames {owner : Text} {verify stackMaps : Bool} {m : Method}
    (parts : CodeParts owner verify stackMaps m P) (hown : ∀ f, .frame f ∈ m.body → f.IsLegible) :
    ∀ f ∈ parts.frames, f.2.IsLegible := by
  intro f hf
  rcases frames_eq_of_verified parts.verified_eq with heq | ⟨rfl, rfl, hnone⟩
  · rw [heq] at hf
    obtain ⟨⟨item, position⟩, hitem, hframe⟩ := List.mem_filterMap.1 hf
    have hat := List.mem_zipIdx_iff_getElem?.1 hitem
    cases item with
    | frame f' =>
      obtain rfl := Option.some.inj hframe
      exact hown f' (List.mem_of_getElem? hat)
    | _ => cases hframe
  · obtain ⟨source, -, hcomputed⟩ := parts.exists_frameSource rfl (notMem_of_ownFrames_eq_nil hnone)
    exact (hcomputed.regular source.admitted_knowns f hf).1.isLegible

section

variable {owner : Text} {verify stackMaps : Bool} {m : Method}
  (parts : CodeParts owner verify stackMaps m P)

/-- The pieces of code that is clear, with the name of a table. -/
theorem filter_codePieces_of_clear (place : Text) (frames : List (Nat × Frame))
    (hraw : ∀ a ∈ m.codeAttributes, a.name ∉ AttributeName.ofCode) :
    (codePieces m l place frames).filter (fun p => p.name = AttributeName.localVariables) =
        localVariablePiece AttributeName.localVariables l LocalVariable.descriptor m.localVariables ∧
      (codePieces m l place frames).filter (fun p => p.name = AttributeName.localVariableTypes) =
        localVariablePiece AttributeName.localVariableTypes l LocalVariable.signature
          m.localVariables ∧
      (codePieces m l place frames).filter (fun p => p.name = AttributeName.stackMap) =
        pieceIf (!frames.isEmpty) AttributeName.stackMap (stackMap l place frames) := by
  refine ⟨?_, ?_, ?_⟩
  · rw [filter_codePieces, filter_rawPieces hraw (by decide), if_neg (by decide), if_pos rfl,
      if_neg (by decide), if_neg (by decide)]
    simp only [List.nil_append, List.append_nil]
  · rw [filter_codePieces, filter_rawPieces hraw (by decide), if_neg (by decide), if_neg (by decide),
      if_pos rfl, if_neg (by decide)]
    simp only [List.nil_append, List.append_nil]
  · rw [filter_codePieces, filter_rawPieces hraw (by decide), if_neg (by decide), if_neg (by decide),
      if_neg (by decide), if_pos rfl]
    simp only [List.nil_append, List.append_nil]

/-- What has been read of the bytes in front of the tables. -/
theorem CodeParts.exists_of_readRawCode (ht : Backs stored t P) {r : RawCode}
    (h : Outline.whole (readRawCode t) parts.bytes = .ok r) :
    r.maxima = parts.sizes ∧ r.length = parts.instructions.length ∧
      r.handlers = m.handlers.map (rawHandler parts.layout) := by
  obtain ⟨c, hread, -⟩ := whole_eq_ok_iff.1 h
  have hbytes : parts.bytes = parts.stack ++ (parts.locals ++ (parts.length ++ (parts.instructions ++
      (parts.handlers ++ parts.rest)))) := by simp only [CodeParts.bytes, List.append_assoc]
  rw [hbytes] at hread
  have hread := (Reads.unsigned (length_of_unsigned? parts.stack_eq)).of_bind hread
  have hread := (Reads.unsigned (length_of_unsigned? parts.locals_eq)).of_bind hread
  have hread := (Reads.of_unsigned? parts.length_eq).of_bind hread
  obtain ⟨start, _, ⟨⟩, hread⟩ := Decoder.bind_eq_ok_iff.1 hread
  obtain ⟨_, _, hneed, hread⟩ := Decoder.bind_eq_ok_iff.1 hread
  obtain ⟨-, rfl⟩ := need_eq_ok hneed
  have hread := (Reads.skip rfl).of_bind hread
  have hread := (reads_handlers ht parts.fixed_layout parts.fixed_handlers).1.of_bind hread
  obtain ⟨tables, _, -, hread⟩ := Decoder.bind_eq_ok_iff.1 hread
  obtain ⟨instructions, _, -, hread⟩ := Decoder.bind_eq_ok_iff.1 hread
  cases hread
  refine ⟨?_, rfl, rfl⟩
  rw [← exists_nat_of_unsigned? parts.stack_eq, ← exists_nat_of_unsigned? parts.locals_eq]

/-- What is told by a piece that there is reason for only if there is something to tell. -/
theorem elim_unless_isEmpty {α β : Type} {things : List α} {others : List β}
    (h : things = [] → others = []) :
    (if (!things.isEmpty) = true then some () else none).elim [] (fun _ => others) = others := by
  cases things with
  | nil => exact (h rfl).symm
  | cons => rfl

/-- The tables of code that is clear are read back. -/
theorem CodeParts.tables_of_readAll (ht : Backs stored t P) (hclear : m.HasClearCode)
    {s : CodeTables} (h : Attribute.readAll (readCodeAttribute t)
      (parts.attributes.map (Attribute.mapName stored)) {} = .ok s) :
    s.described = (typedVariables LocalVariable.descriptor m.localVariables).map
        (rawVariable parts.layout) ∧
      s.signatures = ((typedVariables LocalVariable.signature m.localVariables).map
        (rawVariable parts.layout)).foldl putSignature [] ∧
      AreReadBack stored parts.layout 0 (parts.frames.map fun f => (f.1, f.2.spelled)) s.frames := by
  obtain ⟨hdescribed, hsignatures, hframes⟩ := filter_codePieces_of_clear (l := parts.layout)
    (Flow.Program.placeOf owner m) parts.frames hclear.raw
  refine ⟨?_, ?_, ?_⟩
  · have htold := observe_of_readAll parts.writes h isPlain_localVariables
      (hdescribed.trans (pieceIf_eq_pieceOf? _ _ _)) concerns_described
      (fun _ => (typedVariables LocalVariable.descriptor m.localVariables).map
        (rawVariable parts.layout)) fun _ _ data s₁ hdata hs₁ => by
          rw [readCodeAttribute_of_lookup _ AttributeName.localVariables _ rfl]
          refine ⟨_, (reads_variables ht parts.fixed_layout hdata).1.map _, ?_⟩
          exact congrArg (· ++ _) hs₁
    refine htold.trans (elim_unless_isEmpty fun hempty => ?_)
    exact List.map_eq_nil_iff.2 hempty
  · have htold := observe_of_readAll parts.writes h isPlain_localVariableTypes
      (hsignatures.trans (pieceIf_eq_pieceOf? _ _ _)) concerns_signatures
      (fun _ => ((typedVariables LocalVariable.signature m.localVariables).map
        (rawVariable parts.layout)).foldl putSignature []) fun _ _ data s₁ hdata hs₁ => by
          rw [readCodeAttribute_of_lookup _ AttributeName.localVariableTypes _ rfl]
          refine ⟨_, (reads_variables ht parts.fixed_layout hdata).1.map _, ?_⟩
          exact congrArg (fun signatures => List.foldl putSignature signatures _) hs₁
    refine htold.trans (elim_unless_isEmpty fun hempty => ?_)
    rw [show typedVariables LocalVariable.signature m.localVariables = [] from hempty]
    rfl
  · have hread {data : Bytes} (hdata : Fixed P (stackMap parts.layout (Flow.Program.placeOf owner m)
        parts.frames) data) : Parses False (readStackMap t) data
          (AreReadBack stored parts.layout 0 (parts.frames.map fun f => (f.1, f.2.spelled))) := by
      refine parses_readStackMap ht (fun f hf => ?_) nofun (fixed_stackMap_spelled hdata)
      obtain ⟨f', hf', rfl⟩ := List.mem_map.1 hf
      exact (parts.isLegible_frames hclear.frames f' hf').hasShape_spelled
    -- reading frames may fail here, so all that is told is what they are if it does not
    have htold := told_of_readAll (Q := fun _ raws => AreReadBack stored parts.layout 0
      (parts.frames.map fun f => (f.1, f.2.spelled)) raws) parts.writes h isPlain_stackMap
      (hframes.trans (pieceIf_eq_pieceOf? _ _ _)) concerns_frames fun _ _ data s₁ s₂ hdata _ hs₂ => by
        rw [readCodeAttribute_of_lookup _ AttributeName.stackMap _ rfl] at hs₂
        obtain ⟨c, hs₂, -⟩ := whole_eq_ok_iff.1 hs₂
        obtain ⟨raws, _, hraws, hs₂⟩ := Decoder.bind_eq_ok_iff.1 hs₂
        cases hs₂
        have hparses := hread hdata 0 []
        rw [List.append_nil] at hparses
        rcases hparses with ⟨raws', hback, hraws'⟩ | ⟨-, e, herror⟩
        · cases hraws'.symm.trans hraws
          exact hback
        · cases herror.symm.trans hraws
    rcases htold with ⟨hnone, hkept⟩ | ⟨_, -, hback⟩
    · have hempty : parts.frames = [] := by simpa using hnone
      rw [hempty, hkept]
      exact .nil 0
    · exact hback

/-- The tables of some code. -/
def tablePieces (m : Method) (l : Layout) (place : Text) (frames : List (Nat × Frame)) : List Piece :=
  (lineTables m.layout.lineTables (linesOf l m.body).size).map (linePiece (linesOf l m.body))
    ++ localVariablePiece AttributeName.localVariables l LocalVariable.descriptor m.localVariables
    ++ localVariablePiece AttributeName.localVariableTypes l LocalVariable.signature m.localVariables
    ++ pieceIf (!frames.isEmpty) AttributeName.stackMap (stackMap l place frames)

theorem areNamedIn_tablePieces (m : Method) (l : Layout) (place : Text) (frames : List (Nat × Frame)) :
    AreNamedIn AttributeName.ofCode (tablePieces m l place frames) := by
  refine ((AreNamedIn.append ?lines (.pieceIf (by decide))).append (.pieceIf (by decide))).append
    (.pieceIf (by decide))
  intro p hp
  obtain ⟨table, -, rfl⟩ := List.mem_map.1 hp
  show AttributeName.lineNumbers ∈ _
  decide

theorem arePiecesAround_codePieces (place : Text) (frames : List (Nat × Frame))
    (hraw : ∀ a ∈ m.codeAttributes, a.name ∉ AttributeName.ofCode) :
    ArePiecesAround AttributeName.ofCode m.codeAttributes (codePieces m l place frames) where
  plain n hn := AttributeName.isPlain_of_mem (List.mem_append_right _ hn)
  unknown := hraw
  eq := by
    refine ⟨tablePieces m l place frames, [], (List.append_nil _).symm, ?_⟩
    rw [List.append_nil]
    exact areNamedIn_tablePieces m l place frames

/-- What has been read of the parts of some code has been read of an outline that shows them. -/
theorem CodeParts.exists_shownBy_of_readRawCode (ht : Backs stored t P) {r : RawCode}
    (h : Outline.whole (readRawCode t) parts.bytes = .ok r) :
    ∃ outline, parts.ShownBy outline ∧
      Attribute.HoldsCode t ⟨AttributeName.code, parts.bytes⟩ r outline := by
  obtain ⟨outline, hholds⟩ := exists_holdsCode (a := ⟨AttributeName.code, parts.bytes⟩) h
  obtain ⟨found, hfound, hstack, hlocals, hinstructions, hattributes⟩ :=
    Outline.exists_reads_code ht parts
  obtain rfl : found = outline := Except.ok.inj ((Outline.whole_eq_ok hfound).symm.trans hholds.parts)
  exact ⟨found, ⟨hstack, hlocals, hinstructions, hattributes⟩, hholds⟩

/-- The line tables that are read are those that have been written. -/
theorem CodeParts.lineTables_of_readAll (hraw : ∀ a ∈ m.codeAttributes, a.name ∉ AttributeName.ofCode)
    {outline : CodeOutline} (hshown : parts.ShownBy outline) {s : CodeTables}
    (h : Attribute.readAll (readCodeAttribute t) outline.attributes {} = .ok s) :
    ((lineTables m.layout.lineTables (linesOf parts.layout m.body).size).map fun table =>
      table.filterMap fun n => (linesOf parts.layout m.body)[n]?) =
        s.lines.map (List.map RawLine.entry) := by
  obtain ⟨read, hread, hlines⟩ := (CodeTables.Adds.of_readAll h).lines
  obtain ⟨tables, htables, heq⟩ := parts.exists_lineTables hshown
  have hnone : Attribute.lineTables m.codeAttributes = [] := by
    unfold Attribute.lineTables Attribute.tables
    rw [List.map_eq_nil_iff, List.filter_eq_nil_iff]
    intro a ha hname
    exact hraw a ha (of_decide_eq_true hname ▸ by decide)
  rw [hnone, List.append_nil] at htables
  have hsame : read = tables :=
    List.map_injective_iff.2 (fun _ _ => Except.ok.inj) (hread.symm.trans htables)
  rw [heq, ← hsame, hlines]
  rfl

/-- The line tables that are read share out the lines of the body. -/
theorem CodeParts.sharedOut_of_readAll (hraw : ∀ a ∈ m.codeAttributes, a.name ∉ AttributeName.ofCode)
    {outline : CodeOutline} (hshown : parts.ShownBy outline) {s : CodeTables}
    (h : Attribute.readAll (readCodeAttribute t) outline.attributes {} = .ok s) :
    SharedOut (linesOf parts.layout m.body).toList m.layout.lineTables
      (s.lines.map (List.map RawLine.entry)) := by
  rw [← parts.lineTables_of_readAll hraw hshown h]
  exact sharedOut_lineTables _ _

/-- Code that is clear is read back as the code of the method. -/
theorem CodeParts.isReadOf (ht : Backs stored t P) (hsites : HasSites t P)
    (hshort : ∀ i, .instruction i ∈ m.body → LoadsShort P i) (hclear : m.HasClearCode) {r : RawCode}
    (h : Outline.whole (readRawCode t) parts.bytes = .ok r) :
    r.IsReadOf parts.layout parts.sizes parts.frames m := by
  obtain ⟨outline, hshown, hholds⟩ := parts.exists_shownBy_of_readRawCode ht h
  obtain ⟨hmaxima, hlength, hhandlers⟩ := parts.exists_of_readRawCode ht h
  have hread := hholds.attributes
  have hlines := (parts.sharedOut_of_readAll hclear.raw hshown hread).perm
  rw [← List.map_flatten] at hlines
  rw [hshown.attributes] at hread
  obtain ⟨hdescribed, hsignatures, hframes⟩ := parts.tables_of_readAll ht hclear hread
  have hcode := readsCode_codeOf ht hsites parts.fixed_layout hshort hclear.families hclear.targets
    parts.fixed_instructions
  have hoperations := hholds.instructions
  rw [hshown.instructions] at hoperations
  exact {
    maxima := hmaxima
    length := by
      rw [hlength, parts.offset_length fun i hi => hasKeys_of_hasTargets (hclear.targets i hi)]
    handlers := hhandlers
    instructions := eq_of_readOperations hcode hoperations
    described := hdescribed
    signatures := hsignatures
    frames := hframes
    lines := hlines
    attributes := keepsRaw_readCodeAttribute.areReadBackAs
      (arePiecesAround_codePieces _ _ hclear.raw) parts.writes hread rfl }

end

end Encoding

/-! ## Bodies -/

/-- Two bodies are the same but for the order of markers of lines that stand side by side. -/
inductive SameLines : List Item → List Item → Prop
  | nil : SameLines [] []
  | cons (i : Item) {body body' : List Item} (h : SameLines body body') :
    SameLines (i :: body) (i :: body')
  | lines {ns ns' : List Int} (hlines : ns.Perm ns') {body body' : List Item}
    (h : SameLines body body') : SameLines (ns.map .line ++ body) (ns'.map .line ++ body')

namespace SameLines

variable {a a' b b' : List Item}

theorem refl (body : List Item) : SameLines body body := by
  induction body with
  | nil => exact .nil
  | cons i body ih => exact .cons i ih

theorem append (h : SameLines a a') (h' : SameLines b b') : SameLines (a ++ b) (a' ++ b') := by
  induction h with
  | nil => exact h'
  | cons i _ ih => exact .cons i ih
  | lines hlines _ ih =>
    rw [List.append_assoc, List.append_assoc]
    exact .lines hlines ih

theorem of_perm {ns ns' : List Int} (h : ns.Perm ns') : SameLines (ns.map .line) (ns'.map .line) := by
  have hlines := SameLines.lines h .nil
  rwa [List.append_nil, List.append_nil] at hlines

theorem flatMap {α : Type} {f f' : α → List Item} (l : List α) (h : ∀ x, SameLines (f x) (f' x)) :
    SameLines (l.flatMap f) (l.flatMap f') := by
  induction l with
  | nil => exact .nil
  | cons x l ih =>
    rw [List.flatMap_cons, List.flatMap_cons]
    exact (h x).append ih

end SameLines

/-! ## Frames -/

section Frames

variable {g : Text → Text} {l : Layout}

theorem AreReadAs.unique {vs ws ws' : List VerificationType} (h : AreReadAs g l vs ws)
    (h' : AreReadAs g l vs ws') : ws = ws' := by
  induction h generalizing ws' with
  | nil => exact (List.forall₂_nil_left_iff.1 h').symm
  | cons hv _ ih =>
    obtain ⟨w, ws, hv', hrest, rfl⟩ := List.forall₂_cons_left_iff.1 h'
    rw [ih hrest, Option.some.inj (hv.symm.trans hv')]

theorem Frame.IsReadAs.unique {distance : Nat} {f f₁ f₂ : Frame} (h : f.IsReadAs g l distance f₁)
    (h' : f.IsReadAs g l distance f₂) : f₁ = f₂ := by
  cases h with
  | sameLocals1 locals stack chop hv =>
    cases h' with
    | sameLocals1 _ _ _ hv' => rw [Option.some.inj (hv.symm.trans hv')]
  | sameLocals1Extended locals stack chop hv =>
    cases h' with
    | sameLocals1Extended _ _ _ hv' => rw [Option.some.inj (hv.symm.trans hv')]
  | append stack chop hlocals =>
    cases h' with
    | append _ _ hlocals' => rw [hlocals.unique hlocals']
  | full chop hlocals hstack =>
    cases h' with
    | full _ hlocals' hstack' => rw [hlocals.unique hlocals', hstack.unique hstack']
  | _ =>
    cases h'
    rfl

theorem Encoding.AreReadBack.unique {next : Nat} {frames : List (Nat × Frame)}
    {raws raws' : List RawFrame}
    (h : AreReadBack g l next frames raws) (h' : AreReadBack g l next frames raws') : raws = raws' := by
  induction h generalizing raws' with
  | nil => cases h'; rfl
  | cons hnext hframe _ ih =>
    cases h' with
    | cons hnext' hframe' hrest' => rw [ih hrest', hframe.unique hframe']

end Frames

/-! ## Code attributes that agree -/

/-- Methods that are the same without their layouts differ in their layouts only. -/
theorem Method.exists_of_bare_eq {m m' : Method} (h : m.bare = m'.bare) :
    ∃ layout, m' = { m with layout } := by
  refine ⟨m'.layout, ?_⟩
  have hself : m' = { m'.bare with layout := m'.layout } := rfl
  rw [hself, ← h]
  rfl

namespace Decoding.RawCode

theorem map_snd_flatten_lines (r : RawCode) : r.lines.flatten.map Prod.snd = r.tables.lines.flatten := by
  rw [List.map_flatten]
  exact congrArg List.flatten (map_fst_flatten_numberLines r.tables.lines).2

/-- Two code attributes say the same, but for the order of the entries of their line tables. -/
structure Agrees (r r' : RawCode) : Prop where
  maxima : r.maxima = r'.maxima
  length : r.length = r'.length
  handlers : r.handlers = r'.handlers
  instructions : r.instructions = r'.instructions
  described : r.tables.described = r'.tables.described
  signatures : r.tables.signatures = r'.tables.signatures
  frames : r.tables.frames = r'.tables.frames
  lines : r.tables.lines.flatten.Perm r'.tables.lines.flatten

variable {r r' : RawCode}

/-- What is read of one method in one layout agrees. -/
theorem IsReadOf.agrees {l : Layout} {sizes : Maxima} {frames : List (Nat × Frame)} {m m' : Method}
    (h : r.IsReadOf l sizes frames m) (h' : r'.IsReadOf l sizes frames m') (hbare : m.bare = m'.bare) :
    r.Agrees r' := by
  obtain ⟨layout, rfl⟩ := Method.exists_of_bare_eq hbare
  exact {
    maxima := h.maxima.trans h'.maxima.symm
    length := h.length.trans h'.length.symm
    handlers := h.handlers.trans h'.handlers.symm
    instructions := h.instructions.trans h'.instructions.symm
    described := h.described.trans h'.described.symm
    signatures := h.signatures.trans h'.signatures.symm
    frames := h.frames.unique h'.frames
    lines := (List.map_perm_map_iff RawLine.entry_injective).1 (h.lines.trans h'.lines.symm) }

namespace Agrees

variable (h : r.Agrees r')
include h

theorem label_eq : r.label = r'.label := by
  unfold label
  rw [h.handlers, h.instructions, h.described, h.signatures, h.frames]

/-- The markers of an offset differ in the order of lines only. -/
theorem sameLines_before (seen : List (Int × Label)) (frames : List (Nat × Frame)) (offset : Int) :
    SameLines ((r.markers seen frames).before offset) ((r'.markers seen frames).before offset) := by
  have hlines (r : RawCode) : ((r.markers seen frames).lines.at_ offset).map
      (fun entry => Item.line entry.2) = ((r.tables.lines.flatten.filter fun l =>
        (l.offset : Int) = offset).map fun l => (l.line : Int)).map Item.line := by
    rw [lines_at, ← r.map_snd_flatten_lines, List.filter_map, List.map_map, List.map_map, List.map_map]
    rfl
  unfold Markers.before
  rw [labels_at, labels_at, frames_at, frames_at, hlines, hlines]
  refine ((SameLines.refl _).append (.of_perm ?_)).append (.refl _)
  exact (h.lines.filter _).map _

/-- The bodies differ in the order of lines only. -/
theorem sameLines_body (seen : List (Int × Label)) (frames : List (Nat × Frame))
    (instructions : List (Instruction Label)) :
    SameLines (r.body (r.markers seen frames) instructions)
      (r'.body (r'.markers seen frames) instructions) := by
  unfold body
  rw [h.instructions, h.length]
  refine (SameLines.flatMap _ fun p => ?_).append (h.sameLines_before seen frames _)
  exact (h.sameLines_before seen frames _).append (.refl _)

/-- Code attributes that agree are put together to the same code, but for the order of lines. -/
theorem of_assemble {registry : Label.Registry} {code code' : Code} {c c₁ c' c₁' : Cursor}
    (hcode : r.assemble registry c = .ok (code, c₁))
    (hcode' : r'.assemble registry c' = .ok (code', c₁')) :
    code.maxima = code'.maxima ∧ SameLines code.body code'.body ∧ code.handlers = code'.handlers ∧
      code.localVariables = code'.localVariables := by
  unfold assemble at hcode hcode'
  rw [h.label_eq] at hcode
  generalize r'.label.run registry = result at hcode hcode'
  obtain ⟨labelled, registry⟩ := result
  obtain ⟨_, c₂, -, hrest⟩ := Decoder.bind_eq_ok_iff.1 hcode
  obtain ⟨tables, c₃, -, hdone⟩ := Decoder.bind_eq_ok_iff.1 hrest
  obtain ⟨_, c₂', -, hrest'⟩ := Decoder.bind_eq_ok_iff.1 hcode'
  obtain ⟨tables', c₃', -, hdone'⟩ := Decoder.bind_eq_ok_iff.1 hrest'
  cases hdone
  cases hdone'
  refine ⟨h.maxima, ?_, rfl, rfl⟩
  dsimp only
  rw [(holds_weave r _ _).items, (holds_weave r' _ _).items, List.reverse_reverse, List.reverse_reverse]
  exact h.sameLines_body _ _ _

end Agrees

end Decoding.RawCode

end ClassTree
