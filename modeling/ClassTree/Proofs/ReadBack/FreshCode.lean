/-
# ClassTree.Proofs.ReadBack.FreshCode — the code of methods that are written without hints

Code that has been read is kept when it is written if its instructions keep their lengths
(`Class.exists_isKept`). It is legible in its layout then, for what can be misread of some code is
told by the offsets of its instructions, and they are those that it has been read from. Without
hints all markers of lines are in one table, and attributes that are kept as bytes stand in their
order, so what is read back of the code says the same again (`Method.IsKept.saysAgain`).
-/
import ClassTree.Proofs.Encoding.SettledCode
import ClassTree.Proofs.ReadBack.KeptCode

namespace ClassTree

open Decoding Encoding Encoder
open ModifiedUtf8 (stored)

variable {P : Pool} {t : Table}

/-! ## Written code -/

/-- Attributes with names that can be stored are stored as they are. -/
theorem Attribute.map_mapName_eq {as : List Attribute} (h : ∀ a ∈ as, a.IsDrawn) :
    as.map (Attribute.mapName stored) = as := by
  refine (List.map_congr_left fun a ha => ?_).trans (List.map_id as)
  unfold Attribute.mapName
  rw [(h a ha).name.stored_eq]
  rfl

namespace Encoding

/-- Without a hint all markers are in one table, if there are any. -/
theorem SharedOut.flatten_eq {lines : List (Nat × Int)} {tables : List (List (Nat × Int))}
    (h : SharedOut lines [] tables) : tables.flatten = lines := by
  by_cases hnone : NamesAll lines.length []
  · obtain rfl := List.forall₂_nil_left_iff.1 (h.named hnone)
    exact (List.nil_perm.1 h.perm).symm
  · rw [h.unnamed hnone, gathered]
    cases lines with
    | nil => rfl
    | cons line lines => exact List.append_nil _

section

variable {owner : Text} {verify stackMaps : Bool} {m : Method}

/-- Without hints the lines and the attributes that are kept as bytes are read back in their order.
-/
theorem CodeParts.inOrder_of_readRawCode (parts : CodeParts owner verify stackMaps m.bare P)
    (ht : Backs stored t P) (hraw : ∀ a ∈ m.codeAttributes, a.name ∉ AttributeName.ofCode)
    (hdrawn : ∀ a ∈ m.codeAttributes, a.IsDrawn) {r : RawCode}
    (h : Outline.whole (readRawCode t) parts.bytes = .ok r) :
    r.tables.lines.flatten.map RawLine.entry = (linesOf parts.layout m.body).toList ∧
      r.tables.attributes = m.codeAttributes := by
  obtain ⟨outline, hshown, hholds⟩ := parts.exists_shownBy_of_readRawCode ht h
  have hread := hholds.attributes
  have hshared := parts.sharedOut_of_readAll hraw hshown hread
  rw [hshown.attributes] at hread
  have hkept := keepsRaw_readCodeAttribute.eq_map (arePiecesAround_codePieces (m := m.bare) _ _ hraw)
    parts.writes hread rfl
  refine ⟨?_, hkept.trans (Attribute.map_mapName_eq hdrawn)⟩
  rw [List.map_flatten]
  exact SharedOut.flatten_eq hshared

end

end Encoding

/-! ## Where code was read -/

namespace Decoding

/-- The code of a method is put together of its last code attribute, with labels that are named
after the method. -/
theorem exists_assemble_of_readAll {as : List Attribute} {m m' : Method}
    (h : Attribute.readAll (readMethodAttribute t) as m = .ok m') {a : Attribute}
    (ha : (as.filter fun a => a.name = AttributeName.code).getLast? = some a) {r : RawCode} {code : Code}
    (hr : Outline.whole (readRawCode t) a.data = .ok r) (hcode : m'.code? = some code) :
    ∃ c, r.assemble { place := m.name ++ m.descriptor } c = .ok (code, c) := by
  obtain ⟨earlier, hearlier⟩ := List.getLast?_eq_some_iff.1 ha
  obtain ⟨before, rest, rfl, -, hrest⟩ := List.filter_eq_append_iff.1 hearlier
  obtain ⟨between, after, rfl, -, hname, hafter⟩ := List.filter_eq_cons_iff.1 hrest
  rw [← List.append_assoc] at h
  obtain ⟨m₁, m₂, hbefore, hread, hlast⟩ := readAll_append_cons h
  obtain ⟨-, hsame, hdescriptor, -⟩ : _ ∧ _ ∧ _ ∧ _ := by
    simpa only [Prod.mk.injEq] using methodHead_eq_of_readAll hbefore
  unfold readMethodAttribute at hread
  rw [if_pos (of_decide_eq_true hname)] at hread
  obtain ⟨r', code', c, hr', hassemble, rfl⟩ := exists_of_readMethodCode hread
  obtain rfl : r' = r := Except.ok.inj (hr'.symm.trans hr)
  -- no attribute behind it changes the code
  have hkept := observe_eq_of_readAll Method.code? hlast fun b hb s s' hb' => by
    have hne : b.name ≠ AttributeName.code := fun heq => by
      simpa [heq] using List.filter_eq_nil_iff.1 hafter b hb
    obtain ⟨k, hb', -⟩ := whole_eq_ok_iff.1 hb'
    exact (keepsCode_readMethodAttribute hne _ _ _ _ _ (Cursor.isIn_drop b.data 0) hb').code?_eq
  obtain rfl : code' = code := Option.some.inj (hkept.symm.trans hcode)
  rw [← hsame, ← hdescriptor]
  exact ⟨c, hassemble⟩

end Decoding

/-- The code of a method that has been read keeps its lengths when it is written. -/
structure Method.IsKept (P : Pool) (m : Method) (r : RawCode) (code : Code) (layout : Layout) : Prop where
  code? : m.code? = some code
  kept : ∃ seen l, r.IsKeptIn seen l code P layout
  assembles : ∃ c, r.assemble { place := m.name ++ m.descriptor } c = .ok (code, c)
  raw : ∀ a ∈ m.codeAttributes, a.name ∉ AttributeName.ofCode

/-- The table that a class has been read with is drawn from its file. -/
theorem Decoding.isDrawn_of_isReadAs {file : Bytes} {c : Class} (hread : Class.ofBytes file = .ok c)
    {o : Outline} (ho : Outline.ofBytes file = .ok o) (h : o.IsReadAs c t) : t.IsDrawn where
  isReadable := isReadable_of_isReadAs ho h
  bootstrap b hb := by
    rw [h.table] at hb
    exact (Class.isDrawn_of_ofBytes hread).1.bootstrap b (List.mem_toArray.1 hb)

/-- Instructions that have been read have the targets that their keys ask for. -/
theorem Attribute.HoldsCode.hasTargets {a : Attribute} {r : RawCode} {outline : CodeOutline}
    (h : a.HoldsCode t r outline) (ht : t.IsReadable) : ∀ p ∈ r.instructions, p.2.HasTargets := by
  obtain ⟨k, hwhole, -⟩ := whole_eq_ok_iff.1 h.whole
  obtain ⟨-, -, -, -, ⟨k', hinstructions⟩, -⟩ := (readRawCode_eq_ok_iff t).1 hwhole
  exact ((finds_hasTargets_readOperations ht r.length).of_eq_ok hinstructions).2

/-- Code that has been read is kept in a layout in which its instructions have the lengths that they
had. -/
theorem Attribute.HoldsCode.isKeptIn {a : Attribute} {r : RawCode} {outline : CodeOutline}
    (h : a.HoldsCode t r outline) (ht : t.IsDrawn) {seen : List (Int × Label)} {l : LabelledCode}
    {code : Code}
    (hassembles : r.Assembles seen l code) {layout : Layout}
    (hfixed : Fixed P (Layout.of code.body) layout)
    (hlengths : layout.lengthsFrom 0 code.body = r.lengths) : r.IsKeptIn seen l code P layout := by
  obtain ⟨k₁, hwhole, -⟩ := whole_eq_ok_iff.1 h.whole
  have hbetween := (readRawCode_eq_ok_iff t).1 hwhole
  obtain ⟨-, -, -, -, ⟨k₂, hinstructions⟩, -⟩ := hbetween
  obtain ⟨tables, -, hsignatures⟩ := h.adds.signatures
  exact {
    assembles := hassembles
    isSound := h.isSound ht.isReadable
    isDrawn := ((finds_drawn_readRawCode ht).of_eq_ok hwhole).2
    start := h.startOf_eq
    targets := h.hasTargets ht.isReadable
    inside := inside_of_readOperations hinstructions
    short := forall₂_hasShortLength ht.isReadable hinstructions
    fixed := hfixed
    lengths := hlengths
    signatures := hsignatures ▸ nodup_foldl_putSignature _ List.nodup_nil
    frames := ((finds_areSpaced_readRawCode ht.isReadable).of_eq_ok hwhole).2 }

/-- Code that has been read is kept if its instructions keep their lengths. -/
theorem Class.exists_isKept {file : Bytes} {c : Class} (hread : Class.ofBytes file = .ok c) {k : Nat}
    {m : Method} (hm : c.methods[k]? = some m) (hcode : m.hasCode = true)
    (hlengths : ∀ t r outline, c.HasCodeAt file k t r outline → r.KeepsLengths P m) :
    ∃ r code layout, m.IsKept P r code layout := by
  obtain ⟨t, r, outline, seen, l, code, hat, ht, hassembles, hm'⟩ :=
    Class.exists_hasCodeAt hread hm hcode
  obtain ⟨layout, hfixed, hsame⟩ := hlengths t r outline hat
  obtain ⟨o, member, a, ho, hparts, hmember, ha, hholds⟩ := hat.parts
  obtain ⟨hbody, -, hattributes, -⟩ := Method.eq_of_code? hm'
  rw [hbody] at hfixed hsame
  obtain ⟨raw, hraw, hnames⟩ := hholds.adds.attributes
  have hkept := hholds.isKeptIn (isDrawn_of_isReadAs hread ho hparts) hassembles hfixed hsame
  refine ⟨r, code, layout, hm', ⟨seen, l, hkept⟩, ?_, ?_⟩
  · -- the method has the name and the descriptor of its head
    obtain ⟨hk, heq⟩ := List.getElem?_eq_some_iff.1 hm
    obtain ⟨hk', heq'⟩ := List.getElem?_eq_some_iff.1 hmember
    have hmethod := hparts.methods.get hk' hk
    simp only [List.get_eq_getElem, heq, heq'] at hmethod
    obtain ⟨types, -, hall⟩ := hmethod.attributes
    obtain ⟨-, hname, hdescriptor, -⟩ : _ ∧ _ ∧ _ ∧ _ := by
      simpa only [Prod.mk.injEq] using methodHead_eq_of_readAll hall
    rw [hname, hdescriptor]
    exact exists_assemble_of_readAll hall ha hholds.whole hm'
  · intro a ha
    rw [hattributes, hassembles.attributes, hraw] at ha
    exact hnames a ha

/-! ## Kept code can be read -/

theorem Opcode.isNear_of_isConditional {op : Opcode} : op.isConditional = true →
    op.family = .jump ∧ op.isFar = false := by
  cases op <;> first | exact fun _ => ⟨rfl, rfl⟩ | exact nofun

/-- A frame with labels is legible if it has what belongs to its kind. -/
theorem Frame.HasForm.isLegible_of_matches {R : Int → Label → Prop} {f f' : Frame} (h : f.HasForm)
    (hmatches : f.Matches R f') : f'.IsLegible := by
  obtain ⟨kind, locals, stack, chop⟩ := f
  obtain ⟨kind', locals', stack', chop'⟩ := f'
  obtain ⟨rfl, hlocals, -, rfl⟩ := hmatches
  cases kind with
  | chop =>
    obtain ⟨-, -, hlow, hhigh⟩ := h
    dsimp only at hlow hhigh
    exact ⟨by dsimp only; omega, hhigh⟩
  | append =>
    obtain ⟨⟨-, hhigh⟩, -, -⟩ := h
    have hlength := hlocals.length_eq
    dsimp only at hlength hhigh
    exact (hlength ▸ hhigh : locals'.length ≤ 3)
  | _ => trivial

/-- What stands in front of the end in a layout is followed by an instruction. -/
theorem Encoding.Layout.isFollowed_of_offset_lt {layout : Layout} {body : List Item}
    (hl : Fixed P (Layout.of body) layout) {position : Nat} (hle : position ≤ body.length)
    (h : layout.offset position < layout.offset body.length) : IsFollowed body position := by
  by_contra hnone
  -- only markers stand between the position and the end then, and those take no room
  have hmarkers : ∀ item ∈ body.drop position, item.isMarker = true := by
    intro item hitem
    cases item with
    | instruction i => exact absurd ⟨i, hitem⟩ hnone
    | _ => rfl
  have hsame := Layout.offset_takeWhile hl (List.take_append_drop position body).symm
  rw [List.takeWhile_eq_self_iff.2 hmarkers, List.length_take_of_le hle, List.length_drop,
    Nat.add_sub_cancel' hle] at hsame
  exact Nat.ne_of_gt h hsame

namespace Decoding.RawCode.IsKeptIn

variable {r : RawCode} {seen : List (Int × Label)} {l : LabelledCode} {code : Code} {layout : Layout}
  (h : r.IsKeptIn seen l code P layout)
include h

theorem hasTargets {i : Instruction Label} (hi : .instruction i ∈ code.body) : i.HasTargets := by
  obtain ⟨p, hp, hmatches⟩ := h.exists_of_mem_body hi
  exact hmatches.hasTargets (h.targets p hp)

theorem inFamily {i : Instruction Label} (hi : .instruction i ∈ code.body) : i.InFamily := by
  obtain ⟨p, hp, hmatches⟩ := h.exists_of_mem_body hi
  exact inFamily_of_isSound (hmatches.isSound (h.isSound.instructions p hp))

theorem isFollowed {position : Nat} {item : Item} (hat : code.body[position]? = some item)
    (hinside : layout.offset position < r.length) : IsFollowed code.body position := by
  obtain ⟨hlt, -⟩ := List.getElem?_eq_some_iff.1 hat
  exact Layout.isFollowed_of_offset_lt h.fixed (Nat.le_of_lt hlt) (h.offset_length ▸ hinside)

theorem lt_length {offset : Nat} (hoffset : r.HasOffset offset) : offset < r.length := by
  obtain ⟨p, hp, heq⟩ := hoffset
  exact Int.ofNat.inj heq ▸ h.isSound.inOrder.inside p hp

/-- A frame of the body is one that has been read, at its offset. -/
theorem exists_of_frame {position : Nat} {f : Frame} (hat : code.body[position]? = some (.frame f)) :
    ∃ raw ∈ r.tables.frames, raw.offset = layout.offset position ∧ raw.frame.Matches (Known seen) f := by
  have hmem : (layout.offset position, f) ∈ l.frames := by
    rw [← h.map_ownFrames]
    refine List.mem_map.2 ⟨(position, f), List.mem_filterMap.2 ⟨(.frame f, position), ?_, rfl⟩, rfl⟩
    exact List.mem_zipIdx_iff_getElem?.2 hat
  exact Result.exists_of_mem_right h.assembles.labelled.frames hmem

/-- A line of the body is one that has been read, at its offset. -/
theorem hasOffset_of_line {position : Nat} {n : Int} (hat : code.body[position]? = some (.line n)) :
    r.HasOffset (layout.offset position) := by
  have hmem : (layout.offset position, n) ∈ (linesOf layout code.body).toList := by
    rw [Encoding.toList_linesOf]
    refine List.mem_filterMap.2 ⟨(layout.offset position, .line n), ?_, rfl⟩
    refine List.mem_map.2 ⟨(.line n, position), ?_, rfl⟩
    exact List.mem_zipIdx_iff_getElem?.2 hat
  rw [h.toList_linesOf] at hmem
  obtain ⟨e, he, heq⟩ := List.mem_map.1 hmem
  obtain ⟨o, -, he⟩ := List.mem_flatMap.1 he
  have hraw := (List.mem_filter.1 he).1
  rw [← r.map_snd_flatten_lines] at hraw
  obtain ⟨p, hp, rfl⟩ := List.mem_map.1 hraw
  obtain ⟨table, htable, hp⟩ := List.mem_flatten.1 hp
  obtain ⟨hoffset, -⟩ := Prod.mk.inj heq
  exact hoffset ▸ h.assembles.checked.lines table htable p hp

/-- The body is legible in its layout. -/
theorem legibleIn : LegibleIn layout code.body where
  switches i hi := h.hasTargets hi
  targets i hi label hlabel position hat := by
    obtain ⟨p, hp, hmatches⟩ := h.exists_of_mem_body hi
    obtain ⟨target, htarget, hknown⟩ := Result.exists_of_mem_right hmatches.targets hlabel
    have hunique := existsUnique_label (h.assembles.nodup_definitions h.isSound.inOrder)
      (h.assembles.mem_definitions hknown)
    have hresolve : layout.resolve label = .ok (layout.offset position) := by
      obtain ⟨rooms, far, -, -, rfl, -⟩ := Layout.fixed_of h.fixed
      exact resolve_of_existsUnique hunique hat
    obtain ⟨n, rfl, hn⟩ := h.exists_resolve_eq hknown
    obtain rfl : n = layout.offset position := Except.ok.inj (hn.symm.trans hresolve)
    exact h.isFollowed hat (Int.ofNat_lt.1 (h.inside p hp _ htarget).2)
  conditionals position i hat hconditional hfar := by
    obtain ⟨hjump, hop⟩ := Opcode.isNear_of_isConditional hconditional
    have hfamily := (h.inFamily (List.mem_of_getElem? hat)).symm.trans hjump
    cases i with
    | jump op target =>
      rw [(h.isShortAt hat).near op target rfl hop] at hfar
      cases hfar
    | _ => cases hfamily
  lines position n hat := h.isFollowed hat (h.lt_length (h.hasOffset_of_line hat))
  frames position f hat := by
    obtain ⟨raw, hraw, hoffset, hmatches⟩ := h.exists_of_frame hat
    have hlt := h.lt_length (h.assembles.checked.frames raw hraw)
    rw [hoffset] at hlt
    exact ⟨h.isFollowed hat hlt, (h.frames.hasForm raw hraw).isLegible_of_matches hmatches⟩

end Decoding.RawCode.IsKeptIn

/-! ## Kept code is read back -/

namespace Method.IsKept

variable {m : Method} {r : RawCode} {code : Code} {layout : Layout} (h : m.IsKept P r code layout)
include h

theorem hasClearCode : m.bare.HasClearCode := by
  obtain ⟨seen, l, hkept⟩ := h.kept
  obtain ⟨hbody, -⟩ := Method.eq_of_code? h.code?
  have hlegible := hbody ▸ hkept.legibleIn
  exact {
    families := fun i hi => hkept.inFamily (hbody ▸ hi)
    targets := hlegible.switches
    frames := fun f hf => by
      obtain ⟨position, hat⟩ := List.mem_iff_getElem?.1 hf
      exact (hlegible.frames position f hat).2
    raw := h.raw }

/-- Constants of the short form have short indices. -/
theorem loadsShort : ∀ i, .instruction i ∈ m.body → LoadsShort P i := by
  intro i hi
  obtain ⟨seen, l, hkept⟩ := h.kept
  obtain ⟨hbody, -⟩ := Method.eq_of_code? h.code?
  rw [hbody] at hi
  obtain ⟨position, hat⟩ := List.mem_iff_getElem?.1 hi
  exact (hkept.isShortAt hat).loads

/-- What is read of the parts of kept code says the same again. -/
theorem saysAgain (ht : Backs stored t P) (hsites : HasSites t P) (hproper : m.IsProper)
    (hdrawn : m.IsDrawn) (hfields : ∀ i, .instruction i ∈ m.body → i.NamesFields)
    (htypes : ∀ handler ∈ m.handlers, handler.type ≠ some []) {owner : Text} {stackMaps : Bool}
    (parts : CodeParts owner false stackMaps m.bare P) {r' : RawCode}
    (hread : Outline.whole (readRawCode t) parts.bytes = .ok r') : r.SaysAgain r' := by
  obtain ⟨seen, l, hkept⟩ := h.kept
  obtain ⟨hbody, -, hattributes, -⟩ := Method.eq_of_code? h.code?
  obtain ⟨maxima, hmaxima, rfl⟩ := Option.map_eq_some_iff.1 h.code?
  have hfixed : Fixed P (Layout.of m.body) layout := hkept.fixed
  obtain rfl : parts.layout = layout := parts.fixed_layout.unique hfixed
  obtain ⟨hsizes, hframes⟩ : parts.sizes = maxima ∧ parts.frames = ownFrames m.body := by
    have hverified := parts.verified_eq.symm.trans (verified_false (m := m.bare) hmaxima)
    exact Prod.mk.inj (Except.ok.inj hverified)
  obtain ⟨hlines, hraw⟩ := parts.inOrder_of_readRawCode ht h.raw hdrawn.codeAttributes hread
  have hback : r'.IsReadOf parts.layout parts.sizes parts.frames m :=
    { parts.isReadOf ht hsites h.loadsShort h.hasClearCode hread with }
  exact hkept.saysAgain h.code? hback hsizes hframes hlines hraw hproper.items hfields htypes

end Method.IsKept

end ClassTree
