/-
# ClassTree.Proofs.Acceptance.Code — the code of a written method is read

The tables around the instructions of a method are read with the offsets of items of the body. An
item stands at an instruction or at the end of the code, and where the reader asks for an
instruction a legible body has one; so everything is placed, and the code attribute can be put
together.
-/
import ClassTree.Proofs.Acceptance.Body
import ClassTree.Proofs.Acceptance.StackMap
import ClassTree.Proofs.Attributes
import ClassTree.Proofs.Class.Sound
import ClassTree.Proofs.Decoding.Assembly
import ClassTree.Proofs.Decoding.Raw
import ClassTree.Proofs.Encoding.Code

namespace ClassTree

open Decoding Encoding Encoder
open ModifiedUtf8 (stored IsPlain isPlain_ofString)

variable {P : Pool} {t : Table} {l : Layout} {body : List Item} {bytes : Bytes}

/-- A name as it is read back where an empty one counts as missing. -/
def Encoding.storedName : Option Text → Option Text
  | some (c :: rest) => some (stored (c :: rest))
  | _ => none

/-- A class that may be missing is looked up. -/
theorem Decoding.Backs.reads_classIndex (ht : Backs stored t P) {name : Option Text} {i : Nat}
    (h : Fixed P (classIndex name) i) : Reads (t.className i) [] (storedName name) := by
  have hmissing : Reads (t.className 0) [] none := fun position rest => rfl
  match name, h with
  | none, h =>
    obtain rfl := fixed_pure_iff.1 h
    exact hmissing
  | some [], h =>
    obtain rfl := fixed_pure_iff.1 h
    exact hmissing
  | some (c :: rest), h =>
    obtain ⟨s, hs, hread⟩ := ht.reads_className h
    cases hs
    exact hread

namespace Encoding

/-! ## Tables -/

/-- A handler whose places are offsets of items. -/
def IsPlacedHandler (l : Layout) (h : RawHandler) : Prop :=
  (∃ position, h.start = l.offset position) ∧ (∃ position, h.stop = l.offset position) ∧
    ∃ position, h.target = l.offset position

/-- The offset that a label leads to, if it leads anywhere. -/
def Layout.labelOffset (l : Layout) (label : Label) : Nat := l.labels[label]?.getD 0

theorem Layout.labelOffset_eq {label : Label} {offset : Nat} (h : l.resolve label = .ok offset) :
    l.labelOffset label = offset := by
  rw [Layout.labelOffset, Layout.resolve_eq_ok_iff.1 h, Option.getD_some]

/-- A handler as it is read back. -/
def rawHandler (l : Layout) (h : Handler) : RawHandler where
  start := l.labelOffset h.start
  stop := l.labelOffset h.stop
  target := l.labelOffset h.target
  type := storedName h.type

/-- A handler is read, with offsets of items for its labels. -/
theorem reads_readHandler (ht : Backs stored t P) (hl : Fixed P (Layout.of body) l) {h : Handler}
    (hbytes : Fixed P (handler l h) bytes) :
    Reads (readHandler t) bytes (rawHandler l h) ∧ IsPlacedHandler l (rawHandler l h) := by
  have hplace {label : Label} {offset : Nat} (hresolve : l.resolve label = .ok offset) :
      ∃ position, l.labelOffset label = l.offset position := by
    obtain ⟨position, -, hoffset⟩ := Layout.exists_of_resolve hl hresolve
    exact ⟨position, (Layout.labelOffset_eq hresolve).trans hoffset⟩
  rw [handler_eq] at hbytes
  simp only [fixed_bind_iff, fixed_lift_iff, fixed_u2_iff, fixed_pure_iff] at hbytes
  obtain ⟨start, hstart, stop, hstop, target, htarget, type, htype, a, ha, b, hb, c, hc, d, hd, rfl⟩ :=
    hbytes
  refine ⟨?_, hplace hstart, hplace hstop, hplace htarget⟩
  rw [rawHandler, Layout.labelOffset_eq hstart, Layout.labelOffset_eq hstop,
    Layout.labelOffset_eq htarget, List.append_assoc, List.append_assoc]
  refine (Reads.of_unsigned? ha).bind ((Reads.of_unsigned? hb).bind ?_)
  refine (Reads.of_unsigned? hc).bind ?_
  exact (Reads.of_unsigned? hd).bind_nil ((ht.reads_classIndex htype).map _)

theorem reads_handlers (ht : Backs stored t P) (hl : Fixed P (Layout.of body) l) {hs : List Handler}
    (h : Fixed P (Encoder.listOf (handler l) hs) bytes) :
    Reads (Decoder.listOf (readHandler t)) bytes (hs.map (rawHandler l)) ∧
      ∀ h ∈ hs.map (rawHandler l), IsPlacedHandler l h := by
  obtain ⟨count, hcount, parts, hparts, rfl⟩ := fixed_listOf_iff.1 h
  have hlength : (hs.map (rawHandler l)).length = hs.length := List.length_map _
  refine ⟨Reads.listOf (hlength ▸ hcount) ?_, fun r hr => ?_⟩
  · rw [List.forall₂_map_right_iff]
    exact hparts.flip.imp fun _ _ hpart => (reads_readHandler ht hl hpart).1
  · obtain ⟨own, hown, rfl⟩ := List.mem_map.1 hr
    obtain ⟨part, -, hpart⟩ := Result.exists_of_mem_left hparts hown
    exact (reads_readHandler ht hl hpart).2

theorem parses_lineTable {entries : List (Nat × Int)} (h : Fixed P (lineTable entries) bytes) :
    Parses True (Decoder.listOf readLine) bytes fun lines =>
      ∀ line ∈ lines, ∃ entry ∈ entries, line.offset = entry.1 := by
  obtain ⟨count, hcount, parts, hparts, rfl⟩ := fixed_listOf_iff.1 h
  have hread : List.Forall₂ (fun (entry : Nat × Int) part =>
      Parses True readLine part fun line => line.offset = entry.1) entries parts := by
    refine hparts.imp fun entry part hpart => ?_
    simp only [fixed_bind_iff, fixed_u2_iff, fixed_pure_iff] at hpart
    obtain ⟨offset, hoffset, line, hline, rfl⟩ := hpart
    refine .of_reads (Reads.of_unsigned? hoffset) ?_
    exact ((Reads.unsigned (length_of_unsigned? hline)).map _).parses rfl
  exact (Parses.listOf hcount hread).imp fun lines hlines line hline =>
    Result.exists_of_mem_right hlines hline

/-- A variable whose range goes from the offset of an item to that of another. -/
def IsPlacedVariable (l : Layout) (v : RawVariable) : Prop :=
  (∃ position, v.start = l.offset position) ∧ ∃ position, v.start + v.length = l.offset position

/-- A local variable with a type of some sort as it is read back. -/
def rawVariable (l : Layout) (p : LocalVariable × Text) : RawVariable where
  start := l.labelOffset p.1.start
  length := l.labelOffset p.1.stop - l.labelOffset p.1.start
  name := stored p.1.name
  descriptor := stored p.2
  slot := p.1.slot.toNat

/-- A variable is read, with offsets of items for its labels. -/
theorem reads_readVariable (ht : Backs stored t P) (hl : Fixed P (Layout.of body) l)
    {p : LocalVariable × Text} (h : Fixed P (localVariable l p.1 p.2) bytes) :
    Reads (readVariable t) bytes (rawVariable l p) ∧ IsPlacedVariable l (rawVariable l p) := by
  unfold localVariable at h
  simp only [fixed_bind_iff, fixed_lift_iff, fixed_addUtf8_iff, fixed_u2_iff, fixed_pure_iff] at h
  obtain ⟨start, hstart, stop, hstop, n, hn, d, hd, a, ha, b, hb, c, hc, e, he, f, hf, rfl⟩ := h
  obtain ⟨first, -, hfirst⟩ := Layout.exists_of_resolve hl hstart
  obtain ⟨last, -, hlast⟩ := Layout.exists_of_resolve hl hstop
  have hlength := exists_nat_of_unsigned? hb
  have hslot := exists_nat_of_unsigned? hf
  simp only [rawVariable, IsPlacedVariable, Layout.labelOffset_eq hstart, Layout.labelOffset_eq hstop]
  refine ⟨?_, ⟨first, hfirst⟩, last, by omega⟩
  have hb' : b.toNat = stop - start := by omega
  have hf' : f.toNat = p.1.slot.toNat := by omega
  rw [← hb', ← hf']
  simp only [List.append_assoc]
  refine (Reads.of_unsigned? ha).bind ?_
  refine (Reads.unsigned (length_of_unsigned? hb)).bind ?_
  refine (Reads.of_unsigned? hc).bind ((Reads.of_unsigned? he).bind ?_)
  exact (Reads.unsigned (length_of_unsigned? hf)).bind_nil
    (.nil_bind (ht.reads_utf8 hn) ((ht.reads_utf8 hd).map _))

/-- A signature that is put among others is one of those that are there then. -/
theorem mem_putSignature {signatures : List RawVariable} {v w : RawVariable}
    (hw : w ∈ putSignature signatures v) : w ∈ signatures ∨ w = v := by
  unfold putSignature at hw
  split at hw
  · obtain ⟨u, hu, rfl⟩ := List.mem_map.1 hw
    split
    · exact .inr rfl
    · exact .inl hu
  · simpa using hw

/-- Only signatures that were there or have been put there are there in the end. -/
theorem mem_foldl_putSignature {more signatures : List RawVariable} {w : RawVariable}
    (hw : w ∈ more.foldl putSignature signatures) : w ∈ signatures ∨ w ∈ more := by
  induction more generalizing signatures with
  | nil => exact .inl hw
  | cons v more ih =>
    rcases ih hw with hw | hw
    · rcases mem_putSignature hw with hw | rfl
      · exact .inl hw
      · exact .inr (List.mem_cons_self ..)
    · exact .inr (List.mem_cons_of_mem v hw)

/-! ## Attributes -/

/-- The tables that have been read refer to offsets of items: lines to those of line markers, frames
to those of frames. -/
structure ArePlaced (body : List Item) (l : Layout) (frames : List (Nat × Frame))
    (tables : CodeTables) : Prop where
  lines : ∀ table ∈ tables.lines, ∀ line ∈ table, ∃ (position : Nat) (n : Int),
    body[position]? = some (.line n) ∧ line.offset = l.offset position
  locals : ∀ v ∈ tables.described ++ tables.signatures, IsPlacedVariable l v
  frames : ∀ f ∈ tables.frames, IsPlacedFrame l frames f

variable {place : Text} {frames : List (Nat × Frame)} {m : Method}

theorem readsContent_lineTable {indices : List Nat} :
    ReadsContent P (readCodeAttribute t) (ArePlaced body l frames) AttributeName.lineNumbers
      (lineTable (indices.filterMap fun i => (linesOf l body)[i]?)) := by
  intro data tables hdata htables
  unfold readCodeAttribute
  rw [if_pos rfl]
  refine (parses_lineTable hdata).map _ fun lines hlines => ⟨?_, htables.locals, htables.frames⟩
  intro table htable line hline
  rcases List.mem_append.1 htable with htable | htable
  · exact htables.lines table htable line hline
  · obtain rfl := List.mem_singleton.1 htable
    obtain ⟨entry, hentry, hoffset⟩ := hlines line hline
    obtain ⟨i, -, hi⟩ := List.mem_filterMap.1 hentry
    obtain ⟨position, hat, heq⟩ := exists_of_mem_linesOf (Array.mem_of_getElem? hi)
    exact ⟨position, entry.2, hat, hoffset.trans heq⟩

theorem reads_variables (ht : Backs stored t P) (hl : Fixed P (Layout.of body) l)
    {typed : List (LocalVariable × Text)}
    (h : Fixed P (Encoder.listOf (fun (v, type) => localVariable l v type) typed) bytes) :
    Reads (Decoder.listOf (readVariable t)) bytes (typed.map (rawVariable l)) ∧
      ∀ v ∈ typed.map (rawVariable l), IsPlacedVariable l v := by
  obtain ⟨count, hcount, parts, hparts, rfl⟩ := fixed_listOf_iff.1 h
  have hlength : (typed.map (rawVariable l)).length = typed.length := List.length_map _
  refine ⟨Reads.listOf (hlength ▸ hcount) ?_, fun v hv => ?_⟩
  · rw [List.forall₂_map_right_iff]
    exact hparts.flip.imp fun _ _ hpart => (reads_readVariable ht hl hpart).1
  · obtain ⟨own, hown, rfl⟩ := List.mem_map.1 hv
    obtain ⟨part, -, hpart⟩ := Result.exists_of_mem_left hparts hown
    exact (reads_readVariable ht hl hpart).2

/-- Every attribute of legible code is read, and the tables stay placed. -/
theorem readsPieces_codePieces (ht : Backs stored t P) (hl : Fixed P (Layout.of m.body) l)
    (hframes : ∀ f ∈ frames, IsLegibleFrame m.body f)
    (hraw : ∀ a ∈ m.codeAttributes, a.name ∉ AttributeName.ofCode) :
    ReadsPieces P (readCodeAttribute t) (ArePlaced m.body l frames)
      (codePieces m l place frames) := by
  have hlines : IsPlain AttributeName.lineNumbers := isPlain_ofString (by decide)
  have hlocals : IsPlain AttributeName.localVariables := isPlain_ofString (by decide)
  have htypes : IsPlain AttributeName.localVariableTypes := isPlain_ofString (by decide)
  refine .append (.append (.append (.append ?lines ?locals) ?types) ?stackMap) ?raw
  case lines =>
    intro p hp
    obtain ⟨indices, -, rfl⟩ := List.mem_map.1 hp
    exact .of_isPlain hlines readsContent_lineTable
  case locals =>
    refine .pieceIf hlocals fun _ data tables hdata htables => ?_
    unfold readCodeAttribute
    rw [if_neg (by decide), if_pos rfl]
    obtain ⟨hread, hvs⟩ := reads_variables ht hl hdata
    refine (hread.map _).parses ⟨htables.lines, ?_, htables.frames⟩
    intro v hv
    rcases List.mem_append.1 hv with hv | hv
    · rcases List.mem_append.1 hv with hv | hv
      · exact htables.locals v (List.mem_append_left _ hv)
      · exact hvs v hv
    · exact htables.locals v (List.mem_append_right _ hv)
  case types =>
    refine .pieceIf htypes fun _ data tables hdata htables => ?_
    unfold readCodeAttribute
    rw [if_neg (by decide), if_neg (by decide), if_pos rfl]
    obtain ⟨hread, hvs⟩ := reads_variables ht hl hdata
    refine (hread.map _).parses ⟨htables.lines, ?_, htables.frames⟩
    intro v hv
    rcases List.mem_append.1 hv with hv | hv
    · exact htables.locals v (List.mem_append_left _ hv)
    · rcases mem_foldl_putSignature hv with hv | hv
      · exact htables.locals v (List.mem_append_right _ hv)
      · exact hvs v hv
  case stackMap =>
    refine .pieceIf isPlain_stackMap fun _ data tables hdata htables => ?_
    unfold readCodeAttribute
    rw [if_neg (by decide), if_neg (by decide), if_neg (by decide), if_pos rfl]
    exact (parses_readStackMap_of_isLegible ht hl (fun f hf => (hframes f hf).isLegible)
      (fun f hf => (hframes f hf).hasTag) hdata).map _ fun raws hraws =>
        ⟨htables.lines, htables.locals, hraws⟩
  case raw =>
    refine .raw (fun n hn => AttributeName.isPlain_of_mem (List.mem_append_right _ hn)) hraw ?_
    intro name hname data tables htables
    rw [readCodeAttribute_of_notMem _ _ hname]
    exact ((Reads.bytes data).map _).parses ⟨htables.lines, htables.locals, htables.frames⟩

/-! ## The attribute -/

/-- A sound instruction is of the shape of its code. -/
theorem inFamily_of_isSound {τ : Type} {i : Instruction τ} (h : i.IsSound) : i.InFamily := by
  cases i with
  | plain op | constant op value | type op name | field op owner name descriptor
  | method op owner name descriptor interface | jump op target => exact h
  | immediate op n | «variable» op slot => exact h.1
  | _ => rfl

/-- What is read of legible code is placed: every handler, line, variable and frame of it stands at
the offset of an item, and the offsets at which instructions start are those of the layout. So
nothing is refused when the code is put together. -/
theorem isPlaced_of_arePlaced {code : List (Nat × Instruction Int)} (hread : IsRead t body l bytes code)
    (hl : Fixed P (Layout.of body) l) (hend : l.offset body.length = bytes.length)
    (hbody : LegibleIn l body) (hframes : ∀ f ∈ frames, IsLegibleFrame body f) (maxima : Maxima)
    (start : Nat) {handlers : List RawHandler} (hhandlers : ∀ h ∈ handlers, IsPlacedHandler l h)
    {tables : CodeTables} (htables : ArePlaced body l frames tables) :
    RawCode.IsPlaced ⟨maxima, start, bytes.length, handlers, code, tables⟩ := by
  have hat {offset : Nat} (hoffset : ∃ position, offset = l.offset position) :
      (∃ p ∈ code, (p.1 : Int) = offset) ∨ (offset : Int) = bytes.length := by
    obtain ⟨position, rfl⟩ := hoffset
    rcases hread.exists_or_eq_length hl hend position with ⟨j, hj⟩ | heq
    · exact .inl ⟨_, hj, rfl⟩
    · exact .inr (congrArg Nat.cast heq)
  have hfollowed {offset position : Nat} (hoffset : offset = l.offset position)
      (hposition : IsFollowed body position) : ∃ p ∈ code, (p.1 : Int) = offset := by
    obtain ⟨j, hj⟩ := hread.exists_of_isFollowed hl hposition
    exact ⟨_, hj, congrArg Nat.cast hoffset.symm⟩
  refine ⟨⟨?handlers, ?instructions, ?locals, ?types⟩, ?frames, ?lines⟩
  case handlers =>
    intro h hh
    obtain ⟨hstart, hstop, htarget⟩ := hhandlers h hh
    exact ⟨hat hstart, hat hstop, hat htarget⟩
  case instructions =>
    intro p hp target htarget
    exact .inl (hread.exists_of_isTarget hl hbody (hread.targets p hp target htarget))
  case locals =>
    intro v hv
    obtain ⟨hstart, hstop⟩ := htables.locals v hv
    exact ⟨hat hstart, hat hstop⟩
  case types => exact fun f hf v hv p hp => hat ((htables.frames f hf).types v hv p hp)
  case frames =>
    intro f hf
    obtain ⟨own, hown, hoffset⟩ := (htables.frames f hf).offset
    exact hfollowed hoffset (hframes own hown).isFollowed
  case lines =>
    intro table htable line hline
    obtain ⟨position, n, hposition, hoffset⟩ := htables.lines table htable line hline
    exact hfollowed hoffset (hbody.lines position n hposition)

/-- The handlers and the tables of a code attribute are read ahead of its instructions. -/
theorem readRawCode_eq (t : Table) : readRawCode t = (do
    let maxStack ← Decoder.u2
    let maxLocals ← Decoder.u2
    let length ← Decoder.u4
    let code ← get
    Decoder.need length
    Decoder.skip length
    let r ← (do
      let handlers ← Decoder.listOf (readHandler t)
      let tables ← Decoding.attributes t (readCodeAttribute t) {}
      return (handlers, tables) : Decoder _)
    let instructions ← Decoder.elsewhere code (readOperations t length)
    return ⟨⟨maxStack, maxLocals⟩, code.position, length, r.1, instructions, r.2⟩) := by
  unfold readRawCode
  simp only [bind_assoc, pure_bind]

variable {owner : Text} {verify stackMaps : Bool}

/-- The items of a method end where its instructions do. -/
theorem CodeParts.offset_length (parts : CodeParts owner verify stackMaps m P)
    (hkeys : ∀ i, Item.instruction i ∈ m.body → HasKeys i) :
    parts.layout.offset m.body.length = parts.instructions.length := by
  obtain ⟨before, -, hlength, hbefore⟩ := parts.places hkeys m.body.length (Nat.le_refl _)
  rw [List.take_length] at hbefore
  rw [← hlength, hbefore.unique parts.fixed_instructions]

/-- The code of a sound, legible method is read, and the labels that are made up on the way are
closed. The instructions are behind their length, ahead of the handlers and of the attributes, and
are read last. -/
theorem CodeParts.parses_readCode (parts : CodeParts owner verify stackMaps m P)
    (ht : Backs stored t P) (hsites : HasSites t P) (hsound : m.IsSound)
    (hbody : LegibleIn parts.layout m.body)
    (hraw : ∀ a ∈ m.codeAttributes, a.name ∉ AttributeName.ofCode) (place : Text) :
    Parses True (readCode t { place }) parts.bytes fun _ => True := by
  have hl := parts.fixed_layout
  have hframes := parts.isLegibleFrame hbody hsound.items
  obtain ⟨code, hread⟩ := exists_isRead ht hsites hl
    (fun i hi => inFamily_of_isSound (hsound.items _ hi)) hbody.switches parts.fixed_instructions
  have hend := parts.offset_length fun i hi => hasKeys_of_hasTargets (hbody.switches i hi)
  obtain ⟨hreads, hplaced⟩ := reads_handlers ht hl parts.fixed_handlers
  have hhandlers : Parses True (Decoder.listOf (readHandler t)) parts.handlers fun hs =>
      ∀ h ∈ hs, IsPlacedHandler parts.layout h := hreads.parses hplaced
  have htables : Parses True (Decoding.attributes t (readCodeAttribute t) {}) parts.rest
      (ArePlaced m.body parts.layout parts.frames) :=
    (readsPieces_codePieces ht hl hframes hraw).parses_attributes ht parts.writes parts.areAttributes
      ⟨nofun, nofun, nofun⟩
  have hrest : Parses True (do
      let handlers ← Decoder.listOf (readHandler t)
      let tables ← Decoding.attributes t (readCodeAttribute t) {}
      return (handlers, tables) : Decoder _) (parts.handlers ++ parts.rest) fun r =>
        (∀ h ∈ r.1, IsPlacedHandler parts.layout h) ∧
          ArePlaced m.body parts.layout parts.frames r.2 :=
    hhandlers.bind fun hs hhs => htables.map _ fun tables htables => ⟨hhs, htables⟩
  have hraw : Parses True (readRawCode t) parts.bytes RawCode.IsPlaced := by
    rw [readRawCode_eq]
    refine .cast (show _ = parts.stack ++ (parts.locals ++ (parts.length ++ (parts.instructions ++
      (parts.handlers ++ parts.rest)))) by simp only [CodeParts.bytes, List.append_assoc]) ?_
    refine .of_reads (Reads.unsigned (length_of_unsigned? parts.stack_eq)) ?_
    refine .of_reads (Reads.unsigned (length_of_unsigned? parts.locals_eq)) ?_
    refine .of_reads (Reads.of_unsigned? parts.length_eq) ?_
    have hcode := Parses.elsewhere (T := RawCode.IsPlaced)
      (f := fun start r code => ⟨⟨parts.stack.toNat, parts.locals.toNat⟩, start,
        parts.instructions.length, r.1, code, r.2⟩)
      rfl hrest (hread.reads_readOperations hl hbody)
      fun start r hr => isPlaced_of_arePlaced hread hl hend hbody hframes _ start hr.1 hr.2
    exact hcode
  exact hraw.bind_nil fun r hr => RawCode.parses_assemble hr place

end Encoding

end ClassTree
