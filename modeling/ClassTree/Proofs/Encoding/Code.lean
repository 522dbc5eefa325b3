/-
# ClassTree.Proofs.Encoding.Code — the parts of a code attribute

The code of a method is its sizes, its instructions, its handlers and its attributes. The layout of
the body and the frames belong to these parts: everything that names a place in the code does so by
its offset in that layout.
-/
import ClassTree.Proofs.Outline

namespace ClassTree

open Decoding Encoding Encoder
open ModifiedUtf8 (stored IsPlain)

variable {P : Pool} {g : Text → Text} {t : Table}

namespace Encoding

/-- The parts of the code of a method, each written with all that the pool has. -/
structure CodeParts (owner : Text) (verify stackMaps : Bool) (m : Method) (P : Pool) where
  layout : Layout
  sizes : Maxima
  frames : List (Nat × Frame)
  instructions : Bytes
  stack : Bytes
  locals : Bytes
  length : Bytes
  handlers : Bytes
  attributes : List Attribute
  rest : Bytes
  labels : checkLabels (Flow.Program.placeOf owner m) m = .ok ()
  fixed_layout : Fixed P (Layout.of m.body) layout
  verified_eq : verified owner verify stackMaps m layout = .ok (sizes, frames)
  fixed_instructions :
    Fixed P (operations layout (Flow.Program.placeOf owner m) m.body) instructions
  length_le : instructions.length ≤ maxCodeLength
  stack_eq : Bytes.unsigned? 2 sizes.stack = some stack
  locals_eq : Bytes.unsigned? 2 sizes.locals = some locals
  length_eq : Bytes.unsigned? 4 (instructions.length : Nat) = some length
  fixed_handlers : Fixed P (listOf (handler layout) m.handlers) handlers
  writes : List.Forall₂ (Piece.Writes P) (Piece.ordered m.layout.codeOrder
    (codePieces m layout (Flow.Program.placeOf owner m) frames)) attributes
  areAttributes : AreAttributes P attributes rest

/-- The bytes of the parts. -/
def CodeParts.bytes {owner : Text} {verify stackMaps : Bool} {m : Method}
    (parts : CodeParts owner verify stackMaps m P) : Bytes :=
  parts.stack ++ parts.locals ++ parts.length ++ parts.instructions ++ parts.handlers ++ parts.rest

/-- What is computed for a verified method without frames of its own. -/
theorem verified_eq_ok {owner : Text} {m : Method} {l : Layout} {computed : Maxima}
    {frames : List (Nat × Frame)} (hown : ownFrames m.body = [])
    (h : Flow.computeFrames owner m ((l.landings m.body).map Int.ofNat) = .ok (computed, frames)) :
    verified owner true true m l = .ok (m.maxima.getD computed, frames) := by
  simp only [verified, hown, List.isEmpty_nil, Bool.and_self, if_true, h, Result.ok_bind]
  rfl

/-- A single method is its head and its code if it has nothing else. -/
theorem listOf_method_singleton {owner : Text} {verify stackMaps : Bool} {m : Method}
    {content : Encoder Bytes} (hcode : code owner verify stackMaps m = content)
    (hpieces : methodPieces owner verify stackMaps m =
      [⟨AttributeName.code, code owner verify stackMaps m⟩]) (horder : m.layout.attributeOrder = []) :
    listOf (method owner verify stackMaps) [m] = (do
      let count ← u2 1
      let bytes ← (do
        return (← memberHead m.access m.name m.descriptor) ++
          (← attributes [⟨AttributeName.code, content⟩] []))
      return count ++ bytes) := by
  unfold listOf all method
  simp only [List.mapM_cons, List.mapM_nil, bind_assoc, pure_bind, List.flatten_cons,
    List.flatten_nil, List.append_nil, hpieces, hcode, horder]
  rfl

theorem fixed_checkLength_iff {place : Text} {bytes : Bytes} {u : Unit} :
    Fixed P (checkLength place bytes) u ↔ bytes.length ≤ maxCodeLength := by
  unfold checkLength
  split
  · next h => simp [not_fixed_throw, Nat.not_le.2 h]
  · next h => simp [Nat.le_of_not_lt h]

/-- The code of a method is its parts. -/
theorem exists_codeParts {owner : Text} {verify stackMaps : Bool} {m : Method} {bytes : Bytes}
    (h : Fixed P (code owner verify stackMaps m) bytes) :
    ∃ parts : CodeParts owner verify stackMaps m P, bytes = parts.bytes := by
  have hsteady (l : Layout) (frames : List (Nat × Frame)) :
      Steady (attributes (codePieces m l (Flow.Program.placeOf owner m) frames)
        m.layout.codeOrder) :=
    steady_attributes (steady_codePieces m l _ frames) _
  rw [code_eq] at h
  simp only [fixed_bind_iff, fixed_lift_iff, fixed_checkLength_iff, fixed_u2_iff, fixed_u4_iff,
    fixed_pure_iff] at h
  obtain ⟨_, hlabels, l, hl, ⟨sizes, frames⟩, hverified, instructions, hinstructions, _, hle, stack,
    hstack, locals, hlocals, length, hlength, handlers, hhandlers, rest, hrest, rfl⟩ := h
  obtain ⟨as, hwrites, has⟩ := (fixed_attributes_iff
    fun p hp => (steady_codePieces m l _ frames p hp).toGrowing).1 hrest
  exact ⟨⟨l, sizes, frames, instructions, stack, locals, length, handlers, as, rest, hlabels, hl,
    hverified, hinstructions, hle, hstack, hlocals, hlength, hhandlers, hwrites, has⟩, rfl⟩

/-- The items of a body stand where a layout says: what is written before each of them is as long as
its offset. -/
def Layout.Places (P : Pool) (l : Layout) (place : Text) (body : List Item) (bytes : Bytes) : Prop :=
  ∀ index ≤ body.length, ∃ before, before <+: bytes ∧ before.length = l.offset index ∧
    Fixed P (operations l place (body.take index)) before

/-- The instructions of a method stand where its layout says. -/
theorem CodeParts.places {owner : Text} {verify stackMaps : Bool} {m : Method}
    (parts : CodeParts owner verify stackMaps m P)
    (hkeys : ∀ i, Item.instruction i ∈ m.body → HasKeys i) :
    parts.layout.Places P (Flow.Program.placeOf owner m) m.body parts.instructions := by
  intro index hindex
  have hbytes := parts.fixed_instructions
  unfold operations at hbytes ⊢
  obtain ⟨bytes, hall, heq⟩ := fixed_all_iff.1 hbytes
  refine ⟨(bytes.take index).flatten, ?_, ?_, fixed_all_iff.2 ⟨_, ?_, rfl⟩⟩
  · rw [heq]
    refine ⟨(bytes.drop index).flatten, ?_⟩
    rw [← List.flatten_append, List.take_append_drop]
  · exact (offset_eq_length parts.fixed_layout hkeys hall hindex).symm
  · have hsplit : m.body.zipIdx =
        (m.body.take index).zipIdx ++ (m.body.drop index).zipIdx (0 + (m.body.take index).length) := by
      rw [← List.zipIdx_append, List.take_append_drop]
    rw [hsplit] at hall
    have htake := (List.forall₂_take_append _ _ _ hall.flip).flip
    rwa [List.length_zipIdx, List.length_take_of_le hindex] at htake

/-- A line marker of a body, with its offset. -/
theorem exists_of_mem_linesOf {l : Layout} {body : List Item} {entry : Nat × Int}
    (h : entry ∈ linesOf l body) :
    ∃ position : Nat, body[position]? = some (.line entry.2) ∧ entry.1 = l.offset position := by
  rw [linesOf, List.mem_toArray] at h
  obtain ⟨⟨item, index⟩, hitem, heq⟩ := List.mem_filterMap.1 h
  rw [List.mk_mem_zipIdx_iff_getElem?] at hitem
  cases item with
  | line n =>
    cases heq
    exact ⟨index, hitem, rfl⟩
  | _ => cases heq

end Encoding

theorem length_handler {l : Layout} {h : Handler} {bytes : Bytes}
    (hbytes : Fixed P (handler l h) bytes) : bytes.length = 8 := by
  rw [handler_eq] at hbytes
  simp only [fixed_bind_iff, fixed_u2_iff, fixed_pure_iff] at hbytes
  obtain ⟨_, -, _, -, _, -, _, -, a, ha, b, hb, c, hc, d, hd, rfl⟩ := hbytes
  simp [length_of_unsigned? ha, length_of_unsigned? hb, length_of_unsigned? hc,
    length_of_unsigned? hd]

/-- The outline of the code of a method. -/
theorem Outline.exists_reads_code (ht : Backs g t P) {owner : Text} {verify stackMaps : Bool}
    {m : Method} (parts : CodeParts owner verify stackMaps m P) :
    ∃ o, Reads (Outline.readCode t) parts.bytes o ∧ parts.sizes.stack = o.maxStack ∧
      parts.sizes.locals = o.maxLocals ∧ o.instructions = parts.instructions ∧
      o.attributes = parts.attributes.map (Attribute.mapName g) := by
  obtain ⟨count, hcount, handlers, hhandlers, heq⟩ := fixed_listOf_iff.1 parts.fixed_handlers
  have hlength : handlers.flatten.length = 8 * m.handlers.length :=
    length_flatten_of_forall₂ (fun h => length_handler h) hhandlers
  refine ⟨⟨_, _, parts.instructions, parts.attributes.map (Attribute.mapName g)⟩, ?_,
    exists_nat_of_unsigned? parts.stack_eq, exists_nat_of_unsigned? parts.locals_eq, rfl, rfl⟩
  refine .cast (show _ = parts.stack ++ (parts.locals ++ (parts.length ++ (parts.instructions ++
    (count ++ (handlers.flatten ++ parts.rest))))) from ?_) ?_
  · rw [CodeParts.bytes, heq]
    simp only [List.append_assoc]
  · refine (Reads.unsigned (length_of_unsigned? parts.stack_eq)).bind ?_
    refine (Reads.unsigned (length_of_unsigned? parts.locals_eq)).bind ?_
    refine (Reads.of_unsigned? parts.length_eq).bind ((Reads.bytes parts.instructions).bind ?_)
    refine (Reads.of_unsigned? hcount).bind ((Reads.skip hlength).bind ?_)
    exact (Outline.reads_readAttributes ht parts.areAttributes).map _

/-! ## The code of a method of a class -/

theorem isPlain_code : IsPlain AttributeName.code := ModifiedUtf8.isPlain_ofString (by decide)

namespace Encoding

/-- The attributes of a method with code begin with the code. -/
theorem exists_filter_methodPieces (owner : Text) (verify stackMaps : Bool) {m : Method}
    (hcode : m.hasCode = true) :
    ∃ rest, (methodPieces owner verify stackMaps m).filter (fun p => p.name = AttributeName.code) =
      ⟨AttributeName.code, code owner verify stackMaps m⟩ :: rest := by
  unfold methodPieces pieceIf
  simp only [hcode, if_true, List.append_assoc, List.singleton_append]
  exact ⟨_, List.filter_cons_of_pos (by simp)⟩

/-- What the outline of code keeps of its parts. -/
structure CodeParts.ShownBy {owner : Text} {verify stackMaps : Bool} {m : Method}
    (parts : CodeParts owner verify stackMaps m P) (code : CodeOutline) : Prop where
  stack : parts.sizes.stack = code.maxStack
  locals : parts.sizes.locals = code.maxLocals
  instructions : code.instructions = parts.instructions
  attributes : code.attributes = parts.attributes.map (Attribute.mapName stored)

/-- The outline of a method with code shows the parts of the code. -/
theorem exists_code_of_shows (ht : Backs stored t P) {owner : Text} {verify stackMaps : Bool}
    {m : Method} {member : MemberOutline} (hcode : m.hasCode = true)
    (h : member.Shows stored P m.name m.descriptor m.access
      (Piece.ordered m.layout.attributeOrder (methodPieces owner verify stackMaps m))) :
    ∃ (code : CodeOutline) (parts : CodeParts owner verify stackMaps m P),
      member.code? t = some (.ok code) ∧ parts.ShownBy code := by
  obtain ⟨as, hwrites, has⟩ := h.attributes
  obtain ⟨rest, hfilter⟩ := exists_filter_methodPieces owner verify stackMaps hcode
  obtain ⟨a, hnamed, ha⟩ := exists_named_eq_some isPlain_code hwrites hfilter
  obtain ⟨parts, hparts⟩ := exists_codeParts ha
  obtain ⟨code, hreads, hstack, hlocals, hinstructions, hattributes⟩ :=
    Outline.exists_reads_code ht parts
  refine ⟨code, parts, ?_, ⟨hstack, hlocals, hinstructions, hattributes⟩⟩
  unfold MemberOutline.code?
  rw [has, hnamed, Option.map_some, hparts, Outline.whole_eq_ok hreads]

/-- The outline of a class file shows the parts of the code of a method. -/
theorem Written.exists_shownBy {verify : Bool} {c : Class} {bytes : Bytes}
    (w : Written verify c bytes) (hseed : Pool.IsSeed c.layout.pool) {k : Nat} {m : Method}
    (hm : c.methods[k]? = some m) (hcode : m.hasCode = true) :
    ∃ (o : Outline) (member : MemberOutline) (code : CodeOutline)
      (parts : CodeParts c.name verify (stackMapMajor ≤ c.major) m w.pool),
      Outline.ofBytes bytes = .ok o ∧ Backs stored o.table w.pool ∧ o.methods[k]? = some member ∧
      member.code? o.table = some (.ok code) ∧ parts.ShownBy code := by
  obtain ⟨o, ho, hshown⟩ := w.exists_outline hseed
  have ht : Backs stored o.table w.pool := hshown.table ▸ w.backs hseed #[]
  obtain ⟨hk, heq⟩ := List.getElem?_eq_some_iff.1 hm
  have hk' : k < o.methods.length := hshown.methods.length_eq ▸ hk
  have hshows := hshown.methods.get hk hk'
  simp only [List.get_eq_getElem, heq] at hshows
  obtain ⟨code, parts, hread, hparts⟩ := exists_code_of_shows ht hcode hshows
  exact ⟨o, o.methods[k], code, parts, ho, ht, List.getElem?_eq_getElem hk', hread, hparts⟩

/-- The outline of a class file has the code of a method, made of its parts. -/
theorem Written.exists_code {verify : Bool} {c : Class} {bytes : Bytes} (w : Written verify c bytes)
    (hseed : Pool.IsSeed c.layout.pool) {k : Nat} {m : Method} (hm : c.methods[k]? = some m)
    (hcode : m.hasCode = true) :
    ∃ (o : Outline) (member : MemberOutline) (code : CodeOutline)
      (parts : CodeParts c.name verify (stackMapMajor ≤ c.major) m w.pool),
      Outline.ofBytes bytes = .ok o ∧ Backs stored o.table w.pool ∧ o.methods[k]? = some member ∧
      member.code? o.table = some (.ok code) ∧ code.instructions = parts.instructions ∧
      code.attributes = parts.attributes.map (Attribute.mapName stored) := by
  obtain ⟨o, member, code, parts, ho, ht, hmember, hread, hshown⟩ :=
    w.exists_shownBy hseed hm hcode
  exact ⟨o, member, code, parts, ho, ht, hmember, hread, hshown.instructions, hshown.attributes⟩

/-! ## Pieces of one name -/

/-- Pieces of one name are all kept or all left out. -/
theorem filter_of_name {pieces : List Piece} {name : Text} (h : ∀ p ∈ pieces, p.name = name) (n : Text) :
    pieces.filter (fun p => p.name = n) = if name = n then pieces else [] := by
  split
  · next heq => exact List.filter_eq_self.2 fun p hp => by simpa [heq] using h p hp
  · next hne => exact List.filter_eq_nil_iff.2 fun p hp => by simpa [h p hp] using hne

/-- A piece that there may be reason for. -/
theorem name_of_mem_pieceIf {condition : Bool} {name : Text} {content : Encoder Bytes} :
    ∀ p ∈ pieceIf condition name content, p.name = name := by
  intro p hp
  unfold pieceIf at hp
  split at hp
  · rw [List.mem_singleton.1 hp]
  · cases hp

/-- A line table with the entries of some line markers. -/
def linePiece (lines : Array (Nat × Int)) (table : List Nat) : Piece :=
  ⟨AttributeName.lineNumbers, lineTable (table.filterMap fun i => lines[i]?)⟩

/-- The pieces of code that have a name: some that are written under it, and those that the method
brings as bytes. -/
theorem filter_codePieces (m : Method) (l : Layout) (place : Text) (frames : List (Nat × Frame))
    (name : Text) : (codePieces m l place frames).filter (fun p => p.name = name) =
      (if AttributeName.lineNumbers = name then
        (lineTables m.layout.lineTables (linesOf l m.body).size).map (linePiece (linesOf l m.body))
        else []) ++
      (if AttributeName.localVariables = name then
        localVariablePiece AttributeName.localVariables l LocalVariable.descriptor m.localVariables
        else []) ++
      (if AttributeName.localVariableTypes = name then
        localVariablePiece AttributeName.localVariableTypes l LocalVariable.signature m.localVariables
        else []) ++
      (if AttributeName.stackMap = name then
        pieceIf (!frames.isEmpty) AttributeName.stackMap (stackMap l place frames) else []) ++
      (rawPieces m.codeAttributes).filter fun p => p.name = name := by
  have hlines : ∀ p ∈ (lineTables m.layout.lineTables (linesOf l m.body).size).map
      (linePiece (linesOf l m.body)), p.name = AttributeName.lineNumbers := by
    intro p hp
    obtain ⟨table, -, rfl⟩ := List.mem_map.1 hp
    rfl
  have hlocals (name : Text) (typeOf : LocalVariable → Option Text) :
      ∀ p ∈ localVariablePiece name l typeOf m.localVariables, p.name = name := name_of_mem_pieceIf
  rw [← filter_of_name hlines, ← filter_of_name (hlocals _ _), ← filter_of_name (hlocals _ _),
    ← filter_of_name name_of_mem_pieceIf]
  simp only [← List.filter_append]
  rfl

end Encoding

end ClassTree
