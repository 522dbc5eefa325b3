/-
# ClassTree.Proofs.Encoding.CodeTables — the tables of written code

The tables around the instructions of a method are attributes of its code, and each of them is read
back as what it was written for. Beside them stand the attributes that the method brings as bytes;
nothing keeps these from having the name of a table.
-/
import Mathlib
import ClassTree.Proofs.Decoding.CodeTables
import ClassTree.Proofs.Encoding.Code

namespace ClassTree

open Decoding Encoding Encoder
open ModifiedUtf8 (stored stored_of_isWhole IsPlain isPlain_ofString)

variable {P : Pool} {t : Table} {l : Layout} {bytes : Bytes}

/-- The texts of an entry are stored as they are. -/
def Decoding.RawVariable.IsWhole (v : RawVariable) : Prop := v.name.IsWhole ∧ v.descriptor.IsWhole

/-! ## Attributes of one name -/

/-- What is kept as bytes is written as those bytes. -/
theorem Encoding.map_data_rawPieces {raw as : List Attribute}
    (h : List.Forall₂ (fun (p : Piece) (a : Attribute) => Fixed P p.content a.data) (rawPieces raw) as) :
    as.map Attribute.data = raw.map Attribute.data := by
  unfold rawPieces at h
  rw [List.forall₂_map_left_iff] at h
  induction h with
  | nil => rfl
  | cons ha _ ih => rw [List.map_cons, List.map_cons, ih, fixed_pure_iff.1 ha]

/-- Attributes with a plain name are read one by one as what their pieces were written for, and
attributes that are kept as bytes are read as they are. -/
theorem Attribute.exists_tables {α γ : Type} {order : List Text} {pieces : List Piece}
    {as raw : List Attribute} {n : Text} (hn : IsPlain n)
    (has : List.Forall₂ (Piece.Writes P) (Piece.ordered order pieces) as) {things : List γ}
    {pieceOf : γ → Piece} {d : Decoder α} {Q : γ → α → Prop}
    (hpieces : pieces.filter (fun p => p.name = n) =
      things.map pieceOf ++ (rawPieces raw).filter fun p => p.name = n)
    (hread : ∀ x ∈ things, ∀ data, Fixed P (pieceOf x).content data → ∃ a, Reads d data a ∧ Q x a) :
    ∃ found, List.Forall₂ Q things found ∧
      Attribute.tables (as.map (Attribute.mapName stored)) n d =
        found.map .ok ++ Attribute.tables raw n d := by
  have hall := forall₂_filter_named hn has
  unfold Attribute.tables
  generalize ((as.map (Attribute.mapName stored)).filter fun a => a.name = n) = named at hall
  rw [hpieces] at hall
  clear hpieces
  induction things generalizing named with
  | nil =>
    -- what is left are the attributes that are kept as bytes
    refine ⟨[], .nil, ?_⟩
    have hraw : (rawPieces raw).filter (fun p => p.name = n) =
        rawPieces (raw.filter fun a => a.name = n) := by
      unfold rawPieces
      rw [List.filter_map]
      rfl
    rw [List.map_nil, List.nil_append, hraw] at hall
    have hdata := congrArg (List.map (Outline.whole d)) (map_data_rawPieces hall)
    rw [List.map_map, List.map_map] at hdata
    exact hdata
  | cons x things ih =>
    cases hall with
    | @cons _ b _ named hb hall =>
      obtain ⟨a, ha, hq⟩ := hread x List.mem_cons_self b.data hb
      obtain ⟨found, hfound, heq⟩ := ih (fun y hy => hread y (List.mem_cons_of_mem _ hy)) named hall
      refine ⟨a :: found, .cons hq hfound, ?_⟩
      rw [List.map_cons, heq, Outline.whole_eq_ok ha]
      rfl

namespace Encoding

/-! ## Pieces of one name -/

/-- A table of local variables that have types. -/
def variablePiece (name : Text) (l : Layout) (typed : List (LocalVariable × Text)) : Piece :=
  ⟨name, listOf (fun p => localVariable l p.1 p.2) typed⟩

/-- All of some things in one table, which is left out if there is none. -/
def gathered {α : Type} (things : List α) : List (List α) := if things.isEmpty then [] else [things]

theorem eq_of_mem_gathered {α : Type} {things table : List α} (h : table ∈ gathered things) :
    table = things := by
  unfold gathered at h
  split at h
  · cases h
  · exact List.mem_singleton.1 h

theorem gathered_of_forall₂ {α β : Type} {R : α → β → Prop} {things : List α} {others : List β}
    (h : List.Forall₂ R things others) {tables : List (List β)}
    (htables : List.Forall₂ (fun _ table => table = others) (gathered things) tables) :
    tables = gathered others := by
  unfold gathered at htables ⊢
  cases h with
  | nil =>
    cases htables
    rfl
  | cons _ _ =>
    obtain ⟨_, rest, rfl, hrest, rfl⟩ := List.forall₂_cons_left_iff.1 htables
    cases hrest
    rfl

/-- The local variables that have a type of some sort. -/
def typedVariables (typeOf : LocalVariable → Option Text) (locals : List LocalVariable) :
    List (LocalVariable × Text) :=
  locals.filterMap fun v => (typeOf v).map fun type => (v, type)

theorem localVariablePiece_eq (name : Text) (l : Layout) (typeOf : LocalVariable → Option Text)
    (locals : List LocalVariable) : localVariablePiece name l typeOf locals =
      (gathered (typedVariables typeOf locals)).map (variablePiece name l) := by
  unfold localVariablePiece pieceIf gathered typedVariables
  dsimp only
  split <;> split <;> simp_all [variablePiece]

variable (m : Method) (place : Text) (frames : List (Nat × Frame))

theorem filter_lineNumbers :
    (codePieces m l place frames).filter (fun p => p.name = AttributeName.lineNumbers) =
      (lineTables m.layout.lineTables (linesOf l m.body).size).map (linePiece (linesOf l m.body)) ++
        (rawPieces m.codeAttributes).filter fun p => p.name = AttributeName.lineNumbers := by
  rw [filter_codePieces, if_pos rfl, if_neg (by decide), if_neg (by decide), if_neg (by decide)]
  simp only [List.append_nil]

/-- The pieces with the name of one of the two tables of local variables. -/
theorem filter_localVariables {name : Text} (typeOf : LocalVariable → Option Text)
    (h : name = AttributeName.localVariables ∧ typeOf = LocalVariable.descriptor ∨
      name = AttributeName.localVariableTypes ∧ typeOf = LocalVariable.signature) :
    (codePieces m l place frames).filter (fun p => p.name = name) =
      (gathered (typedVariables typeOf m.localVariables)).map (variablePiece name l) ++
        (rawPieces m.codeAttributes).filter fun p => p.name = name := by
  rw [filter_codePieces, ← localVariablePiece_eq]
  rcases h with ⟨rfl, rfl⟩ | ⟨rfl, rfl⟩
  · rw [if_neg (by decide), if_pos rfl, if_neg (by decide), if_neg (by decide)]
    simp only [List.nil_append, List.append_nil]
  · rw [if_neg (by decide), if_neg (by decide), if_pos rfl, if_neg (by decide)]
    simp only [List.nil_append, List.append_nil]

/-! ## Tables -/

theorem exists_reads_lineTable {entries : List (Nat × Int)} (h : Fixed P (lineTable entries) bytes) :
    ∃ lines, Reads (Decoder.listOf readLine) bytes lines ∧
      entries = lines.map fun line => ((line.offset : Nat), (line.line : Int)) := by
  obtain ⟨count, hcount, parts, hparts, rfl⟩ := fixed_listOf_iff.1 h
  obtain ⟨lines, hlines, hsame⟩ := Result.exists_forall₂_of_forall₂
    (S := fun part line => Reads readLine part line)
    (Q := fun (entry : Nat × Int) (line : RawLine) => entry = (line.offset, (line.line : Int))) hparts
    fun entry _ part hpart => by
      simp only [fixed_bind_iff, fixed_u2_iff, fixed_pure_iff] at hpart
      obtain ⟨offset, hoffset, line, hline, rfl⟩ := hpart
      refine ⟨⟨entry.1, line.toNat⟩, ?_, ?_⟩
      · exact (Reads.of_unsigned? hoffset).bind ((Reads.unsigned (length_of_unsigned? hline)).map _)
      · rw [← exists_nat_of_unsigned? hline]
  refine ⟨lines, Reads.listOf (hsame.length_eq ▸ hcount) hlines, ?_⟩
  rw [← List.forall₂_eq_eq_eq, List.forall₂_map_right_iff]
  exact hsame

/-- What is written of a local variable stands for an entry: it leads to the place of the entry. -/
structure StandsFor (l : Layout) (p : LocalVariable × Text) (v : RawVariable) : Prop where
  start : ∀ offset, l.resolve p.1.start = .ok offset → offset = v.start
  stop : ∀ offset, l.resolve p.1.stop = .ok offset → offset = v.start + v.length
  name : p.1.name = v.name
  type : p.2 = v.descriptor
  slot : p.1.slot = v.slot

/-- A local variable is read back as the entry that it stands for. -/
theorem StandsFor.reads (ht : Backs stored t P) {p : LocalVariable × Text} {v : RawVariable}
    (hv : StandsFor l p v) (hwhole : v.IsWhole) (h : Fixed P (localVariable l p.1 p.2) bytes) :
    Reads (readVariable t) bytes v := by
  unfold localVariable at h
  simp only [fixed_bind_iff, fixed_lift_iff, fixed_addUtf8_iff, fixed_u2_iff, fixed_pure_iff] at h
  obtain ⟨start, hstart, stop, hstop, n, hn, d, hd, a, ha, b, hb, c, hc, e, he, f, hf, rfl⟩ := h
  obtain rfl := hv.start _ hstart
  obtain rfl := hv.stop _ hstop
  have hlength : b.toNat = v.length := by
    have := exists_nat_of_unsigned? hb
    omega
  have hslot : f.toNat = v.slot := by
    have hnat := exists_nat_of_unsigned? hf
    rw [hv.slot] at hnat
    exact (Int.ofNat.inj hnat).symm
  have hname := ht.reads_utf8 hn
  have htype := ht.reads_utf8 hd
  rw [hv.name, stored_of_isWhole hwhole.1] at hname
  rw [hv.type, stored_of_isWhole hwhole.2] at htype
  simp only [List.append_assoc]
  refine (Reads.of_unsigned? ha).bind ((Reads.unsigned (length_of_unsigned? hb)).bind ?_)
  refine (Reads.of_unsigned? hc).bind ((Reads.of_unsigned? he).bind ?_)
  refine (Reads.unsigned (length_of_unsigned? hf)).bind_nil (.nil_bind hname ?_)
  rw [hlength, hslot]
  exact htype.map _

/-- Local variables are read back as the entries that they stand for. -/
theorem reads_localVariables (ht : Backs stored t P) {typed : List (LocalVariable × Text)}
    {vs : List RawVariable} (hvs : List.Forall₂ (StandsFor l) typed vs) (hwhole : ∀ v ∈ vs, v.IsWhole)
    (h : Fixed P (listOf (fun p => localVariable l p.1 p.2) typed) bytes) :
    Reads (Decoder.listOf (readVariable t)) bytes vs := by
  obtain ⟨count, hcount, parts, hparts, rfl⟩ := fixed_listOf_iff.1 h
  refine Reads.listOf (hvs.length_eq ▸ hcount) ?_
  clear hcount h
  induction hvs generalizing parts with
  | nil =>
    cases hparts
    exact .nil
  | cons hv _ ih =>
    cases hparts with
    | cons hpart hparts =>
      exact .cons (hv.reads ht (hwhole _ List.mem_cons_self) hpart)
        (ih (fun v hv => hwhole v (List.mem_cons_of_mem _ hv)) _ hparts)

end Encoding

/-! ## Tables in no order -/

/-- A class with a method of two instructions. Its line tables are not sorted, and the two tables of
local variables do not have the same order. -/
def shuffledFile : Bytes :=
  [202, 254, 186, 190, 0, 0, 0, 52, 0, 9, 1, 0, 1, 65, 7, 0, 1, 1, 0, 1, 102, 1, 0, 3, 40, 41, 86, 1, 0,
    4, 67, 111, 100, 101, 1, 0, 15, 76, 105, 110, 101, 78, 117, 109, 98, 101, 114, 84, 97, 98, 108, 101,
    1, 0, 18, 76, 111, 99, 97, 108, 86, 97, 114, 105, 97, 98, 108, 101, 84, 97, 98, 108, 101, 1, 0, 22,
    76, 111, 99, 97, 108, 86, 97, 114, 105, 97, 98, 108, 101, 84, 121, 112, 101, 84, 97, 98, 108, 101, 0,
    33, 0, 2, 0, 0, 0, 0, 0, 0, 0, 1, 0, 8, 0, 3, 0, 4, 0, 1, 0, 5, 0, 0, 0, 98, 0, 0, 0, 2, 0, 0, 0, 2,
    0, 177, 0, 0, 0, 4, 0, 6, 0, 0, 0, 10, 0, 2, 0, 1, 0, 12, 0, 0, 0, 10, 0, 6, 0, 0, 0, 6, 0, 1, 0, 0,
    0, 11, 0, 7, 0, 0, 0, 22, 0, 2, 0, 0, 0, 0, 0, 3, 0, 3, 0, 0, 0, 0, 0, 0, 0, 3, 0, 3, 0, 1, 0, 8, 0,
    0, 0, 22, 0, 2, 0, 0, 0, 0, 0, 3, 0, 3, 0, 1, 0, 0, 0, 0, 0, 3, 0, 3, 0, 0, 0, 0]

/-- The table of its constants. -/
def shuffledTable : Table where
  entries := #[none, some (.utf8 "A"), some (.type 1), some (.utf8 "f"), some (.utf8 "()V"),
    some (.utf8 AttributeName.code), some (.utf8 AttributeName.lineNumbers),
    some (.utf8 AttributeName.localVariables), some (.utf8 AttributeName.localVariableTypes)]
  bootstrap := #[]

/-- An entry for the local variable in a slot. -/
def shuffledVariable (slot : Nat) : RawVariable := ⟨0, 0, "f", "f", slot⟩

/-- The code of the method, with offsets for labels. -/
def shuffledCode : RawCode where
  maxima := ⟨0, 2⟩
  start := 132
  length := 2
  handlers := []
  instructions := [(0, .plain .nop), (1, .plain .return_)]
  tables := {
    lines := [[⟨1, 12⟩, ⟨0, 10⟩], [⟨0, 11⟩]]
    described := [shuffledVariable 0, shuffledVariable 1]
    signatures := [shuffledVariable 1, shuffledVariable 0]
    order := [AttributeName.lineNumbers, AttributeName.lineNumbers, AttributeName.localVariables,
      AttributeName.localVariableTypes] }

/-- The method. -/
def shuffledMethod : Method where
  access := 8
  name := "f"
  descriptor := "()V"
  maxima := some ⟨0, 2⟩
  body := [.label ⟨"L0"⟩, .line 10, .line 11, .instruction (.plain .nop), .line 12,
    .instruction (.plain .return_)]
  localVariables := [⟨"f", some "f", ⟨"L0"⟩, ⟨"L0"⟩, 0, some "f"⟩,
    ⟨"f", some "f", ⟨"L0"⟩, ⟨"L0"⟩, 1, some "f"⟩]
  layout := {
    attributeOrder := [AttributeName.code]
    codeOrder := shuffledCode.tables.order
    lineTables := [[2, 0], [1]] }

/-- Its class. -/
def shuffledClass : Class where
  name := "A"
  access := 0x21
  super := none
  methods := [shuffledMethod]
  layout := { pool := shuffledTable.entries.toList }

namespace Decoding

theorem length_shuffledFile : shuffledFile.length = 224 := by cbv

theorem readOperations_shuffledFile : readOperations shuffledTable 2 ⟨132, shuffledFile.drop 132⟩ =
    .ok (shuffledCode.instructions, ⟨134, shuffledFile.drop 134⟩) := rfl

theorem readTable_shuffledFile :
    readTable ⟨8, shuffledFile.drop 8⟩ = .ok (shuffledTable, ⟨98, shuffledFile.drop 98⟩) := by
  have hscan : scanBootstrap shuffledTable ⟨98, shuffledFile.drop 98⟩ = .ok ([], ⟨224, []⟩) := by cbv
  exact readTable_eq_ok (by cbv) hscan

/-- The tables of the code are read. -/
theorem attributes_shuffledFile : attributes shuffledTable (readCodeAttribute shuffledTable) {}
    ⟨136, shuffledFile.drop 136⟩ = .ok (shuffledCode.tables, ⟨222, shuffledFile.drop 222⟩) := by
  have hdescribed : (Decoder.listOf (readVariable shuffledTable)) ⟨172, shuffledFile.drop 172⟩ =
      .ok ([shuffledVariable 0, shuffledVariable 1], ⟨194, shuffledFile.drop 194⟩) := by cbv
  have hsignatures : (Decoder.listOf (readVariable shuffledTable)) ⟨200, shuffledFile.drop 200⟩ =
      .ok ([shuffledVariable 1, shuffledVariable 0], ⟨222, shuffledFile.drop 222⟩) := by cbv
  let one : CodeTables := { lines := [[⟨1, 12⟩, ⟨0, 10⟩]], order := [AttributeName.lineNumbers] }
  let two : CodeTables := { one with
    lines := [[⟨1, 12⟩, ⟨0, 10⟩], [⟨0, 11⟩]]
    order := [AttributeName.lineNumbers, AttributeName.lineNumbers] }
  let three : CodeTables := { two with
    described := [shuffledVariable 0, shuffledVariable 1]
    order := [AttributeName.lineNumbers, AttributeName.lineNumbers, AttributeName.localVariables] }
  refine Decoder.bind_eq_ok_iff.2 ⟨4, ⟨138, shuffledFile.drop 138⟩, by cbv, ?_⟩
  refine Decoder.bind_eq_ok_iff.2 ⟨one, ⟨154, shuffledFile.drop 154⟩, by cbv, ?_⟩
  refine Decoder.bind_eq_ok_iff.2 ⟨two, ⟨166, shuffledFile.drop 166⟩, by cbv, ?_⟩
  have hthird : IsAttributeAt shuffledTable shuffledFile 166 22 AttributeName.localVariables :=
    ⟨⟨7, by cbv, rfl⟩, by cbv, by simp [length_shuffledFile]⟩
  have hfourth : IsAttributeAt shuffledTable shuffledFile 194 22 AttributeName.localVariableTypes :=
    ⟨⟨8, by cbv, rfl⟩, by cbv, by simp [length_shuffledFile]⟩
  refine Decoder.bind_eq_ok_iff.2 ⟨three, ⟨194, shuffledFile.drop 194⟩, hthird.attribute_eq_ok ?_, ?_⟩
  · unfold readCodeAttribute
    rw [if_neg (by decide), if_pos rfl]
    exact Decoder.bind_eq_ok_iff.2 ⟨_, _, hdescribed, rfl⟩
  · refine Decoder.bind_eq_ok_iff.2
      ⟨shuffledCode.tables, ⟨222, shuffledFile.drop 222⟩, hfourth.attribute_eq_ok ?_, rfl⟩
    unfold readCodeAttribute
    rw [if_neg (by decide), if_neg (by decide), if_pos rfl]
    exact Decoder.bind_eq_ok_iff.2 ⟨_, _, hsignatures, rfl⟩

theorem readRawCode_shuffledFile : readRawCode shuffledTable ⟨124, shuffledFile.drop 124⟩ =
    .ok (shuffledCode, ⟨222, shuffledFile.drop 222⟩) := by
  refine Decoder.bind_eq_ok_iff.2 ⟨0, ⟨126, shuffledFile.drop 126⟩, by cbv, ?_⟩
  refine Decoder.bind_eq_ok_iff.2 ⟨2, ⟨128, shuffledFile.drop 128⟩, by cbv, ?_⟩
  refine Decoder.bind_eq_ok_iff.2 ⟨2, ⟨132, shuffledFile.drop 132⟩, by cbv, ?_⟩
  refine Decoder.bind_eq_ok_iff.2 ⟨_, ⟨132, shuffledFile.drop 132⟩, rfl, ?_⟩
  refine Decoder.bind_eq_ok_iff.2 ⟨(), ⟨132, shuffledFile.drop 132⟩, by cbv, ?_⟩
  refine Decoder.bind_eq_ok_iff.2 ⟨(), ⟨134, shuffledFile.drop 134⟩, by cbv, ?_⟩
  refine Decoder.bind_eq_ok_iff.2 ⟨[], ⟨136, shuffledFile.drop 136⟩, by cbv, ?_⟩
  refine Decoder.bind_eq_ok_iff.2 ⟨_, _, attributes_shuffledFile, ?_⟩
  refine Decoder.bind_eq_ok_iff.2 ⟨shuffledCode.instructions, ⟨222, shuffledFile.drop 222⟩, ?_, rfl⟩
  refine Decoder.bind_eq_ok_iff.2 ⟨_, _, rfl, Decoder.bind_eq_ok_iff.2 ⟨_, _, rfl, ?_⟩⟩
  exact Decoder.bind_eq_ok_iff.2 ⟨_, _, readOperations_shuffledFile, rfl⟩

theorem readMethod_shuffledFile : readMethod shuffledTable ⟨110, shuffledFile.drop 110⟩ =
    .ok (shuffledMethod, ⟨222, shuffledFile.drop 222⟩) := by
  have harguments : Descriptor.arguments "()V" = .ok [] := by cbv
  have hcode : readCode shuffledTable { place := "f" ++ "()V" } ⟨124, shuffledFile.drop 124⟩ =
      .ok (⟨⟨0, 2⟩, shuffledMethod.body, [], shuffledMethod.localVariables, [],
        shuffledCode.tables.order, [[2, 0], [1]]⟩, ⟨222, shuffledFile.drop 222⟩) :=
    Decoder.bind_eq_ok_iff.2 ⟨shuffledCode, _, readRawCode_shuffledFile, by cbv⟩
  refine Decoder.bind_eq_ok_iff.2 ⟨8, ⟨112, shuffledFile.drop 112⟩, by cbv, ?_⟩
  refine Decoder.bind_eq_ok_iff.2 ⟨3, ⟨114, shuffledFile.drop 114⟩, by cbv, ?_⟩
  refine Decoder.bind_eq_ok_iff.2 ⟨"f", ⟨114, shuffledFile.drop 114⟩, by cbv, ?_⟩
  refine Decoder.bind_eq_ok_iff.2 ⟨4, ⟨116, shuffledFile.drop 116⟩, by cbv, ?_⟩
  refine Decoder.bind_eq_ok_iff.2 ⟨"()V", ⟨116, shuffledFile.drop 116⟩, by cbv, ?_⟩
  rw [harguments]
  -- its code
  refine Decoder.bind_eq_ok_iff.2 ⟨1, ⟨118, shuffledFile.drop 118⟩, by cbv, ?_⟩
  have hattribute : IsAttributeAt shuffledTable shuffledFile 118 98 AttributeName.code :=
    ⟨⟨5, by cbv, rfl⟩, by cbv, by simp [length_shuffledFile]⟩
  refine Decoder.bind_eq_ok_iff.2
    ⟨shuffledMethod, ⟨222, shuffledFile.drop 222⟩, hattribute.attribute_eq_ok ?_, rfl⟩
  unfold readMethodAttribute
  rw [if_pos rfl]
  exact Decoder.bind_eq_ok_iff.2 ⟨_, _, hcode, rfl⟩

end Decoding

theorem Class.ofBytes_shuffledFile : Class.ofBytes shuffledFile = .ok shuffledClass := by
  have hread : readClassFile ⟨0, shuffledFile⟩ = .ok (shuffledClass, ⟨224, []⟩) := by
    unfold readClassFile
    refine Decoder.bind_eq_ok_iff.2 ⟨(52, 0), ⟨8, shuffledFile.drop 8⟩, by cbv, ?_⟩
    refine Decoder.bind_eq_ok_iff.2 ⟨_, _, readTable_shuffledFile, ?_⟩
    refine Decoder.bind_eq_ok_iff.2 ⟨0x21, ⟨100, shuffledFile.drop 100⟩, by cbv, ?_⟩
    refine Decoder.bind_eq_ok_iff.2 ⟨"A", ⟨102, shuffledFile.drop 102⟩, by cbv, ?_⟩
    refine Decoder.bind_eq_ok_iff.2 ⟨0, ⟨104, shuffledFile.drop 104⟩, by cbv, ?_⟩
    refine Decoder.bind_eq_ok_iff.2 ⟨none, ⟨104, shuffledFile.drop 104⟩, by cbv, ?_⟩
    refine Decoder.bind_eq_ok_iff.2 ⟨[], ⟨106, shuffledFile.drop 106⟩, by cbv, ?_⟩
    refine Decoder.bind_eq_ok_iff.2 ⟨[], ⟨108, shuffledFile.drop 108⟩, by cbv, ?_⟩
    refine Decoder.bind_eq_ok_iff.2 ⟨[shuffledMethod], ⟨222, shuffledFile.drop 222⟩, ?_, by cbv⟩
    refine Decoder.bind_eq_ok_iff.2 ⟨1, ⟨110, shuffledFile.drop 110⟩, by cbv, ?_⟩
    exact Decoder.bind_eq_ok_iff.2 ⟨shuffledMethod, _, readMethod_shuffledFile, rfl⟩
  unfold Class.ofBytes StateT.run
  rw [hread]

/-- The class file that is written for it. -/
def gatheredFile : Bytes := (shuffledFile.set 211 0).set 221 1

theorem run_shuffledClass : ∃ P, (classFile false shuffledClass).run
    (Pool.seeded shuffledClass.layout.pool shuffledClass.layout.bootstrap) = .ok (gatheredFile, P) :=
  ⟨_, by cbv⟩

theorem toBytes_shuffledClass : shuffledClass.toBytes false = .ok gatheredFile := by
  obtain ⟨P, hrun⟩ := run_shuffledClass
  exact toBytes_eq_ok hrun

theorem keepsLengths_shuffledCode (P : Pool) : shuffledCode.KeepsLengths P shuffledMethod :=
  ⟨_, by cbv, by cbv⟩

end ClassTree
