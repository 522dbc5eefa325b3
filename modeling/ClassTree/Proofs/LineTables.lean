/-
# ClassTree.Proofs.LineTables — line number tables

The body of a method has a marker wherever a line begins, and its layout remembers how the class
file shared these markers out among tables. A body may change while its layout does not. Writing
therefore takes the layout's word only if it names every marker once; otherwise all markers go into
one table, in the order of the body. What has been read is written with the tables that it had, if
its instructions keep their lengths.
-/
import ClassTree.Proofs.Encoding.CodeTables

namespace ClassTree

open Decoding Encoding Encoder
open ModifiedUtf8 (isPlain_ofString)

/-- The line number tables among the attributes of some code. -/
def Attribute.lineTables (as : List Attribute) : List (Result (List RawLine)) :=
  Attribute.tables as AttributeName.lineNumbers (Decoder.listOf readLine)

/-- An entry of a table as the offset and the line of a marker. -/
def Decoding.RawLine.entry (line : RawLine) : Nat × Int := (line.offset, line.line)

/-- Entries are the same if their offsets and lines are. -/
theorem Decoding.RawLine.entry_injective : Function.Injective RawLine.entry := by
  rintro ⟨offset, line⟩ ⟨offset', line'⟩ h
  obtain ⟨hoffset, hline⟩ := Prod.mk.inj h
  rw [RawLine.mk.injEq]
  exact ⟨hoffset, Int.ofNat.inj hline⟩

namespace Encoding

variable {P : Pool} {l : Layout} {body : List Item}

/-! ## Markers and the instructions behind them -/

/-- The line markers of a body whose first item is at a position of a layout, each with the offset
of the next instruction, or of the end if there is none. -/
def Layout.linesFrom (l : Layout) (position : Nat) : List Item → List (Nat × Int)
  | [] => []
  | .line n :: rest =>
    (l.offset (position + 1 + (rest.takeWhile Item.isMarker).length), n) ::
      l.linesFrom (position + 1) rest
  | _ :: rest => l.linesFrom (position + 1) rest

/-- Markers stand at the offset of what is behind them. -/
theorem Layout.offset_takeWhile (hl : Fixed P (Layout.of body) l) {before items : List Item}
    (hbody : body = before ++ items) :
    l.offset (before.length + (items.takeWhile Item.isMarker).length) = l.offset before.length := by
  induction items generalizing before with
  | nil => rfl
  | cons item rest ih =>
    cases hmarker : item.isMarker with
    | false => simp [hmarker]
    | true =>
      have hitem : body[before.length]? = some item := by rw [hbody]; simp
      have hrest := @ih (before ++ [item]) (by rw [hbody, List.append_cons])
      rw [List.length_append, List.length_singleton, offset_succ_of_marker hl hitem hmarker] at hrest
      rw [List.takeWhile_cons_of_pos hmarker, List.length_cons, ← hrest]
      congr 1
      omega

/-- A line marker at an offset. -/
def lineAt? : Nat × Item → Option (Nat × Int)
  | (offset, .line n) => some (offset, n)
  | _ => none

/-- The markers of a body are collected from its items. -/
theorem toList_linesOf (l : Layout) (body : List Item) : (linesOf l body).toList =
    (body.zipIdx.map fun p => (l.offset p.2, p.1)).filterMap lineAt? := by
  unfold linesOf
  rw [List.filterMap_map]
  refine List.filterMap_congr fun p _ => ?_
  obtain ⟨item, position⟩ := p
  cases item <;> rfl

theorem linesOf_eq (hl : Fixed P (Layout.of body) l) : (linesOf l body).toList = l.linesFrom 0 body := by
  have hfrom (before items : List Item) (hbody : body = before ++ items) :
      ((items.zipIdx before.length).map fun p => (l.offset p.2, p.1)).filterMap lineAt? =
        l.linesFrom before.length items := by
    induction items generalizing before with
    | nil => rfl
    | cons item rest ih =>
      have hrest := ih (before ++ [item]) (by rw [hbody, List.append_cons])
      rw [List.length_append, List.length_singleton] at hrest
      rw [List.zipIdx_cons, List.map_cons]
      cases item with
      | line n =>
        have hoffset := Layout.offset_takeWhile hl hbody
        rw [List.takeWhile_cons_of_pos rfl, List.length_cons, ← Nat.add_assoc,
          Nat.add_right_comm] at hoffset
        rw [Layout.linesFrom, hoffset, ← hrest]
        rfl
      | _ => exact (List.filterMap_cons_none rfl).trans hrest
  rw [toList_linesOf]
  exact hfrom [] body rfl

/-! ## Markers among tables -/

/-- A marker of some lines that is named by its number. -/
def IsNamed (lines : List (Nat × Int)) (i : Int) (line : Nat × Int) : Prop :=
  ∃ n : Nat, i = n ∧ lines[n]? = some line

/-- The markers of a body are shared out among tables: as a hint says if it names each of them once,
and all in one table otherwise. -/
structure SharedOut (lines : List (Nat × Int)) (hint : List (List Int))
    (tables : List (List (Nat × Int))) : Prop where
  perm : tables.flatten.Perm lines
  named : NamesAll lines.length hint → List.Forall₂ (List.Forall₂ (IsNamed lines)) hint tables
  unnamed : ¬ NamesAll lines.length hint → tables = gathered lines

theorem filterMap_range_getElem? (lines : List (Nat × Int)) :
    (List.range lines.length).filterMap (fun n => lines[n]?) = lines := by
  have hall : (List.range lines.length).map (fun n => lines[n]?) = lines.map some :=
    List.ext_getElem (by simp) fun i hi _ => by simp
  have hfound := congrArg (List.filterMap id) hall
  rw [List.filterMap_map, List.filterMap_map] at hfound
  exact hfound.trans List.filterMap_some

/-- What a table of a hint leads to. -/
theorem forall₂_isNamed {lines : List (Nat × Int)} {table : List Int}
    (h : ∀ i ∈ table, ∃ n : Nat, i = n ∧ n < lines.length) :
    List.Forall₂ (IsNamed lines) table ((table.map Int.toNat).filterMap fun n => lines[n]?) := by
  induction table with
  | nil => exact .nil
  | cons i table ih =>
    obtain ⟨n, rfl, hn⟩ := h _ List.mem_cons_self
    have hat : lines[n]? = some lines[n] := List.getElem?_eq_getElem hn
    rw [List.map_cons, Int.toNat_natCast, List.filterMap_cons_some hat]
    exact .cons ⟨n, rfl, hat⟩ (ih fun i hi => h i (List.mem_cons_of_mem _ hi))

theorem perm_of_isNamed {lines : List (Nat × Int)} {hint : List (List Int)}
    {tables : List (List (Nat × Int))} (hhint : NamesAll lines.length hint)
    (h : List.Forall₂ (List.Forall₂ (IsNamed lines)) hint tables) : tables.flatten.Perm lines := by
  -- looking up all numbers of the hint is looking up all numbers there are, in another order
  have heq : tables.flatten = hint.flatten.filterMap fun i => lines[i.toNat]? := by
    have hflat := List.rel_flatten h
    generalize hint.flatten = named, tables.flatten = found at hflat
    induction hflat with
    | nil => rfl
    | cons hnamed _ ih =>
      obtain ⟨n, rfl, hn⟩ := hnamed
      rw [List.filterMap_cons, Int.toNat_natCast, hn, ih]
  rw [heq]
  refine (hhint.filterMap _).trans (.of_eq ?_)
  rw [List.filterMap_map]
  exact filterMap_range_getElem? lines

/-- The writer shares the line markers out as the hint says if it names each of them once, and puts
all of them into one table in their order otherwise; without markers there is no table. -/
theorem sharedOut_lineTables (lines : Array (Nat × Int)) (hint : List (List Int)) :
    SharedOut lines.toList hint
      ((lineTables hint lines.size).map fun table => table.filterMap fun n => lines[n]?) := by
  have hcount : lines.toList.length = lines.size := Array.length_toList
  have hlines (table : List Nat) :
      (table.filterMap fun n => lines[n]?) = table.filterMap fun n => lines.toList[n]? := by
    simp only [Array.getElem?_toList]
  simp only [hlines]
  unfold lineTables
  by_cases h : NamesAll lines.size hint
  · have htables : List.Forall₂ (List.Forall₂ (IsNamed lines.toList)) hint
        ((hint.map fun table => table.map Int.toNat).map fun table =>
          table.filterMap fun n => lines.toList[n]?) := by
      rw [List.map_map, List.forall₂_map_right_iff, List.forall₂_same]
      refine fun table htable => forall₂_isNamed fun i hi => ?_
      obtain ⟨n, hn, rfl⟩ := List.mem_map.1 (h.subset (List.mem_flatten_of_mem htable hi))
      exact ⟨n, rfl, hcount ▸ List.mem_range.1 hn⟩
    rw [if_pos ((mergeSort_flatten_eq_iff _ _).2 h)]
    exact ⟨perm_of_isNamed (hcount ▸ h) htables, fun _ => htables, fun hnot => absurd (hcount ▸ h) hnot⟩
  · rw [if_neg fun heq => h ((mergeSort_flatten_eq_iff _ _).1 heq)]
    have htables : ((if lines.size = 0 then [] else [List.range lines.size]).map fun table =>
        table.filterMap fun n => lines.toList[n]?) = gathered lines.toList := by
      unfold gathered
      rw [← hcount]
      split
      · next hempty => rw [if_pos (List.isEmpty_iff_length_eq_zero.2 hempty), List.map_nil]
      · next hsome =>
        rw [if_neg fun hempty => hsome (List.isEmpty_iff_length_eq_zero.1 hempty), List.map_singleton,
          filterMap_range_getElem?]
    rw [htables]
    refine ⟨.of_eq ?_, fun hnames => absurd (hcount ▸ hnames) h, fun _ => rfl⟩
    unfold gathered
    split
    · next hempty => rw [List.isEmpty_iff.1 hempty, List.flatten_nil]
    · exact List.flatten_singleton

end Encoding

/-! ## Tables that are read -/

namespace Decoding.RawCode

variable {r : RawCode} {seen : List (Int × Label)} {l : LabelledCode} {code : Code} {P : Pool}
  {layout : Layout}

/-- The marker of an entry with a number. -/
def IsLineOf (r : RawCode) (n : Nat) (line : Nat × Int) : Prop :=
  ∃ p ∈ r.lines.flatten, p.1 = n ∧ line = p.2.entry

/-- The markers at an offset are those of the entries with it. -/
theorem forall₂_isLineOf_before (r : RawCode) (frames : List (Nat × Frame)) (offset : Nat) :
    List.Forall₂ r.IsLineOf ((r.markers seen frames).entries offset)
      ((((r.markers seen frames).before offset).map (Prod.mk offset)).filterMap lineAt?) := by
  have hlines : (((r.markers seen frames).before offset).map (Prod.mk offset)).filterMap lineAt? =
      ((r.markers seen frames).lines.at_ offset).map fun entry => (offset, (entry.2 : Int)) := by
    unfold Markers.before
    simp [List.filterMap_map, Function.comp_def, lineAt?]
  unfold Markers.entries
  rw [hlines, lines_at, List.map_map, List.map_map, List.forall₂_map_left_iff,
    List.forall₂_map_right_iff, List.forall₂_same]
  intro p hp
  obtain ⟨hmem, hoffset⟩ := List.mem_filter.1 hp
  refine ⟨p, hmem, rfl, ?_⟩
  rw [← Int.ofNat.inj (of_decide_eq_true hoffset)]
  rfl

/-- The markers of a body are those of the entries, with the offsets of these if the instructions
keep their lengths. -/
theorem Assembles.forall₂_isLineOf (h : r.Assembles seen l code) (hr : InOrder r.length r.instructions)
    (hstart : startOf r.length r.instructions = 0) (hl : Fixed P (Layout.of code.body) layout)
    (hkept : layout.lengthsFrom 0 code.body = r.lengths) :
    List.Forall₂ r.IsLineOf (r.entries (r.markers seen l.frames) l.instructions)
      (linesOf layout code.body).toList := by
  have hlines : (linesOf layout code.body).toList =
      (r.placed (r.markers seen l.frames) l.instructions).filterMap lineAt? := by
    rw [← h.map_offset hr hstart hl hkept, toList_linesOf]
  rw [hlines]
  unfold placed entries
  rw [List.filterMap_append, List.filterMap_flatMap]
  refine List.rel_append (List.rel_flatMap (R := Eq) (List.forall₂_refl _) ?_)
    (forall₂_isLineOf_before r l.frames r.length)
  rintro p _ rfl
  have hblock := @forall₂_isLineOf_before seen r l.frames p.1.1
  have hinstruction : [(p.1.1, Item.instruction p.2)].filterMap lineAt? = [] := rfl
  simpa [block, hinstruction] using hblock

/-- The hint leads to the entries of the tables that have been read. -/
theorem Assembles.map_lineTables (h : r.Assembles seen l code) (hr : InOrder r.length r.instructions)
    (hstart : startOf r.length r.instructions = 0) (hl : Fixed P (Layout.of code.body) layout)
    (hkept : layout.lengthsFrom 0 code.body = r.lengths) :
    ((Encoding.lineTables code.lineTables (linesOf layout code.body).size).map fun table =>
      table.filterMap fun n => (linesOf layout code.body)[n]?) =
        r.tables.lines.map (List.map RawLine.entry) := by
  have hlines := h.forall₂_isLineOf hr hstart hl hkept
  have htables := h.lineTables ((h.entries_perm hr).nodup_iff.2 List.nodup_range)
  rw [h.lineTables_eq hr, ← (map_fst_flatten_numberLines r.tables.lines).2, List.map_map, List.map_map]
  generalize r.entries (r.markers seen l.frames) l.instructions = entries at hlines htables
  generalize linesOf layout code.body = lines at hlines
  -- the marker of an entry has its offset and its line
  have hentry {p : Nat × RawLine} {i : Int} (hp : p ∈ r.lines.flatten) (hi : IsMarker entries p i) :
      lines[i.toNat]? = some p.2.entry := by
    obtain ⟨n, hn, rfl⟩ := hi
    obtain ⟨hlt, heq, -⟩ := List.idxOf?_eq_some_iff.1 hn
    have hlt' : n < lines.toList.length := hlines.length_eq ▸ hlt
    obtain ⟨q, hq, hnumber, hline⟩ := hlines.get hlt hlt'
    obtain rfl : q = p := List.inj_on_of_nodup_map r.nodup_numbers hq hp (hnumber.trans heq)
    rw [Int.toNat_natCast, ← Array.getElem?_toList, List.getElem?_eq_getElem hlt']
    exact congrArg some hline
  have htable {table : List (Nat × RawLine)} {markers : List Int}
      (hmem : ∀ p ∈ table, p ∈ r.lines.flatten) (h : List.Forall₂ (IsMarker entries) table markers) :
      ((markers.map Int.toNat).filterMap fun n => lines[n]?) =
        (table.map Prod.snd).map RawLine.entry := by
    induction h with
    | nil => rfl
    | cons hi _ ih =>
      rw [List.map_cons, List.filterMap_cons, hentry (hmem _ List.mem_cons_self) hi,
        ih fun p hp => hmem p (List.mem_cons_of_mem _ hp)]
      rfl
  rw [← List.forall₂_eq_eq_eq, List.forall₂_map_left_iff, List.forall₂_map_right_iff]
  have hall := (List.forall₂_and_left r.lines code.lineTables).2 ⟨fun table hmem => hmem, htables⟩
  exact hall.flip.imp fun markers table ⟨hmem, hmarkers⟩ =>
    htable (fun p hp => List.mem_flatten_of_mem hmem hp) hmarkers

end Decoding.RawCode

/-! ## Tables that are written -/

/-- The line number tables of written code: those that the markers of the method are shared out
among, and those that the method brings as bytes. -/
theorem Encoding.CodeParts.exists_lineTables {owner : Text} {verify stackMaps : Bool} {m : Method}
    {P : Pool} (parts : CodeParts owner verify stackMaps m P) {outline : CodeOutline}
    (h : parts.ShownBy outline) :
    ∃ tables : List (List RawLine), Attribute.lineTables outline.attributes =
        tables.map .ok ++ Attribute.lineTables m.codeAttributes ∧
      ((lineTables m.layout.lineTables (linesOf parts.layout m.body).size).map fun table =>
        table.filterMap fun n => (linesOf parts.layout m.body)[n]?) =
          tables.map (List.map RawLine.entry) := by
  obtain ⟨tables, htables, heq⟩ := Attribute.exists_tables (isPlain_ofString (by decide)) parts.writes
    (filter_lineNumbers m (Flow.Program.placeOf owner m) parts.frames)
    fun table _ data hdata => exists_reads_lineTable hdata
  refine ⟨tables, (congrArg (Attribute.tables · _ _) h.attributes).trans heq, ?_⟩
  rw [← List.forall₂_eq_eq_eq, List.forall₂_map_left_iff, List.forall₂_map_right_iff]
  exact htables

/-- The line number tables that are written for a method hold its line markers, each with the offset
of the next instruction: shared out as the hint says if it names each marker once, and in one table
in the order of the body otherwise. Beside them stand those that the method brings as bytes. The
offsets are those of the layout, at which the instructions stand if each switch over single keys has
a key for each target. The hint of a method that has been read names each marker once, and its
tables are written as they were if its instructions keep their lengths. -/
theorem Class.exists_sharedOut_of_toBytes {written : Bytes} {c : Class} {verify : Bool} {k : Nat}
    {m : Method} (hwrite : c.toBytes verify = .ok written) (hpool : c.HasReadPool)
    (hm : c.methods[k]? = some m) (hcode : m.hasCode = true) :
    ∃ (P : Pool) (l : Layout) (o : Outline) (member : MemberOutline) (code : CodeOutline)
      (tables : List (List RawLine)),
      (classFile verify c).run (Pool.seeded c.layout.pool c.layout.bootstrap) = .ok (written, P) ∧
      Fixed P (Layout.of m.body) l ∧ Outline.ofBytes written = .ok o ∧ o.methods[k]? = some member ∧
      member.code? o.table = some (.ok code) ∧
      Attribute.lineTables code.attributes = tables.map .ok ++ Attribute.lineTables m.codeAttributes ∧
      SharedOut (l.linesFrom 0 m.body) m.layout.lineTables (tables.map (List.map RawLine.entry)) ∧
      ((∀ i, Item.instruction i ∈ m.body → HasKeys i) →
        l.Places P (Flow.Program.placeOf c.name m) m.body code.instructions) ∧
      ∀ file, Class.ofBytes file = .ok c → ∃ (t : Table) (r : RawCode) (code' : CodeOutline)
        (tables' : List (List RawLine)), c.HasCodeAt file k t r code' ∧
        Attribute.lineTables code'.attributes = tables'.map .ok ∧
        Attribute.lineTables m.codeAttributes = [] ∧
        NamesAll (l.linesFrom 0 m.body).length m.layout.lineTables ∧
        (r.KeepsLengths P m → tables = tables') := by
  obtain ⟨w⟩ := written_of_toBytes hwrite
  obtain ⟨o, member, code, parts, ho, -, hmember, hread, hshown⟩ :=
    w.exists_shownBy hpool.isSeed hm hcode
  obtain ⟨tables, hwritten, htables⟩ := parts.exists_lineTables hshown
  have hlines := linesOf_eq parts.fixed_layout
  have hshared := sharedOut_lineTables (linesOf parts.layout m.body) m.layout.lineTables
  rw [hlines, htables] at hshared
  refine ⟨w.pool, parts.layout, o, member, code, tables, w.run, parts.fixed_layout, ho, hmember, hread,
    hwritten, hshared, fun hkeys => hshown.instructions ▸ parts.places hkeys, fun file hfile => ?_⟩
  obtain ⟨t, r, outline, seen, l, assembled, hat, ht, hassembles, hm'⟩ :=
    Class.exists_hasCodeAt hfile hm hcode
  obtain ⟨_, _, a, -, -, -, -, hholds⟩ := hat.parts
  obtain ⟨tables', hread', heq⟩ := hholds.adds.lines
  obtain ⟨raw, hraw, hnames⟩ := hholds.adds.attributes
  obtain ⟨hbody, -, hattributes, hhint⟩ := Method.eq_of_code? hm'
  have hr := (hholds.isSound ht).inOrder
  refine ⟨t, r, outline, tables', hat, hread', ?_, ?_, ?_⟩
  · unfold Attribute.lineTables Attribute.tables
    rw [List.map_eq_nil_iff, List.filter_eq_nil_iff, hattributes, hassembles.attributes, hraw]
    intro b hb hname
    exact hnames b hb (of_decide_eq_true hname ▸ by decide)
  · rw [← hlines, Array.length_toList, hbody, hhint]
    exact hassembles.namesAll hr parts.layout
  · -- the hint leads to the entries that were read, and entries are known by their offsets and lines
    rintro ⟨layout, hlayout, hlengths⟩
    obtain rfl := hlayout.unique parts.fixed_layout
    rw [hbody] at hlayout hlengths htables
    rw [hhint, hassembles.map_lineTables hr hholds.startOf_eq hlayout hlengths] at htables
    have hsame := List.map_injective_iff.2 (List.map_injective_iff.2 RawLine.entry_injective) htables
    exact hsame.symm.trans heq

/-- The line tables of a class that has been read, in their order. -/
theorem exists_sharedOut_shuffledClass : shuffledClass.toBytes false = .ok gatheredFile ∧
    shuffledClass.HasReadPool ∧ shuffledMethod.hasCode = true ∧
    ∃ (P : Pool) (l : Layout) (o : Outline) (member : MemberOutline) (code : CodeOutline)
      (tables : List (List RawLine)),
      (classFile false shuffledClass).run
        (Pool.seeded shuffledClass.layout.pool shuffledClass.layout.bootstrap) = .ok (gatheredFile, P) ∧
      Fixed P (Layout.of shuffledMethod.body) l ∧ Outline.ofBytes gatheredFile = .ok o ∧
      o.methods[0]? = some member ∧ member.code? o.table = some (.ok code) ∧
      Attribute.lineTables code.attributes =
        tables.map .ok ++ Attribute.lineTables shuffledMethod.codeAttributes ∧
      SharedOut (l.linesFrom 0 shuffledMethod.body) shuffledMethod.layout.lineTables
        (tables.map (List.map RawLine.entry)) ∧
      ((∀ i, Item.instruction i ∈ shuffledMethod.body → HasKeys i) →
        l.Places P (Flow.Program.placeOf shuffledClass.name shuffledMethod) shuffledMethod.body
          code.instructions) ∧
      ∀ file, Class.ofBytes file = .ok shuffledClass → ∃ (t : Table) (r : RawCode) (code' : CodeOutline)
        (tables' : List (List RawLine)), shuffledClass.HasCodeAt file 0 t r code' ∧
        Attribute.lineTables code'.attributes = tables'.map .ok ∧
        Attribute.lineTables shuffledMethod.codeAttributes = [] ∧
        NamesAll (l.linesFrom 0 shuffledMethod.body).length shuffledMethod.layout.lineTables ∧
        (r.KeepsLengths P shuffledMethod → tables = tables') := by
  have hpool : shuffledClass.HasReadPool := .inr ⟨shuffledFile, _, Class.ofBytes_shuffledFile, rfl⟩
  exact ⟨toBytes_shuffledClass, hpool, rfl,
    Class.exists_sharedOut_of_toBytes toBytes_shuffledClass hpool rfl rfl⟩

/-! ## Tables that are left out, brought along or led astray -/

/-- A method with a name, a body, a hint for its line tables and attributes that are kept as bytes.
-/
def looseMethod (name : Text) (body : List Item) (hint : List (List Int)) (raw : List Attribute) :
    Method where
  access := 8
  name := name
  descriptor := "()V"
  maxima := some ⟨1, 0⟩
  body := body
  codeAttributes := raw
  layout := { lineTables := hint }

/-- A method without line markers whose hint names one, a method that brings a line table as bytes,
and one with a switch that has a target but no key. -/
def looseClass : Class where
  name := "A"
  super := none
  methods := [
    looseMethod "f" [.instruction (.plain .return_)] [[0]] [],
    looseMethod "g" [.line 7, .instruction (.plain .return_)] []
      [⟨AttributeName.lineNumbers, [0, 1, 0, 0, 0, 8]⟩],
    looseMethod "h" [.label ⟨"L"⟩, .instruction (.plain .iconst_0),
      .instruction (.lookupSwitch ⟨"L"⟩ [] [⟨"L"⟩]), .line 7, .instruction (.plain .return_)] [] []]

/-- The class file that is written for it. -/
def looseFile : Bytes :=
  [202, 254, 186, 190, 0, 0, 0, 52, 0, 9, 1, 0, 1, 65, 7, 0, 1, 1, 0, 1, 102, 1, 0, 3, 40, 41, 86, 1, 0,
    4, 67, 111, 100, 101, 1, 0, 1, 103, 1, 0, 15, 76, 105, 110, 101, 78, 117, 109, 98, 101, 114, 84, 97,
    98, 108, 101, 1, 0, 1, 104, 0, 33, 0, 2, 0, 0, 0, 0, 0, 0, 0, 3, 0, 8, 0, 3, 0, 4, 0, 1, 0, 5, 0, 0,
    0, 13, 0, 1, 0, 0, 0, 0, 0, 1, 177, 0, 0, 0, 0, 0, 8, 0, 6, 0, 4, 0, 1, 0, 5, 0, 0, 0, 37, 0, 1, 0,
    0, 0, 0, 0, 1, 177, 0, 0, 0, 2, 0, 7, 0, 0, 0, 6, 0, 1, 0, 0, 0, 7, 0, 7, 0, 0, 0, 6, 0, 1, 0, 0, 0,
    8, 0, 8, 0, 8, 0, 4, 0, 1, 0, 5, 0, 0, 0, 37, 0, 1, 0, 0, 0, 0, 0, 13, 3, 171, 0, 0, 255, 255, 255,
    255, 0, 0, 0, 0, 177, 0, 0, 0, 1, 0, 7, 0, 0, 0, 6, 0, 1, 0, 20, 0, 7, 0, 0]

theorem toBytes_looseClass : looseClass.toBytes false = .ok looseFile := by
  have hrun : ∃ P, (classFile false looseClass).run (Pool.seeded [] []) = .ok (looseFile, P) :=
    ⟨_, by cbv⟩
  obtain ⟨P, hrun⟩ := hrun
  exact toBytes_eq_ok hrun

/-- The first method has no line table, the second one has a table with a line that is not in its
body, and of the third one the line begins behind the code, which has thirteen bytes. -/
theorem lineTables_looseFile : looseClass.toBytes false = .ok looseFile ∧
    ∃ (o : Outline) (f g h : MemberOutline) (codeF codeG codeH : CodeOutline),
      Outline.ofBytes looseFile = .ok o ∧ o.methods = [f, g, h] ∧
      f.code? o.table = some (.ok codeF) ∧ g.code? o.table = some (.ok codeG) ∧
      h.code? o.table = some (.ok codeH) ∧ Attribute.lineTables codeF.attributes = [] ∧
      Attribute.lineTables codeG.attributes = [.ok [⟨0, 7⟩], .ok [⟨0, 8⟩]] ∧
      Attribute.lineTables codeH.attributes = [.ok [⟨20, 7⟩]] ∧ codeH.instructions.length = 13 ∧
      codeH.instructions.getLast? = some 177 :=
  ⟨toBytes_looseClass, _, _, _, _, _, _, _, by cbv, by cbv, by cbv, by cbv, by cbv, by cbv, by cbv,
    by cbv, by cbv, by cbv⟩

end ClassTree
