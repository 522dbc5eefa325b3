/-
# ClassTree.Proofs.Spelling — annotations spelled out with the entries of a pool

The bytes of an annotation spell it out: letters of tags, counts, and indices of entries of a pool.
They are read as the annotation by whoever looks into that pool, and they are written for it by
every pool that finds the entries where they stand. Both follow from the relation between values and
bytes; neither direction is proved through the other.
-/
import Mathlib.Tactic.FinCases
import ClassTree.Proofs.Acceptance.Element
import ClassTree.Proofs.Exact

namespace ClassTree

open Decoding Encoding Encoder

variable {entries : Array (Option Pool.Entry)} {t : Table} {P : Pool} {bytes : Bytes} {visible : Bool}

/-! ## Indices -/

namespace Decoding.Table

theorem reads_entry {i : Nat} {e : Pool.Entry} (h : t.entries[i]? = some (some e)) :
    Reads (t.entry i) [] e := by
  intro position rest
  unfold Table.entry
  rw [h]
  rfl

theorem reads_text {i : Nat} {s : Text} (h : t.entries[i]? = some (some (.utf8 s))) :
    Reads (t.utf8 i) [] s := (t.reads_entry h).bind_nil (.pure s)

end Decoding.Table

namespace Pool

/-- Two bytes are the index of an entry. -/
def Spells (entries : Array (Option Entry)) (e : Entry) (bytes : Bytes) : Prop :=
  ∃ i : Nat, entries[i]? = some (some e) ∧ Bytes.unsigned? 2 (i : Nat) = some bytes

/-- A pool finds entries where they stand. -/
def Locates (P : Pool) (entries : Array (Option Entry)) : Prop :=
  ∀ (i : Nat) (e : Entry), entries[i]? = some (some e) → P.index[e]? = some i

theorem Locates.of_within {Q : Pool} (h : P.Locates entries) (hwithin : P.Within Q) :
    Q.Locates entries := fun i e he => hwithin.index (h i e he)

/-- A pool finds each entry of its seed where it stands, if no two of them are equal. -/
theorem locates_seeded (hseed : IsSeed entries.toList) (hnodup : (entries.toList.filterMap id).Nodup)
    (bootstrap : List Bootstrap) : (seeded entries.toList bootstrap).Locates entries := by
  obtain ⟨hformed, hlist, -⟩ := wellFormed_seeded hseed bootstrap
  intro i e he
  have hentries : none :: seedEntries entries.toList = entries.toList := by
    rcases hseed with hempty | ⟨es, hes, -⟩
    · rw [← Array.getElem?_toList, hempty] at he
      cases he
    · rw [hes]
      rfl
  have hread : ∀ e', some e' ∈ entries.toList → e'.IsRead := by
    intro e' he'
    rw [← hentries, ← hlist] at he'
    exact isRead_of_mem_seeded hseed (Array.mem_toList_iff.1 he')
  rw [← Array.getElem?_toList] at he
  obtain ⟨hi, hentry⟩ := List.getElem?_eq_some_iff.1 he
  have hkey : e.key = e := (hread e (List.mem_of_getElem? he)).key_eq
  have hfirst : firstIndex? entries.toList e = some i := by
    refine List.findIdx?_eq_some_iff_getElem.2 ⟨hi, by simp [hentry, hkey], ?_⟩
    intro j hj hsame
    -- an earlier entry of the same key is the same entry
    obtain ⟨e', he', hkey'⟩ : ∃ e', entries.toList[j] = some e' ∧ e'.key = e := by
      simpa [Option.any_eq_true] using hsame
    have heq : e' = e := (hread e' (he' ▸ List.getElem_mem _)).key_eq ▸ hkey'
    have hdistinct := List.pairwise_iff_getElem.1 (List.pairwise_filterMap.1 hnodup) j i
      (Nat.lt_trans hj hi) hi hj
    exact hdistinct e' (by rw [he', id]) e (by rw [hentry, id]) heq
  rw [hformed.index, hlist, hentries, hfirst]

theorem Spells.reads_utf8 {s : Text} (h : Spells t.entries (.utf8 s) bytes) {α : Type}
    {k : Text → Decoder α} {rest : Bytes} {a : α} (hk : Reads (k s) rest a) :
    Reads (do k (← t.utf8 (← Decoder.u2))) (bytes ++ rest) a := by
  obtain ⟨i, hi, hindex⟩ := h
  exact (Reads.of_unsigned? hindex).bind (.nil_bind (t.reads_text hi) hk)

theorem Spells.fixed_index {s : Text} (h : Spells entries (.utf8 s) bytes) (hP : P.Locates entries) :
    Fixed P (Encoder.index (addUtf8 s)) bytes := by
  obtain ⟨i, hi, hindex⟩ := h
  exact fixed_index_iff.2 ⟨i, fixed_addUtf8_iff.2 (hP i _ hi), hindex⟩

end Pool

/-! ## Values -/

/-- The constant of a tag stands in an entry. No entry counts that holds no number. -/
inductive ElementTag.Holds : ElementTag → Constant → Pool.Entry → Prop
  | integer {tag : ElementTag} (htag : tag ∈ [.byte, .char, .int, .short, .boolean]) (n : Int) :
      Holds tag (.int n) (.integer n)
  | long (n : Int) : Holds .long (.int n) (.long n)
  | float {x : Number.Single} (h : x.toDouble.isNaN = false) :
      Holds .float (.float x.toDouble) (.float x)
  | double {x : Number.Double} (h : x.isNaN = false) : Holds .double (.float x) (.double x)
  | text {tag : ElementTag} (htag : tag ∈ [.text, .type]) (s : Text) : Holds tag (.text s) (.utf8 s)

section

variable (entries : Array (Option Pool.Entry)) (visible : Bool)

namespace ElementValue

mutual

/-- The bytes of a value: the letter of its tag, and what belongs to that. -/
def IsSpelled : ElementValue → Bytes → Prop
  | .scalar tag v, bytes => ∃ (b : UInt8) (e : Pool.Entry) (index : Bytes),
    tag.letter = [Fin.ofNat _ b.toNat] ∧ tag.Holds v e ∧ Pool.Spells entries e index ∧ bytes = b :: index
  | .enum descriptor name, bytes => ∃ d n, Pool.Spells entries (.utf8 descriptor) d ∧
    Pool.Spells entries (.utf8 name) n ∧ bytes = 0x65 :: (d ++ n)
  | .nested descriptor visible' values, bytes => visible' = visible ∧ ∃ d count parts,
    Pool.Spells entries (.utf8 descriptor) d ∧ Bytes.unsigned? 2 values.length = some count ∧
      AreSpelledNamed values parts ∧ bytes = 0x40 :: (d ++ (count ++ parts.flatten))
  | .array es, bytes => ∃ count parts, Bytes.unsigned? 2 es.length = some count ∧
    AreSpelled es parts ∧ bytes = 0x5B :: (count ++ parts.flatten)

/-- The bytes of values in a row. -/
def AreSpelled : List ElementValue → List Bytes → Prop
  | [], parts => parts = []
  | v :: rest, parts => ∃ part more, IsSpelled v part ∧ AreSpelled rest more ∧ parts = part :: more

/-- The bytes of named values in a row. -/
def AreSpelledNamed : List (Text × ElementValue) → List Bytes → Prop
  | [], parts => parts = []
  | (name, v) :: rest, parts => ∃ n part more, Pool.Spells entries (.utf8 name) n ∧ IsSpelled v part ∧
    AreSpelledNamed rest more ∧ parts = (n ++ part) :: more

end

end ElementValue

namespace AnnotationUse

/-- The bytes of an annotation. -/
def IsSpelled (a : AnnotationUse) (bytes : Bytes) : Prop :=
  ∃ d count parts, Pool.Spells entries (.utf8 a.descriptor) d ∧
    Bytes.unsigned? 2 a.values.length = some count ∧
      ElementValue.AreSpelledNamed entries a.visible a.values parts ∧
        bytes = d ++ (count ++ parts.flatten)

/-- The bytes of the annotations of a visibility. -/
def AreSpelled (as : List AnnotationUse) (bytes : Bytes) : Prop :=
  ∃ count parts, Bytes.unsigned? 2 as.length = some count ∧
    List.Forall₂ (fun (a : AnnotationUse) part => a.visible = visible ∧
      a.IsSpelled entries part) as parts ∧
      bytes = count ++ parts.flatten

end AnnotationUse

end

/-! ## Spelled values are read -/

namespace Decoding

/-- The tag of a constant has a letter of its own. -/
theorem ofLetter?_of_holds {tag : ElementTag} {v : Constant} {e : Pool.Entry} (h : tag.Holds v e) :
    ElementTag.ofLetter? tag.letter = some tag := by
  cases h with
  | integer htag n => fin_cases htag <;> decide
  | text htag s => fin_cases htag <;> decide
  | _ => decide

/-- A constant under a tag is read. -/
theorem reads_scalar {tag : ElementTag} {v : Constant}
    (h : (ElementValue.scalar tag v).IsSpelled t.entries visible bytes) (fuel : Nat) :
    Reads (readElementWith t visible (fuel + 1)) bytes (.scalar tag v) := by
  obtain ⟨b, e, index, hletter, hholds, ⟨i, hi, hindex⟩, rfl⟩ := h
  apply Reads.at_position
  intro start
  apply (Reads.byte b).bind
  rw [← hletter, ofLetter?_of_holds hholds]
  have htext {s : Text} (f : Text → ElementValue) (hs : e = .utf8 s) :
      Reads (do return f (← t.utf8 (← Decoder.u2))) index (f s) :=
    (Reads.of_unsigned? hindex).bind_nil ((t.reads_text (hs ▸ hi)).map f)
  have hconstant {kind : Text} {c : Constant} (hc : Reads (t.constant i) [] (kind, c)) :
      Reads (do return ElementValue.scalar tag (← t.constant (← Decoder.u2)).2) index (.scalar tag c) :=
    (Reads.of_unsigned? hindex).bind_nil (hc.map fun found => ElementValue.scalar tag found.2)
  cases hholds with
  | integer htag n =>
    have hc : Reads (t.constant i) [] ("int", Constant.int n) := (t.reads_entry hi).bind_nil (.pure _)
    fin_cases htag <;> exact hconstant hc
  | text htag s =>
    fin_cases htag
    · exact htext (fun s => .scalar .text (.text s)) rfl
    · exact htext (fun s => .scalar .type (.text s)) rfl
  | long n =>
    have hc : Reads (t.constant i) [] ("long", Constant.int n) := (t.reads_entry hi).bind_nil (.pure _)
    exact hconstant hc
  | @float x hx =>
    have hc : Reads (t.constant i) [] ("float", Constant.float x.toDouble) :=
      (t.reads_entry hi).bind_nil (.pure _)
    exact hconstant hc
  | @double x hx =>
    have hc : Reads (t.constant i) [] ("double", Constant.float x) :=
      (t.reads_entry hi).bind_nil (.pure _)
    exact hconstant hc

/-- A spelled value takes a byte at least. -/
theorem pos_of_isSpelled {v : ElementValue} (h : v.IsSpelled entries visible bytes) :
    0 < bytes.length := by
  cases v with
  | scalar tag v =>
    obtain ⟨b, e, index, -, -, -, rfl⟩ := h
    exact Nat.succ_pos _
  | enum descriptor name =>
    obtain ⟨d, n, -, -, rfl⟩ := h
    exact Nat.succ_pos _
  | nested descriptor visible' values =>
    obtain ⟨-, d, count, parts, -, -, -, rfl⟩ := h
    exact Nat.succ_pos _
  | array es =>
    obtain ⟨count, parts, -, -, rfl⟩ := h
    exact Nat.succ_pos _

mutual

/-- A spelled value is read, if there are levels enough for its bytes. -/
theorem reads_readElementWith (v : ElementValue) {bytes : Bytes} (h : v.IsSpelled t.entries visible bytes)
    {fuel : Nat} (hfuel : bytes.length ≤ fuel) : Reads (readElementWith t visible fuel) bytes v := by
  have hpos := pos_of_isSpelled h
  obtain ⟨fuel, rfl⟩ : ∃ n, fuel = n + 1 := ⟨fuel - 1, by omega⟩
  cases v with
  | scalar tag v => exact reads_scalar h fuel
  | enum descriptor name =>
    obtain ⟨d, n, hd, ⟨i, hi, hn⟩, rfl⟩ := h
    apply Reads.at_position
    intro start
    apply (Reads.byte 0x65).bind
    apply hd.reads_utf8
    exact (Reads.of_unsigned? hn).bind_nil ((t.reads_text hi).map _)
  | nested descriptor visible' values =>
    obtain ⟨hvisible, d, count, parts, hd, hcount, hparts, rfl⟩ := h
    rw [hvisible]
    have hlength : parts.flatten.length ≤ fuel := by
      simp only [List.length_cons, List.length_append] at hfuel
      omega
    apply Reads.at_position
    intro start
    apply (Reads.byte 0x40).bind
    apply hd.reads_utf8
    exact (Reads.listOf hcount (reads_named values hparts hlength)).map _
  | array es =>
    obtain ⟨count, parts, hcount, hparts, rfl⟩ := h
    have hlength : parts.flatten.length ≤ fuel := by
      simp only [List.length_cons, List.length_append] at hfuel
      omega
    apply Reads.at_position
    intro start
    apply (Reads.byte 0x5B).bind
    exact (Reads.listOf hcount (reads_elements es hparts hlength)).map _

theorem reads_elements (es : List ElementValue) {parts : List Bytes}
    (h : ElementValue.AreSpelled t.entries visible es parts) {fuel : Nat}
    (hfuel : parts.flatten.length ≤ fuel) :
    List.Forall₂ (Reads (readElementWith t visible fuel)) parts es := by
  cases es with
  | nil =>
    obtain rfl : parts = [] := h
    exact .nil
  | cons v rest =>
    obtain ⟨part, more, hv, hrest, rfl⟩ := h
    rw [List.flatten_cons, List.length_append] at hfuel
    exact .cons (reads_readElementWith v hv (by omega)) (reads_elements rest hrest (by omega))

theorem reads_named (values : List (Text × ElementValue)) {parts : List Bytes}
    (h : ElementValue.AreSpelledNamed t.entries visible values parts) {fuel : Nat}
    (hfuel : parts.flatten.length ≤ fuel) :
    List.Forall₂ (Reads (do
      let name ← t.utf8 (← Decoder.u2)
      return (name, ← readElementWith t visible fuel))) parts values := by
  match values with
  | [] =>
    obtain rfl : parts = [] := h
    exact .nil
  | (name, v) :: rest =>
    obtain ⟨n, part, more, hn, hv, hrest, rfl⟩ := h
    simp only [List.flatten_cons, List.length_append] at hfuel
    refine .cons ?_ (reads_named rest hrest (by omega))
    exact hn.reads_utf8 ((reads_readElementWith v hv (by omega)).map (Prod.mk name))

end

theorem reads_annotationUse {a : AnnotationUse} (h : a.IsSpelled t.entries bytes) {fuel : Nat}
    (hfuel : bytes.length ≤ fuel) : Reads (readAnnotationUse t a.visible fuel) bytes a := by
  obtain ⟨d, count, parts, hd, hcount, hparts, rfl⟩ := h
  have hlength : parts.flatten.length ≤ fuel := by
    simp only [List.length_append] at hfuel
    omega
  apply hd.reads_utf8
  exact (Reads.listOf hcount (reads_named a.values hparts hlength)).map fun values =>
    ({ descriptor := a.descriptor, visible := a.visible, values } : AnnotationUse)

theorem reads_annotationUses {as : List AnnotationUse}
    (h : AnnotationUse.AreSpelled t.entries visible as bytes) :
    Reads (readAnnotationUses t visible) bytes as := by
  obtain ⟨count, parts, hcount, hparts, rfl⟩ := h
  apply reads_nesting
  intro fuel hfuel
  apply Reads.listOf hcount
  rw [List.length_append] at hfuel
  have hall (part : Bytes) (hpart : part ∈ parts) : part.length ≤ fuel := by
    have hle := (List.sublist_flatten_of_mem hpart).length_le
    omega
  clear hcount hfuel
  induction hparts with
  | nil => exact .nil
  | cons ha _ ih =>
    obtain ⟨rfl, ha⟩ := ha
    exact .cons (reads_annotationUse ha (hall _ List.mem_cons_self))
      (ih fun part hpart => hall part (List.mem_cons_of_mem _ hpart))

end Decoding

/-! ## Spelled values are written -/

namespace Encoding

theorem fixed_tagByte {tag : ElementTag} {b : UInt8} (h : tag.letter = [Fin.ofNat _ b.toNat]) :
    Fixed P (tagByte tag) [b] := by
  have hval : (Fin.ofNat 0x110000 b.toNat : CodePoint).val = b.toNat :=
    Nat.mod_eq_of_lt (Nat.lt_trans b.toNat_lt (by decide))
  unfold tagByte
  rw [h]
  dsimp only
  rw [hval, if_pos b.toNat_lt, UInt8.ofNat_toNat]
  exact fixed_pure_iff.2 rfl

/-- The entry of a constant under a tag is found. -/
theorem fixed_addScalar {tag : ElementTag} {v : Constant} {e : Pool.Entry} (h : tag.Holds v e) {i : Nat}
    (hi : P.index[e]? = some i) : Fixed P (addScalar tag v) i := by
  cases h with
  | integer htag n =>
    have hadd : Fixed P (addInteger (.int n)) i := by
      apply fixed_bind_iff.2
      exact ⟨n, fixed_lift_iff.2 rfl, fixed_add_iff.2 hi⟩
    fin_cases htag <;> exact hadd
  | text htag s =>
    have hadd : Fixed P (addText (.text s)) i := fixed_add_iff.2 hi
    fin_cases htag <;> exact hadd
  | long n => exact fixed_add_iff.2 hi
  | float hx =>
    apply fixed_bind_iff.2
    exact ⟨_, fixed_lift_iff.2 (singleOf_toDouble hx), fixed_add_iff.2 hi⟩
  | double hx =>
    apply fixed_bind_iff.2
    exact ⟨_, fixed_lift_iff.2 rfl, fixed_add_iff.2 hi⟩

mutual

/-- A value is written as it is spelled, with any pool that finds each entry at the index where it
stands in the file. The induction is on the value, along with values in a row and with named ones.
-/
theorem fixed_element (hP : P.Locates entries) (v : ElementValue) {bytes : Bytes}
    (h : v.IsSpelled entries visible bytes) : Fixed P (element v) bytes := by
  unfold element
  cases v with
  | scalar tag v =>
    obtain ⟨b, e, index, hletter, hholds, ⟨i, hi, hindex⟩, rfl⟩ := h
    simp only [fixed_bind_iff, fixed_u2_iff, fixed_pure_iff]
    exact ⟨_, fixed_tagByte hletter, i, fixed_addScalar hholds (hP i e hi), index, hindex, rfl⟩
  | enum descriptor name =>
    obtain ⟨d, n, ⟨i, hi, hd⟩, ⟨j, hj, hn⟩, rfl⟩ := h
    simp only [fixed_bind_iff, fixed_addUtf8_iff, fixed_u2_iff, fixed_pure_iff]
    exact ⟨i, hP i _ hi, j, hP j _ hj, d, hd, n, hn, rfl⟩
  | nested descriptor visible' values =>
    obtain ⟨-, d, count, parts, hd, hcount, hparts, rfl⟩ := h
    simp only [fixed_bind_iff, fixed_u2_iff, fixed_pure_iff]
    refine ⟨d, hd.fixed_index hP, count, hcount, parts.flatten, ?_, by rw [List.append_assoc]⟩
    exact fixed_named_iff.2 ⟨parts, areWritten_named hP values hparts, rfl⟩
  | array es =>
    obtain ⟨count, parts, hcount, hparts, rfl⟩ := h
    simp only [fixed_bind_iff, fixed_u2_iff, fixed_pure_iff]
    refine ⟨count, hcount, parts.flatten, ?_, rfl⟩
    exact fixed_elements_iff.2 ⟨parts, areWritten_elements hP es hparts, rfl⟩

theorem areWritten_elements (hP : P.Locates entries) (es : List ElementValue) {parts : List Bytes}
    (h : ElementValue.AreSpelled entries visible es parts) :
    List.Forall₂ (fun v part => Fixed P (element v) part) es parts := by
  cases es with
  | nil =>
    obtain rfl : parts = [] := h
    exact .nil
  | cons v rest =>
    obtain ⟨part, more, hv, hrest, rfl⟩ := h
    exact .cons (fixed_element hP v hv) (areWritten_elements hP rest hrest)

/-- Named values are written as they are spelled. -/
theorem areWritten_named (hP : P.Locates entries) (values : List (Text × ElementValue))
    {parts : List Bytes}
    (h : ElementValue.AreSpelledNamed entries visible values parts) :
    List.Forall₂ (IsNamedElement P) values parts := by
  match values with
  | [] =>
    obtain rfl : parts = [] := h
    exact .nil
  | (name, v) :: rest =>
    obtain ⟨n, part, more, ⟨i, hi, hn⟩, hv, hrest, rfl⟩ := h
    refine .cons ?_ (areWritten_named hP rest hrest)
    exact ⟨i, n, part, hP i _ hi, hn, fixed_element hP v hv, rfl⟩

end

theorem fixed_annotationUses (hP : P.Locates entries) {as : List AnnotationUse}
    (h : AnnotationUse.AreSpelled entries visible as bytes) : Fixed P (annotationUses as) bytes := by
  obtain ⟨count, parts, hcount, hparts, rfl⟩ := h
  refine fixed_listOf_iff.2 ⟨count, hcount, parts, hparts.imp ?_, rfl⟩
  rintro a _ ⟨-, d, count, parts, hd, hcount, hparts, rfl⟩
  unfold annotationUse
  simp only [fixed_bind_iff, fixed_u2_iff, fixed_pure_iff]
  refine ⟨d, hd.fixed_index hP, count, hcount, parts.flatten, ?_, by rw [List.append_assoc]⟩
  exact fixed_named_iff.2 ⟨parts, areWritten_named hP a.values hparts, rfl⟩

end Encoding

end ClassTree
