/-
# ClassTree.Proofs.Attributes — attributes written and read

An attribute is the index of its name, the length of its content, and the content. What an entity
has as pieces becomes a list of attributes, in the order that the layout asks for; among the pieces
of one name the order stays. Reading takes the attributes one after another: each step must consume
just the content.
-/
import ClassTree.Decoding.Attributes
import ClassTree.Proofs.Encoding.Steady
import ClassTree.Proofs.Table
import ClassTree.Proofs.Text.ModifiedUtf8
import Mathlib.Data.List.TakeWhile

namespace ClassTree

open Encoder

/-! ## Order -/

namespace Encoding

/-- Arranging pieces by name leaves those of one name in their order. -/
theorem filter_ordered (names : List Text) (pieces : List Piece) (n : Text) :
    (Piece.ordered names pieces).filter (fun p => p.name = n) =
      pieces.filter fun p => p.name = n := by
  induction names generalizing pieces with
  | nil => rfl
  | cons name names ih =>
    have hsplit := List.takeWhile_append_dropWhile (p := fun p : Piece => p.name ≠ name) (l := pieces)
    rw [Piece.ordered]
    split
    · next q after hq =>
      have hname : q.name = name := by
        have hhead := List.head?_dropWhile_not (fun p : Piece => p.name ≠ name) pieces
        rw [hq] at hhead
        simpa using hhead
      rw [hq] at hsplit
      conv_rhs => rw [← hsplit]
      rw [List.filter_cons, ih, List.filter_append, List.filter_append, List.filter_cons]
      by_cases hn : name = n
      · -- The pieces before the first one of the name have other names.
        have hbefore : (pieces.takeWhile fun p => p.name ≠ name).filter (fun p => p.name = n) = [] := by
          rw [List.filter_eq_nil_iff]
          intro p hp
          have := List.mem_takeWhile_imp hp
          simpa [hn] using this
        rw [hbefore]
        simp
      · rw [if_neg (by simpa [hname] using hn)]
        rw [if_neg (by simpa [hname] using hn)]
    · exact ih pieces

/-! ## Written attributes -/

variable {P : Pool}

/-- The bytes of an attribute, with all that the pool has. -/
def IsAttribute (P : Pool) (a : Attribute) (bytes : Bytes) : Prop :=
  ∃ i name length, P.index[Pool.Entry.utf8 a.name]? = some i ∧
    Bytes.unsigned? 2 (i : Nat) = some name ∧ Bytes.unsigned? 4 (a.data.length : Nat) = some length ∧
    bytes = name ++ length ++ a.data

/-- The bytes of a list of attributes, with all that the pool has. -/
def AreAttributes (P : Pool) (as : List Attribute) (bytes : Bytes) : Prop :=
  ∃ count parts, Bytes.unsigned? 2 (as.length : Nat) = some count ∧
    List.Forall₂ (IsAttribute P) as parts ∧ bytes = count ++ parts.flatten

/-- A piece becomes an attribute of its name with its content. -/
def Piece.Writes (P : Pool) (p : Piece) (a : Attribute) : Prop :=
  a.name = p.name ∧ Fixed P p.content a.data

instance growing_encode (p : Piece) [Growing p.content] : Growing p.encode := by
  unfold Piece.encode
  infer_instance

theorem fixed_encode_iff {p : Piece} [Growing p.content] {bytes : Bytes} :
    Fixed P p.encode bytes ↔ ∃ a, p.Writes P a ∧ IsAttribute P a bytes := by
  unfold Piece.encode
  simp only [fixed_bind_iff, fixed_addUtf8_iff, fixed_u2_iff, fixed_u4_iff, fixed_pure_iff]
  constructor
  · rintro ⟨i, hi, content, hcontent, name, hname, length, hlength, rfl⟩
    exact ⟨⟨p.name, content⟩, ⟨rfl, hcontent⟩, i, name, length, hi, hname, hlength, rfl⟩
  · rintro ⟨⟨_, content⟩, ⟨rfl, hcontent⟩, i, name, length, hi, hname, hlength, rfl⟩
    exact ⟨i, hi, content, hcontent, name, hname, length, hlength, rfl⟩

/-- Pieces are written as attributes one by one. -/
theorem forall₂_encode_iff {pieces : List Piece} (hgrowing : ∀ p ∈ pieces, Growing p.content)
    {parts : List Bytes} :
    List.Forall₂ (fun p part => Fixed P (Piece.encode p) part) pieces parts ↔
      ∃ as, List.Forall₂ (Piece.Writes P) pieces as ∧ List.Forall₂ (IsAttribute P) as parts := by
  induction pieces generalizing parts with
  | nil =>
    constructor
    · rintro ⟨⟩
      exact ⟨[], .nil, .nil⟩
    · rintro ⟨_, ⟨⟩, ⟨⟩⟩
      exact .nil
  | cons p pieces ih =>
    have := hgrowing p (by simp)
    have ih := @ih fun q hq => hgrowing q (by simp [hq])
    constructor
    · rintro (_ | ⟨hpart, hparts⟩)
      obtain ⟨a, ha, hbytes⟩ := fixed_encode_iff.1 hpart
      obtain ⟨as, has, hall⟩ := ih.1 hparts
      exact ⟨a :: as, .cons ha has, .cons hbytes hall⟩
    · rintro ⟨_, _ | ⟨ha, has⟩, _ | ⟨hbytes, hall⟩⟩
      exact .cons (fixed_encode_iff.2 ⟨_, ha, hbytes⟩) (ih.2 ⟨_, has, hall⟩)

/-- Pieces are written as attributes in the order of the layout. -/
theorem fixed_attributes_iff {pieces : List Piece} (hgrowing : ∀ p ∈ pieces, Growing p.content)
    {order : List Text} {bytes : Bytes} :
    Fixed P (attributes pieces order) bytes ↔
      ∃ as, List.Forall₂ (Piece.Writes P) (Piece.ordered order pieces) as ∧
        AreAttributes P as bytes := by
  have hperm := ordered_perm order pieces
  have hordered : ∀ p ∈ Piece.ordered order pieces, Growing p.content := fun p hp =>
    hgrowing p (hperm.mem_iff.1 hp)
  have heach : ∀ p ∈ Piece.ordered order pieces, Growing p.encode := by
    intro p hp
    have := hordered p hp
    infer_instance
  have := growing_mapM_of_mem heach
  unfold attributes all
  simp only [fixed_bind_iff, fixed_u2_iff, fixed_pure_iff, fixed_mapM_iff_of_mem heach,
    forall₂_encode_iff hordered]
  constructor
  · rintro ⟨count, hcount, _, ⟨parts, ⟨as, has, hparts⟩, rfl⟩, rfl⟩
    refine ⟨as, has, count, parts, ?_, hparts, rfl⟩
    rw [← has.length_eq, hperm.length_eq]
    exact hcount
  · rintro ⟨as, has, count, parts, hcount, hparts, rfl⟩
    rw [← has.length_eq, hperm.length_eq] at hcount
    exact ⟨count, hcount, _, ⟨parts, ⟨as, has, hparts⟩, rfl⟩, rfl⟩

end Encoding

/-! ## Read attributes -/

namespace Decoding

open Encoding (IsAttribute AreAttributes Piece)

variable {σ : Type} {g : Text → Text} {t : Table} {P : Pool}

/-- One step after another, from a first state to a last one. -/
inductive Threads {α : Type} (step : α → σ → σ → Prop) : List α → σ → σ → Prop
  | nil (s : σ) : Threads step [] s s
  | cons {a : α} {as : List α} {s s' s'' : σ} : step a s s' → Threads step as s' s'' →
      Threads step (a :: as) s s''

/-- An attribute is parsed by parsing its content, where its name is known. -/
theorem parses_attribute_of_utf8 {read : Text → Nat → σ → Decoder σ} {name : Text} {i : Nat}
    {index length data : Bytes} {s : σ} {S : σ → Prop}
    (hindex : Bytes.unsigned? 2 i = some index) (hname : Reads (t.utf8 i) [] name)
    (hlength : Bytes.unsigned? 4 (data.length : Nat) = some length)
    (h : Parses True (read name data.length s) data S) :
    Parses True (attribute_ t read s) (index ++ length ++ data) S := by
  rw [List.append_assoc]
  refine .of_reads (Reads.of_unsigned? hindex) (.nil_bind hname ?_)
  refine .of_reads (Reads.of_unsigned? hlength) ?_
  intro position rest
  rcases h position rest with ⟨s', hs', heq⟩ | ⟨hnot, -⟩
  · refine .inl ⟨s', hs', ?_⟩
    refine Decoder.bind_eq_ok_iff.2 ⟨position, _, rfl, ?_⟩
    refine Decoder.bind_eq_ok_iff.2 ⟨(), _, Reads.need (by simp), ?_⟩
    refine Decoder.bind_eq_ok_iff.2 ⟨s', _, heq, ?_⟩
    refine Decoder.bind_eq_ok_iff.2 ⟨position + data.length, _, rfl, ?_⟩
    rw [if_pos rfl]
    rfl
  · exact absurd trivial hnot

/-- An attribute is read by reading its content, where its name is known. -/
theorem reads_attribute_of_utf8 {read : Text → Nat → σ → Decoder σ} {name : Text} {i : Nat}
    {index length data : Bytes} {s s' : σ} (hindex : Bytes.unsigned? 2 i = some index)
    (hname : Reads (t.utf8 i) [] name) (hlength : Bytes.unsigned? 4 (data.length : Nat) = some length)
    (h : Reads (read name data.length s) data s') :
    Reads (attribute_ t read s) (index ++ length ++ data) s' :=
  (parses_attribute_of_utf8 (S := (· = s')) hindex hname hlength (h.parses rfl)).reads

/-- A single attribute is read by reading its content. -/
theorem reads_attributes_of_utf8 {read : Text → Nat → σ → Decoder σ} {name : Text} {i : Nat}
    {index length data : Bytes} {s s' : σ} (hindex : Bytes.unsigned? 2 i = some index)
    (hname : Reads (t.utf8 i) [] name) (hlength : Bytes.unsigned? 4 (data.length : Nat) = some length)
    (h : Reads (read name data.length s) data s') :
    Reads (attributes t read s) ([0, 1] ++ (index ++ length ++ data)) s' := by
  have hcount : Reads Decoder.u2 [0, 1] 1 := Reads.of_unsigned? (by decide)
  exact hcount.bind ((reads_attribute_of_utf8 hindex hname hlength h).bind_nil (.pure s'))

/-- There are no bootstrap methods in a class without interfaces and members, if its only attribute
has another name. -/
theorem reads_scanBootstrap_of_ne {name : Text} {i : Nat} {head index length data : Bytes}
    (hhead : head.length = 6) (hindex : Bytes.unsigned? 2 i = some index)
    (hname : Reads (t.utf8 i) [] name) (hlength : Bytes.unsigned? 4 (data.length : Nat) = some length)
    (hne : name ≠ AttributeName.bootstrapMethods) :
    Reads (scanBootstrap t)
      (head ++ ([0, 0] ++ ([0, 0] ++ ([0, 0] ++ ([0, 1] ++ (index ++ length ++ data)))))) [] := by
  have hnone : Reads Decoder.u2 [0, 0] 0 := Reads.of_unsigned? (by decide)
  have hinterfaces : Reads (Decoder.skip (2 * 0)) [] () := Reads.skip rfl
  have hmembers : Reads (skipMembers t) [0, 0] () := by
    have hempty : Bytes.unsigned? 2 ([] : List Unit).length = some [0, 0] := by decide
    exact (Reads.listOf hempty .nil).bind_nil (.pure ())
  unfold scanBootstrap
  refine (Reads.skip hhead).bind (hnone.bind (hinterfaces.nil_bind ?_))
  refine hmembers.bind (hmembers.bind ?_)
  refine Reads.bind_nil (a := [[]]) ?_ (.pure _)
  refine reads_attributes_of_utf8 hindex hname hlength fun position rest => ?_
  simp only [hne, if_false]
  show Except.ok ([[]], (⟨position + data.length, (data ++ rest).drop data.length⟩ : Cursor)) = _
  rw [List.drop_left]

/-- An attribute with a name and a length stands at a position of a file. -/
structure IsAttributeAt (t : Table) (file : Bytes) (position length : Nat) (name : Text) : Prop where
  index : ∃ i, Decoder.u2 ⟨position, file.drop position⟩ =
      .ok (i, ⟨position + 2, file.drop (position + 2)⟩) ∧
    t.utf8 i ⟨position + 2, file.drop (position + 2)⟩ =
      .ok (name, ⟨position + 2, file.drop (position + 2)⟩)
  size : Decoder.u4 ⟨position + 2, file.drop (position + 2)⟩ =
    .ok (length, ⟨position + 6, file.drop (position + 6)⟩)
  room : position + 6 + length ≤ file.length

namespace IsAttributeAt

variable {file : Bytes} {position length : Nat} {name : Text}

/-- An attribute is read by reading its content. -/
theorem attribute_eq_ok (h : IsAttributeAt t file position length name) {σ : Type}
    {read : Text → Nat → σ → Decoder σ} {s s' : σ}
    (hread : read name length s ⟨position + 6, file.drop (position + 6)⟩ =
      .ok (s', ⟨position + 6 + length, file.drop (position + 6 + length)⟩)) :
    attribute_ t read s ⟨position, file.drop position⟩ =
      .ok (s', ⟨position + 6 + length, file.drop (position + 6 + length)⟩) := by
  obtain ⟨i, hi, hname⟩ := h.index
  have hroom : length ≤ (file.drop (position + 6)).length := by
    rw [List.length_drop]
    have hfile := h.room
    omega
  refine Decoder.bind_eq_ok_iff.2 ⟨i, _, hi, Decoder.bind_eq_ok_iff.2 ⟨name, _, hname, ?_⟩⟩
  refine Decoder.bind_eq_ok_iff.2 ⟨length, _, h.size, Decoder.bind_eq_ok_iff.2 ⟨_, _, rfl, ?_⟩⟩
  refine Decoder.bind_eq_ok_iff.2 ⟨(), _, Reads.need hroom, ?_⟩
  refine Decoder.bind_eq_ok_iff.2 ⟨s', _, hread, Decoder.bind_eq_ok_iff.2 ⟨_, _, rfl, ?_⟩⟩
  rw [if_pos rfl]
  rfl

/-- An attribute with another name has no bootstrap methods. -/
theorem scan_eq_ok (h : IsAttributeAt t file position length name)
    (hne : name ≠ AttributeName.bootstrapMethods) (found : List (List Bootstrap)) :
    attribute_ t (fun name length found => do
      let start ← get
      let table ← if name = AttributeName.bootstrapMethods then Decoder.listOf readBootstrap else pure []
      set (start.skip length)
      return table :: found) found ⟨position, file.drop position⟩ =
        .ok ([] :: found, ⟨position + 6 + length, file.drop (position + 6 + length)⟩) := by
  refine h.attribute_eq_ok ?_
  have hbehind : file.drop (position + 6 + length) = (file.drop (position + 6)).drop length :=
    List.drop_drop.symm
  simp only [hne, if_false]
  rw [hbehind]
  rfl

end IsAttributeAt

theorem reads_attribute (ht : Backs g t P) {read : Text → Nat → σ → Decoder σ} {a : Attribute}
    {bytes : Bytes} (ha : IsAttribute P a bytes) {s s' : σ}
    (h : Reads (read (g a.name) a.data.length s) a.data s') :
    Reads (attribute_ t read s) bytes s' := by
  obtain ⟨i, name, length, hi, hname, hlength, rfl⟩ := ha
  exact reads_attribute_of_utf8 hname (ht.reads_utf8 hi) hlength h

/-- The attributes of an entity are read one after another. -/
theorem reads_attributes (ht : Backs g t P) {read : Text → Nat → σ → Decoder σ}
    {as : List Attribute} {bytes : Bytes} (has : AreAttributes P as bytes) {s s' : σ}
    (h : Threads (fun a s s' => Reads (read (g a.name) a.data.length s) a.data s') as s s') :
    Reads (attributes t read s) bytes s' := by
  obtain ⟨count, parts, hcount, hparts, rfl⟩ := has
  refine (Reads.of_unsigned? hcount).bind ?_
  clear hcount
  induction h generalizing parts with
  | nil s =>
    cases hparts
    exact .pure s
  | cons hstep _ ih =>
    cases hparts with
    | cons hpart hparts => exact (reads_attribute ht hpart hstep).bind (ih _ hparts)

/-- The attributes of an entity are parsed if the content of each piece is, whatever has been read
before; what holds of the state in the beginning and is kept holds in the end. -/
theorem parses_attributes (ht : Backs g t P) {read : Text → Nat → σ → Decoder σ} {S : σ → Prop}
    {pieces : List Piece} {as : List Attribute} {bytes : Bytes}
    (hwrites : List.Forall₂ (Piece.Writes P) pieces as) (has : AreAttributes P as bytes)
    (hread : ∀ p ∈ pieces, ∀ data s, Fixed P p.content data → S s →
      Parses True (read (g p.name) data.length s) data S) {s : σ} (hs : S s) :
    Parses True (attributes t read s) bytes S := by
  obtain ⟨count, parts, hcount, hparts, rfl⟩ := has
  refine .of_reads (Reads.of_unsigned? hcount) ?_
  clear hcount
  induction hwrites generalizing parts s with
  | nil =>
    cases hparts
    exact .pure hs
  | @cons p a pieces as hwrite _ ih =>
    cases hparts with
    | cons hpart hparts =>
      obtain ⟨i, name, length, hi, hname, hlength, rfl⟩ := hpart
      have hdata := hread p (List.mem_cons_self ..) a.data s hwrite.2 hs
      rw [← hwrite.1] at hdata
      refine (parses_attribute_of_utf8 hname (ht.reads_utf8 hi) hlength hdata).bind fun s' hs' => ?_
      exact ih (fun p hp => hread p (List.mem_cons_of_mem _ hp)) hs' _ hparts

end Decoding

/-! ## Pieces that are read

A piece is read if the reader of its entity reads the content under the name as it is stored. The
names of the attributes that the writer makes up are plain and are stored as they are. An attribute
that is kept as its bytes is kept again, as long as the reader does not take apart what has its
name. -/

open ModifiedUtf8 (stored IsPlain stored_eq_iff)

/-- A name that is none of some plain ones is stored as none of them. -/
theorem ModifiedUtf8.stored_notMem {name : Text} {names : List Text} (hplain : ∀ n ∈ names, IsPlain n)
    (h : name ∉ names) : stored name ∉ names := by
  intro hmem
  rw [← (stored_eq_iff (hplain _ hmem)).1 rfl] at hmem
  exact h hmem

namespace Encoding

open Decoding

variable {P : Pool} {σ : Type} {read : Text → Nat → σ → Decoder σ} {S : σ → Prop}

/-- The content of an attribute of a name is read, whatever has been read before; what holds of the
state is kept. -/
def ReadsContent (P : Pool) (read : Text → Nat → σ → Decoder σ) (S : σ → Prop) (name : Text)
    (content : Encoder Bytes) : Prop :=
  ∀ data s, Fixed P content data → S s → Parses True (read name data.length s) data S

/-- Every piece of a list is read under its name as it is stored. -/
def ReadsPieces (P : Pool) (read : Text → Nat → σ → Decoder σ) (S : σ → Prop) (pieces : List Piece) :
    Prop :=
  ∀ p ∈ pieces, ReadsContent P read S (stored p.name) p.content

theorem ReadsContent.of_isPlain {name : Text} (hname : IsPlain name) {content : Encoder Bytes}
    (h : ReadsContent P read S name content) : ReadsContent P read S (stored name) content := by
  rwa [(stored_eq_iff hname).2 rfl]

namespace ReadsPieces

variable {pieces pieces' : List Piece} {name : Text}

theorem append (h : ReadsPieces P read S pieces) (h' : ReadsPieces P read S pieces') :
    ReadsPieces P read S (pieces ++ pieces') := by
  intro p hp
  rcases List.mem_append.1 hp with hp | hp
  · exact h p hp
  · exact h' p hp

/-- A piece that is there for a reason. -/
theorem pieceIf (hname : IsPlain name) {condition : Bool} {content : Encoder Bytes}
    (h : condition = true → ReadsContent P read S name content) :
    ReadsPieces P read S (Encoding.pieceIf condition name content) := by
  intro p hp
  unfold Encoding.pieceIf at hp
  split at hp
  · next hcondition =>
    obtain rfl := List.mem_singleton.1 hp
    exact .of_isPlain hname (h hcondition)
  · cases hp

theorem pieceOf? (hname : IsPlain name) {α : Type} {content : α → Encoder Bytes} {value : Option α}
    (h : ∀ a ∈ value, ReadsContent P read S name (content a)) :
    ReadsPieces P read S (Encoding.pieceOf? name content value) := by
  intro p hp
  cases value with
  | none => cases hp
  | some a =>
    obtain rfl := List.mem_singleton.1 hp
    exact .of_isPlain hname (h a rfl)

theorem raw {as : List Attribute} {names : List Text} (hnames : ∀ n ∈ names, IsPlain n)
    (has : ∀ a ∈ as, a.name ∉ names)
    (h : ∀ name ∉ names, ∀ (data : Bytes) s, S s → Parses True (read name data.length s) data S) :
    ReadsPieces P read S (rawPieces as) := by
  intro p hp
  obtain ⟨a, ha, rfl⟩ := List.mem_map.1 hp
  intro data s hdata hs
  exact h _ (ModifiedUtf8.stored_notMem hnames (has a ha)) data s hs

/-- The attributes of an entity are parsed if every piece is read. -/
theorem parses_attributes {t : Table} (ht : Backs stored t P) {order : List Text} {as : List Attribute}
    {bytes : Bytes} (h : ReadsPieces P read S pieces)
    (hwrites : List.Forall₂ (Piece.Writes P) (Piece.ordered order pieces) as)
    (has : AreAttributes P as bytes) {s : σ} (hs : S s) :
    Parses True (Decoding.attributes t read s) bytes S :=
  Decoding.parses_attributes ht hwrites has
    (fun p hp data s hdata => h p ((ordered_perm order pieces).mem_iff.1 hp) data s hdata) hs

end ReadsPieces

end Encoding

end ClassTree
