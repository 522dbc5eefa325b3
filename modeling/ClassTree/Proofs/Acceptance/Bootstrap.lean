/-
# ClassTree.Proofs.Acceptance.Bootstrap — the bootstrap table is found ahead of time

The bootstrap table is the one attribute of a class that is looked for before anything else. On the
way to it everything is skipped over, whatever it holds; and the class has one such attribute if the
pool has bootstrap methods. What is found is the table of the pool.
-/
import ClassTree.Proofs.Attributes
import ClassTree.Proofs.Decoding.Raw
import ClassTree.Proofs.Outline

namespace ClassTree

open Decoding Encoding Encoder
open ModifiedUtf8 (stored IsPlain isPlain_ofString stored_eq_iff)

variable {P : Pool} {t : Table} {bytes : Bytes}

namespace Encoding

/-! ## Skipping -/

theorem parses_skipAttributes (ht : Backs stored t P) {pieces : List Piece} {as : List Attribute}
    (hwrites : List.Forall₂ (Piece.Writes P) pieces as) (has : AreAttributes P as bytes) :
    Parses True (skipAttributes t) bytes fun _ => True :=
  parses_attributes ht hwrites has (fun _ _ _ _ _ _ => (Reads.skip rfl).parses trivial) trivial

theorem parses_skipMember (ht : Backs stored t P) {access : Int} {name descriptor : Text}
    {pieces : List Piece} (h : IsMember P access name descriptor pieces bytes) :
    Parses True (do
      Decoder.skip 6
      skipAttributes t) bytes fun _ => True := by
  obtain ⟨head, rest, as, hhead, hwrites, has, rfl⟩ := h
  obtain ⟨i, j, -, -, a, n, d, ha, hn, hd, rfl⟩ := fixed_memberHead_iff.1 hhead
  refine .of_reads (Reads.skip ?_) (parses_skipAttributes ht hwrites has)
  simp [length_of_unsigned? ha, length_of_unsigned? hn, length_of_unsigned? hd]

theorem parses_skipMembers (ht : Backs stored t P) {α : Type} {each : α → Encoder Bytes}
    [∀ a, Growing (each a)] {things : List α} (h : Fixed P (Encoder.listOf each things) bytes)
    (heach : ∀ a part, Fixed P (each a) part → ∃ access name descriptor pieces,
      IsMember P access name descriptor pieces part) :
    Parses True (skipMembers t) bytes fun _ => True := by
  obtain ⟨count, hcount, parts, hparts, rfl⟩ := fixed_listOf_iff.1 h
  have hskip : List.Forall₂ (fun (_ : α) part => Parses True (do
      Decoder.skip 6
      skipAttributes t) part fun _ => True) things parts := by
    refine hparts.imp fun a part hpart => ?_
    obtain ⟨access, name, descriptor, pieces, hmember⟩ := heach a part hpart
    exact parses_skipMember ht hmember
  exact (Parses.listOf hcount hskip).bind_nil fun _ _ => .pure trivial

theorem parses_skipFields (ht : Backs stored t P) {fields : List Field}
    (h : Fixed P (Encoder.listOf field fields) bytes) :
    Parses True (skipMembers t) bytes fun _ => True :=
  parses_skipMembers ht h fun _ _ hpart => ⟨_, _, _, _, isMember_of_fixed_field hpart⟩

theorem parses_skipMethods (ht : Backs stored t P) {owner : Text} {verify stackMaps : Bool}
    {methods : List Method} (h : Fixed P (Encoder.listOf (method owner verify stackMaps) methods) bytes) :
    Parses True (skipMembers t) bytes fun _ => True :=
  parses_skipMembers ht h fun _ _ hpart => ⟨_, _, _, _, isMember_of_fixed_method hpart⟩

/-! ## The table -/

theorem isPlain_bootstrapMethods : IsPlain AttributeName.bootstrapMethods :=
  isPlain_ofString (by decide)

/-- The bootstrap table of the pool is read. -/
theorem reads_bootstrapTable (h : Fixed P bootstrapTable bytes) :
    Reads (Decoder.listOf readBootstrap) bytes P.bootstrap.toList := by
  unfold Fixed at h
  rw [bootstrapTable_apply] at h
  obtain ⟨count, hcount, parts, hparts, rfl⟩ := fixed_listOf_iff.1 h
  refine Reads.listOf hcount ?_
  refine (hparts.imp fun b part hpart => ?_).flip
  unfold bootstrapMethod at hpart
  simp only [fixed_bind_iff, fixed_listOf_iff, fixed_u2_iff, fixed_pure_iff] at hpart
  obtain ⟨handle, hhandle, _, ⟨number, hnumber, arguments, harguments, rfl⟩, rfl⟩ := hpart
  refine (Reads.of_unsigned? hhandle).bind ((Reads.listOf hnumber ?_).map _)
  exact (harguments.imp fun _ _ h => Reads.of_unsigned? h).flip

/-- What an attribute of a class gives to the bootstrap table. -/
def tableOf (P : Pool) (a : Attribute) : List Bootstrap :=
  if stored a.name = AttributeName.bootstrapMethods then P.bootstrap.toList else []

/-- Attributes give the table once for each of them that has its name. -/
theorem flatten_tableOf (as : List Attribute) :
    (as.map (tableOf P)).flatten = (((as.map (Attribute.mapName stored)).filter
      fun a => a.name = AttributeName.bootstrapMethods).map fun _ => P.bootstrap.toList).flatten := by
  induction as with
  | nil => rfl
  | cons a as ih =>
    rw [List.map_cons, List.map_cons, List.flatten_cons, ih, List.filter_cons]
    unfold tableOf
    by_cases h : stored a.name = AttributeName.bootstrapMethods
    · simp [h, Attribute.mapName]
    · simp [h, Attribute.mapName]

/-- The one attribute of a class with the name of the bootstrap table is the table of the pool, if
the class keeps none as bytes. -/
theorem filter_classPieces {c : Class}
    (hraw : ∀ a ∈ c.attributes, a.name ≠ AttributeName.bootstrapMethods)
    (bootstrap : Bool) :
    (classPieces c bootstrap).filter (fun p => p.name = AttributeName.bootstrapMethods) =
      pieceIf bootstrap AttributeName.bootstrapMethods bootstrapTable := by
  have hif {condition : Bool} {name : Text} {content : Encoder Bytes} :
      ∀ p ∈ pieceIf condition name content, p.name = name := by
    intro p hp
    unfold pieceIf at hp
    split at hp
    · rw [List.mem_singleton.1 hp]
    · cases hp
  have hof {α : Type} {name : Text} {content : α → Encoder Bytes} {value : Option α} :
      ∀ p ∈ pieceOf? name content value, p.name = name := by
    intro p hp
    cases value with
    | none => cases hp
    | some a => rw [List.mem_singleton.1 hp]
  unfold classPieces signaturePiece
  rw [List.filter_append, List.filter_eq_nil_iff.2 ?_, List.nil_append, List.filter_eq_self.2 ?_]
  · exact fun p hp => decide_eq_true (hif p hp)
  · intro p hp
    rw [decide_eq_true_eq]
    simp only [List.mem_append] at hp
    rcases hp with ((((hp | hp) | hp) | hp) | hp) | hp
    · rw [hof p hp]
      decide
    · rw [hif p hp]
      decide
    · rw [hof p hp]
      decide
    · rw [hof p hp]
      decide
    · obtain ⟨visible, -, hp⟩ := List.mem_flatMap.1 hp
      rw [hif p hp]
      cases visible <;> decide
    · obtain ⟨a, ha, rfl⟩ := List.mem_map.1 hp
      exact hraw a ha

variable {verify : Bool} {c : Class}

/-- The attributes of a class give the bootstrap table of the pool. -/
theorem flatten_tableOf_of_writes
    (hraw : ∀ a ∈ c.attributes, a.name ≠ AttributeName.bootstrapMethods) {as : List Attribute}
    (hwrites : List.Forall₂ (Piece.Writes P) (Piece.ordered c.layout.attributeOrder
      (classPieces c (hasBootstrap c P))) as) :
    (as.map (tableOf P)).flatten = P.bootstrap.toList := by
  have hnamed := forall₂_filter_named isPlain_bootstrapMethods hwrites
  rw [filter_classPieces hraw] at hnamed
  rw [flatten_tableOf]
  unfold pieceIf at hnamed
  split at hnamed
  · obtain ⟨a, rest, -, hrest, heq⟩ := List.forall₂_cons_left_iff.1 hnamed
    rw [heq, List.forall₂_nil_left_iff.1 hrest]
    simp
  · next hnone =>
    rw [List.forall₂_nil_left_iff.1 hnamed]
    have hempty : P.bootstrap.isEmpty = true := by
      unfold hasBootstrap at hnone
      simp only [Bool.or_eq_true, not_or] at hnone
      simpa using hnone.1
    rw [Array.isEmpty_iff.1 hempty]
    rfl

/-- An attribute of a class that is named like the bootstrap table holds that of the pool. -/
theorem fixed_bootstrapTable_of_writes
    (hraw : ∀ a ∈ c.attributes, a.name ≠ AttributeName.bootstrapMethods) {as : List Attribute}
    (hwrites : List.Forall₂ (Piece.Writes P) (Piece.ordered c.layout.attributeOrder
      (classPieces c (hasBootstrap c P))) as) {a : Attribute} (ha : a ∈ as)
    (hname : stored a.name = AttributeName.bootstrapMethods) : Fixed P bootstrapTable a.data := by
  obtain ⟨p, hp, hpname, hcontent⟩ := Result.exists_of_mem_right hwrites ha
  have hmem : p ∈ (classPieces c (hasBootstrap c P)).filter
      fun p => p.name = AttributeName.bootstrapMethods := by
    refine List.mem_filter.2 ⟨(ordered_perm _ _).mem_iff.1 hp, decide_eq_true ?_⟩
    rw [← hpname]
    exact (stored_eq_iff isPlain_bootstrapMethods).1 hname
  rw [filter_classPieces hraw] at hmem
  unfold pieceIf at hmem
  split at hmem
  · obtain rfl := List.mem_singleton.1 hmem
    exact hcontent
  · cases hmem

/-- Collects the tables among attributes. -/
def collect (name : Text) (length : Nat) (found : List (List Bootstrap)) :
    Decoder (List (List Bootstrap)) := do
  let start ← get
  let table ← if name = AttributeName.bootstrapMethods then Decoder.listOf readBootstrap else pure []
  set (start.skip length)
  return table :: found

/-- A table is collected from an attribute of its name, and nothing from others. -/
theorem reads_collect {a : Attribute}
    (htable : stored a.name = AttributeName.bootstrapMethods → Fixed P bootstrapTable a.data)
    (found : List (List Bootstrap)) :
    Reads (collect (stored a.name) a.data.length found) a.data (tableOf P a :: found) := by
  intro position rest
  have hskip : (⟨position, a.data ++ rest⟩ : Cursor).skip a.data.length =
      ⟨position + a.data.length, rest⟩ := by
    unfold Cursor.skip
    rw [List.drop_left]
  refine Decoder.bind_eq_ok_iff.2 ⟨_, _, rfl, ?_⟩
  unfold tableOf
  split
  · next hname =>
    refine Decoder.bind_eq_ok_iff.2 ⟨_, _, reads_bootstrapTable (htable hname) position rest, ?_⟩
    exact Decoder.bind_eq_ok_iff.2 ⟨(), _, rfl, by rw [hskip]; rfl⟩
  · refine Decoder.bind_eq_ok_iff.2 ⟨[], _, rfl, ?_⟩
    exact Decoder.bind_eq_ok_iff.2 ⟨(), _, rfl, by rw [hskip]; rfl⟩

theorem threads_collect {as : List Attribute} (htables : ∀ a ∈ as,
      stored a.name = AttributeName.bootstrapMethods → Fixed P bootstrapTable a.data)
    (found : List (List Bootstrap)) :
    Threads (fun (a : Attribute) s s' => Reads (collect (stored a.name) a.data.length s) a.data s')
      as found ((as.map (tableOf P)).reverse ++ found) := by
  induction as generalizing found with
  | nil => exact .nil found
  | cons a as ih =>
    have hrest := ih (fun b hb => htables b (List.mem_cons_of_mem a hb)) (tableOf P a :: found)
    rw [List.map_cons, List.reverse_cons, List.append_assoc]
    exact .cons (reads_collect (htables a (List.mem_cons_self ..)) found) hrest

/-- The bootstrap table of the pool is found behind the members of a class. -/
theorem Parts.reads_scanBootstrap (parts : Parts verify c P) (ht : Backs stored t P)
    (hraw : ∀ a ∈ c.attributes, a.name ≠ AttributeName.bootstrapMethods) :
    Reads (scanBootstrap t) parts.bytes P.bootstrap.toList := by
  obtain ⟨count, interfaces, hcount, hlength, heq⟩ := parts.exists_interfaces
  obtain ⟨as, hwrites, has⟩ :=
    (fixed_attributes_iff (growing_classPieces c _)).1 parts.fixed_attributes
  have hattributes : Reads (Decoding.attributes t collect []) parts.attributes
      ((as.map (tableOf P)).reverse ++ []) :=
    reads_attributes ht has
      (threads_collect (fun a ha => fixed_bootstrapTable_of_writes hraw hwrites ha) [])
  have hfound : ((as.map (tableOf P)).reverse ++ []).reverse.flatten = P.bootstrap.toList := by
    rw [List.append_nil, List.reverse_reverse, flatten_tableOf_of_writes hraw hwrites]
  have hfields := (parses_skipFields ht parts.fixed_fields).imp fun u _ => Subsingleton.elim u ()
  have hmethods := (parses_skipMethods ht parts.fixed_methods).imp fun u _ => Subsingleton.elim u ()
  refine .cast (show _ = (parts.access ++ parts.name ++ parts.super) ++ (count ++ (interfaces ++
    (parts.fields ++ (parts.methods ++ parts.attributes)))) from ?_) ?_
  · rw [Parts.bytes, heq]
    simp only [List.append_assoc]
  rw [← hfound]
  refine (Reads.skip parts.length_head).bind ((Reads.of_unsigned? hcount).bind ?_)
  refine (Reads.skip hlength).bind (hfields.reads.bind (hmethods.reads.bind ?_))
  exact hattributes.map fun found => found.reverse.flatten

end Encoding

end ClassTree
