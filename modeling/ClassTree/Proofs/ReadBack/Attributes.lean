/-
# ClassTree.Proofs.ReadBack.Attributes — what the attributes of an entity tell together

The attributes of an entity are written in any order, and each of them adds to what has been read
before. What is read of an entity is a bundle of *observations*: one function of the entity for its
signature, one for its annotations of a visibility, and so on. Each observation is the business of
the attributes of one name; all others leave it alone. So an attribute that stands once tells the
same wherever it stands.

Attributes that are kept as bytes accumulate. Of these only those of one name keep their order.
-/
import ClassTree.Proofs.Decoding.ParameterTables
import ClassTree.Proofs.Encoding.CodeTables

namespace ClassTree

open Decoding Encoding Encoder
open ModifiedUtf8 (stored stored_eq_iff IsPlain stored_notMem)

variable {P : Pool} {t : Table} {σ γ : Type} {read : Text → Nat → σ → Decoder σ}

/-! ## Pieces of one name -/

namespace Encoding

theorem filter_pieceOf? {α : Type} (name : Text) (content : α → Encoder Bytes) (value : Option α)
    (n : Text) : (pieceOf? name content value).filter (fun p => p.name = n) =
      if name = n then pieceOf? name content value else [] := by
  refine filter_of_name (fun p hp => ?_) n
  cases value with
  | none => cases hp
  | some a =>
    obtain rfl := List.mem_singleton.1 hp
    rfl

theorem filter_pieceIf (condition : Bool) (name : Text) (content : Encoder Bytes) (n : Text) :
    (pieceIf condition name content).filter (fun p => p.name = n) =
      if name = n then pieceIf condition name content else [] :=
  filter_of_name name_of_mem_pieceIf n

/-- A piece that there is reason for is a piece for what is there. -/
theorem pieceIf_eq_pieceOf? (condition : Bool) (name : Text) (content : Encoder Bytes) :
    pieceIf condition name content =
      pieceOf? name (fun _ : Unit => content) (if condition then some () else none) := by
  cases condition <;> rfl

/-- The pieces that are kept as bytes have other names. -/
theorem filter_rawPieces {as : List Attribute} {names : List Text} (has : ∀ a ∈ as, a.name ∉ names)
    {n : Text} (hn : n ∈ names) : (rawPieces as).filter (fun p => p.name = n) = [] := by
  refine List.filter_eq_nil_iff.2 fun p hp => ?_
  obtain ⟨a, ha, rfl⟩ := List.mem_map.1 hp
  intro hname
  obtain rfl : a.name = n := of_decide_eq_true hname
  exact has a ha hn

/-- The annotations of a visibility have a piece of their own. -/
theorem filter_annotationPieces (as : List AnnotationUse) (visible : Bool) :
    (annotationPieces as).filter (fun p => p.name = AttributeName.annotations visible) =
      pieceIf (!(ofVisibility visible as).isEmpty) (AttributeName.annotations visible)
        (annotationUses (ofVisibility visible as)) := by
  unfold annotationPieces
  simp only [List.flatMap_cons, List.flatMap_nil, List.append_nil, List.filter_append, filter_pieceIf]
  cases visible with
  | true => rw [if_pos rfl, if_neg (by decide), List.append_nil]
  | false => rw [if_neg (by decide), if_pos rfl, List.nil_append]

theorem filter_annotationPieces_of_ne (as : List AnnotationUse) {n : Text}
    (hn : ∀ visible, AttributeName.annotations visible ≠ n) :
    (annotationPieces as).filter (fun p => p.name = n) = [] := by
  unfold annotationPieces
  simp only [List.flatMap_cons, List.flatMap_nil, List.append_nil, List.filter_append, filter_pieceIf,
    if_neg (hn _)]

/-- All pieces have one of the names. -/
def AreNamedIn (names : List Text) (pieces : List Piece) : Prop := ∀ p ∈ pieces, p.name ∈ names

namespace AreNamedIn

variable {names : List Text} {pieces pieces' : List Piece} {name : Text}

theorem append (h : AreNamedIn names pieces) (h' : AreNamedIn names pieces') :
    AreNamedIn names (pieces ++ pieces') :=
  fun p hp => (List.mem_append.1 hp).elim (h p) (h' p)

theorem of_name (h : ∀ p ∈ pieces, p.name = name) (hname : name ∈ names) : AreNamedIn names pieces :=
  fun p hp => h p hp ▸ hname

theorem pieceIf {condition : Bool} {content : Encoder Bytes} (hname : name ∈ names) :
    AreNamedIn names (Encoding.pieceIf condition name content) := of_name name_of_mem_pieceIf hname

theorem pieceOf? {α : Type} {content : α → Encoder Bytes} {value : Option α} (hname : name ∈ names) :
    AreNamedIn names (Encoding.pieceOf? name content value) := by
  cases value with
  | none => exact nofun
  | some a => exact fun p hp => List.mem_singleton.1 hp ▸ hname

theorem annotationPieces {as : List AnnotationUse}
    (hnames : ∀ visible, AttributeName.annotations visible ∈ names) :
    AreNamedIn names (Encoding.annotationPieces as) := by
  intro p hp
  obtain ⟨visible, -, hp⟩ := List.mem_flatMap.1 hp
  exact pieceIf (hnames visible) p hp

end AreNamedIn

end Encoding

/-! ## Observations -/

/-- Only attributes with a name change what is observed. -/
def Concerns (read : Text → Nat → σ → Decoder σ) (observe : σ → γ) (name : Text) : Prop :=
  ∀ (a : Attribute) (s s' : σ), a.name ≠ name →
    Outline.whole (read a.name a.data.length s) a.data = .ok s' → observe s' = observe s

section

variable {order : List Text} {pieces : List Piece} {as : List Attribute} {name : Text} {s s' : σ}
  (has : List.Forall₂ (Piece.Writes P) (Piece.ordered order pieces) as)
  (h : Attribute.readAll read (as.map (Attribute.mapName stored)) s = .ok s')
include has h

/-- What the one piece with a name tells, or what was there before if there is none. -/
theorem told_of_readAll (hname : IsPlain name) {α : Type} {content : α → Encoder Bytes}
    {value : Option α}
    (hpieces : pieces.filter (fun p => p.name = name) = pieceOf? name content value)
    {observe : σ → γ} (hconcerns : Concerns read observe name) {Q : α → γ → Prop}
    (htold : ∀ a ∈ value, ∀ data s₁ s₂, Fixed P (content a) data → observe s₁ = observe s →
      Outline.whole (read name data.length s₁) data = .ok s₂ → Q a (observe s₂)) :
    (value = none ∧ observe s' = observe s) ∨ ∃ a, value = some a ∧ Q a (observe s') := by
  have hnamed := forall₂_filter_named hname has
  rw [hpieces] at hnamed
  generalize as.map (Attribute.mapName stored) = bs at h hnamed
  cases value with
  | none =>
    have hnone := List.filter_eq_nil_iff.1 (List.forall₂_nil_left_iff.1 hnamed)
    refine .inl ⟨rfl, observe_eq_of_readAll observe h fun b hb s s' hs => ?_⟩
    exact hconcerns b s s' (by simpa using hnone b hb) hs
  | some a =>
    obtain ⟨b, rest, hdata, hrest, hfilter⟩ := List.forall₂_cons_left_iff.1 hnamed
    obtain rfl := List.forall₂_nil_left_iff.1 hrest
    obtain ⟨before, after, rfl, hbefore, hb, hafter⟩ := exists_between_of_filter hfilter
    obtain ⟨s₁, s₂, h₁, h₂, h₃⟩ := readAll_append_cons h
    -- the attribute stands between two rows of others, which leave the observation alone
    have hfirst := observe_eq_of_readAll observe h₁ fun b hb s s' hs => hconcerns b s s' (hbefore b hb) hs
    have hlast := observe_eq_of_readAll observe h₃ fun b hb s s' hs => hconcerns b s s' (hafter b hb) hs
    rw [hb] at h₂
    refine .inr ⟨a, rfl, ?_⟩
    rw [hlast]
    exact htold a rfl b.data s₁ s₂ hdata hfirst h₂

/-- What is observed if the one piece with a name is read as something that it tells. -/
theorem observe_of_readAll (hname : IsPlain name) {α : Type} {content : α → Encoder Bytes}
    {value : Option α}
    (hpieces : pieces.filter (fun p => p.name = name) = pieceOf? name content value)
    {observe : σ → γ} (hconcerns : Concerns read observe name) (told : α → γ)
    (htold : ∀ a ∈ value, ∀ data s₁, Fixed P (content a) data → observe s₁ = observe s →
      ∃ s₂, Reads (read name data.length s₁) data s₂ ∧ observe s₂ = told a) :
    observe s' = value.elim (observe s) told := by
  have htold' : ∀ a ∈ value, ∀ data s₁ s₂, Fixed P (content a) data → observe s₁ = observe s →
      Outline.whole (read name data.length s₁) data = .ok s₂ → observe s₂ = told a := by
    intro a ha data s₁ s₂ hdata hs₁ hs₂
    obtain ⟨s₃, hread, heq⟩ := htold a ha data s₁ hdata hs₁
    rw [Outline.whole_eq_ok hread] at hs₂
    cases hs₂
    exact heq
  rcases told_of_readAll (Q := fun a x => x = told a) has h hname hpieces hconcerns htold' with
    ⟨rfl, heq⟩ | ⟨a, rfl, heq⟩
  · exact heq
  · exact heq

theorem signature_of_readAll (ht : Backs stored t P) {signature : Option Text}
    (hpieces : pieces.filter (fun p => p.name = AttributeName.signature) = signaturePiece signature)
    {observe : σ → Option Text} (hconcerns : Concerns read observe AttributeName.signature)
    (hread : ∀ s length, ∃ f : Text → σ, (∀ text, observe (f text) = some text) ∧
      read AttributeName.signature length s = do return f (← t.utf8 (← Decoder.u2)))
    (hempty : observe s = none) : observe s' = signature.map stored := by
  have heq := observe_of_readAll has h isPlain_signature hpieces hconcerns
    (fun text => some (stored text)) fun text _ data s₁ hdata _ => by
      obtain ⟨f, hf, hread⟩ := hread s₁ data.length
      exact ⟨f (stored text), hread ▸ reads_utf8_of_fixed ht hdata f, hf _⟩
  rw [heq, hempty]
  cases signature <;> rfl

/-- The tagged annotations of a visibility are read back. They stand in one attribute, whatever
others are written around it, and readers of the others leave them alone; without annotations there
is no such attribute. -/
theorem annotations_of_readPieces (ht : Backs stored t P) {annotations : List AnnotationUse}
    (htagged : ∀ a ∈ annotations, a.IsTagged) {visible : Bool}
    (hpieces : pieces.filter (fun p => p.name = AttributeName.annotations visible) =
      (annotationPieces annotations).filter fun p => p.name = AttributeName.annotations visible)
    {observe : σ → List AnnotationUse}
    (hconcerns : Concerns read (fun s => ofVisibility visible (observe s))
      (AttributeName.annotations visible))
    (hread : ∀ s length, ∃ f : List AnnotationUse → σ, (∀ uses, observe (f uses) = observe s ++ uses) ∧
      read (AttributeName.annotations visible) length s = do return f (← readAnnotationUses t visible))
    (hempty : observe s = []) :
    ofVisibility visible (observe s') = (ofVisibility visible annotations).map AnnotationUse.stored := by
  rw [filter_annotationPieces, pieceIf_eq_pieceOf?] at hpieces
  have hvisible : ofVisibility visible ((ofVisibility visible annotations).map AnnotationUse.stored) =
      (ofVisibility visible annotations).map AnnotationUse.stored := by
    refine List.filter_eq_self.2 fun a ha => decide_eq_true ?_
    obtain ⟨own, hown, rfl⟩ := List.mem_map.1 ha
    exact visible_of_mem_ofVisibility own hown
  have heq := observe_of_readAll has h (AttributeName.isPlain_annotations visible) hpieces hconcerns
    (fun _ => (ofVisibility visible annotations).map AnnotationUse.stored) fun _ _ data s₁ hdata hs₁ => by
      obtain ⟨f, hf, hread⟩ := hread s₁ data.length
      have hall := reads_readAnnotationUses ht (isTagged_ofVisibility htagged visible)
        visible_of_mem_ofVisibility hdata
      refine ⟨f _, hread ▸ hall.map f, ?_⟩
      have hbefore : ofVisibility visible (observe s₁) = [] :=
        hs₁.trans (congrArg (ofVisibility visible) hempty)
      have happend := List.filter_append (p := fun a : AnnotationUse => a.visible = visible)
        (observe s₁) ((ofVisibility visible annotations).map AnnotationUse.stored)
      rw [hf]
      exact happend.trans (congrArg₂ (· ++ ·) hbefore hvisible)
  rw [heq, hempty]
  cases hselected : ofVisibility visible annotations <;> rfl

end

/-- The annotations that have been read of an attribute have its visibility. -/
theorem Decoding.visible_of_readAnnotationUses {visible : Bool} {data : Bytes} {as : List AnnotationUse}
    {c : Cursor} (h : readAnnotationUses t visible ⟨0, data⟩ = .ok (as, c)) :
    ∀ a ∈ as, a.visible = visible :=
  yields_readAnnotationUses visible _ _ _ (Cursor.isIn_drop data 0) h

theorem Decoding.isSeen_of_readAnnotationUses {visible : Bool} {data : Bytes} {as : List AnnotationUse}
    {c : Cursor} (h : readAnnotationUses t visible ⟨0, data⟩ = .ok (as, c)) : ∀ a ∈ as, a.IsSeen :=
  yields_isSeen_readAnnotationUses visible _ _ _ (Cursor.isIn_drop data 0) h

/-- Every annotation in a value that has been read has the visibility of the attribute. -/
theorem Decoding.isSeen_of_readElement {visible : Bool} {data : Bytes} {v : ElementValue}
    {c : Cursor} (h : readElement t visible ⟨0, data⟩ = .ok (v, c)) : v.IsSeen visible := by
  obtain ⟨fuel, k, hfuel, h⟩ := Decoder.bind_eq_ok_iff.1 h
  cases hfuel
  exact yields_isSeen_readElementWith visible _ _ _ _ (Cursor.isIn_drop data 0) h

/-! ## Attributes that are kept as bytes -/

theorem Decoding.eq_of_bytes {data found : Bytes} {c : Cursor}
    (h : Decoder.bytes data.length ⟨0, data⟩ = .ok (found, c)) : found = data := by
  have hread := Reads.bytes data 0 []
  rw [List.append_nil] at hread
  cases hread.symm.trans h
  rfl

/-- Attributes that are kept as bytes have been found again: all of them in some order, those with
one plain name in their own. -/
structure Attribute.AreReadBackAs (raw found : List Attribute) : Prop where
  perm : found.Perm (raw.map (Attribute.mapName stored))
  order : ∀ n, IsPlain n → found.filter (fun a => a.name = n) = raw.filter fun a => a.name = n

/-- Attributes that are not taken apart are kept as they are. -/
structure KeepsRaw (read : Text → Nat → σ → Decoder σ) (observe : σ → List Attribute)
    (names : List Text) : Prop where
  modelled : ∀ (a : Attribute) (s s' : σ), a.name ∈ names →
    Outline.whole (read a.name a.data.length s) a.data = .ok s' → observe s' = observe s
  raw : ∀ (a : Attribute) (s s' : σ), a.name ∉ names →
    Outline.whole (read a.name a.data.length s) a.data = .ok s' → observe s' = observe s ++ [a]

variable {observe : σ → List Attribute} {names : List Text}

/-- All attributes that are not taken apart are kept. -/
theorem KeepsRaw.observe_eq (hkeeps : KeepsRaw read observe names) {bs : List Attribute} {s s' : σ}
    (h : Attribute.readAll read bs s = .ok s') :
    observe s' = observe s ++ bs.filter fun a => a.name ∉ names := by
  induction bs generalizing s with
  | nil =>
    cases h
    exact (List.append_nil _).symm
  | cons b bs ih =>
    obtain ⟨_, s₁, ⟨⟩, hb, hbs⟩ :=
      readAll_append_cons (show Attribute.readAll _ ([] ++ b :: bs) s = .ok s' from h)
    have hrest := ih hbs
    by_cases hname : b.name ∈ names
    · rw [hrest, hkeeps.modelled b s s₁ hname hb, List.filter_cons_of_neg (by simpa using hname)]
    · rw [hrest, hkeeps.raw b s s₁ hname hb, List.filter_cons_of_pos (by simpa using hname)]
      simp

/-- What notes the name of each attribute that is read has all names in the end. -/
theorem order_of_readAll {order : σ → List Text}
    (hnotes : ∀ (a : Attribute) (s s' : σ),
      Outline.whole (read a.name a.data.length s) a.data = .ok s' → order s' = order s ++ [a.name])
    {bs : List Attribute} {s s' : σ} (h : Attribute.readAll read bs s = .ok s') :
    order s' = order s ++ bs.map Attribute.name := by
  induction bs generalizing s with
  | nil =>
    cases h
    exact (List.append_nil _).symm
  | cons b bs ih =>
    obtain ⟨s₁, hb, hrest⟩ := Result.bind_eq_ok_iff.1 h
    rw [ih hrest, hnotes b s s₁ hb, List.append_assoc]
    rfl

/-- Attributes of one name are told apart by their content. -/
theorem Attribute.eq_of_map_data {as bs : List Attribute} {n : Text} (has : ∀ a ∈ as, a.name = n)
    (hbs : ∀ b ∈ bs, b.name = n) (h : as.map Attribute.data = bs.map Attribute.data) : as = bs := by
  have hself {cs : List Attribute} (hcs : ∀ c ∈ cs, c.name = n) :
      (cs.map Attribute.data).map (fun data => (⟨n, data⟩ : Attribute)) = cs := by
    rw [List.map_map]
    refine (List.map_congr_left fun c hc => ?_).trans (List.map_id cs)
    rw [Function.comp_apply, ← hcs c hc]
    rfl
  rw [← hself has, ← hself hbs, h]

/-- What stands for two lists in a row are two lists in a row. -/
theorem exists_append_of_forall₂ {α β : Type} {R : α → β → Prop} {as as' : List α} {bs : List β}
    (h : List.Forall₂ R (as ++ as') bs) :
    ∃ front back, List.Forall₂ R as front ∧ List.Forall₂ R as' back ∧ bs = front ++ back := by
  refine ⟨bs.take as.length, bs.drop as.length, ?_, ?_, (List.take_append_drop _ _).symm⟩
  · exact (List.forall₂_take_append _ _ _ h.flip).flip
  · exact (List.forall₂_drop_append _ _ _ h.flip).flip

/-- Pieces that are kept as bytes are written as they are. -/
theorem eq_of_writes_rawPieces {raw as : List Attribute}
    (h : List.Forall₂ (Piece.Writes P) (rawPieces raw) as) : as = raw := by
  unfold rawPieces at h
  rw [List.forall₂_map_left_iff] at h
  induction h with
  | nil => rfl
  | @cons a b raw as hab _ ih =>
    have hname : b.name = a.name := hab.1
    have hdata : b.data = a.data := fixed_pure_iff.1 hab.2
    rw [ih, show b = a by cases a; cases b; exact congrArg₂ Attribute.mk hname hdata]

/-- The pieces of an entity: those that are kept as bytes, among others with names that are known.
-/
structure ArePiecesAround (names : List Text) (raw : List Attribute) (pieces : List Piece) : Prop where
  plain : ∀ n ∈ names, IsPlain n
  unknown : ∀ a ∈ raw, a.name ∉ names
  eq : ∃ front back, pieces = front ++ rawPieces raw ++ back ∧ AreNamedIn names (front ++ back)

/-- In the order of the pieces, what is not taken apart is what is kept as bytes. -/
theorem ArePiecesAround.filter_eq {raw as : List Attribute} {pieces : List Piece}
    (hpieces : ArePiecesAround names raw pieces) (has : List.Forall₂ (Piece.Writes P) pieces as) :
    (as.map (Attribute.mapName stored)).filter (fun a => a.name ∉ names) =
      raw.map (Attribute.mapName stored) := by
  obtain ⟨front, back, rfl, hknown⟩ := hpieces.eq
  obtain ⟨first, cs, hfirst, hcs, rfl⟩ := exists_append_of_forall₂ has
  obtain ⟨bs, bs', hbs, hraw, rfl⟩ := exists_append_of_forall₂ hfirst
  obtain rfl := eq_of_writes_rawPieces hraw
  have hnone {ps : List Piece} {ds : List Attribute} (hps : ∀ p ∈ ps, p.name ∈ names)
      (hds : List.Forall₂ (Piece.Writes P) ps ds) :
      (ds.map (Attribute.mapName stored)).filter (fun a => a.name ∉ names) = [] := by
    refine List.filter_eq_nil_iff.2 fun b hb => ?_
    obtain ⟨a, ha, rfl⟩ := List.mem_map.1 hb
    obtain ⟨p, hp, hname, -⟩ := Result.exists_of_mem_right hds ha
    have hmem := hps p hp
    have hstored : stored a.name = p.name := (stored_eq_iff (hpieces.plain _ hmem)).2 hname
    simpa [Attribute.mapName, hstored] using hmem
  have hall : (bs'.map (Attribute.mapName stored)).filter (fun a => a.name ∉ names) =
      bs'.map (Attribute.mapName stored) := by
    refine List.filter_eq_self.2 fun b hb => decide_eq_true ?_
    obtain ⟨a, ha, rfl⟩ := List.mem_map.1 hb
    exact stored_notMem hpieces.plain (hpieces.unknown a ha)
  rw [List.map_append, List.map_append, List.filter_append, List.filter_append, hall,
    hnone (fun p hp => hknown p (List.mem_append_left _ hp)) hbs,
    hnone (fun p hp => hknown p (List.mem_append_right _ hp)) hcs, List.nil_append, List.append_nil]

/-- Attributes that are kept as bytes are read back. The order of attributes in a layout may mix
them with those that are taken apart and with each other, as long as attributes of one name keep
their order. -/
theorem KeepsRaw.areReadBackAs (hkeeps : KeepsRaw read observe names) {raw : List Attribute}
    {pieces : List Piece} (hpieces : ArePiecesAround names raw pieces) {order : List Text}
    {as : List Attribute} (has : List.Forall₂ (Piece.Writes P) (Piece.ordered order pieces) as)
    {s s' : σ} (h : Attribute.readAll read (as.map (Attribute.mapName stored)) s = .ok s')
    (hempty : observe s = []) : Attribute.AreReadBackAs raw (observe s') := by
  rw [hkeeps.observe_eq h, hempty, List.nil_append]
  constructor
  · obtain ⟨as', hwrites, hperm⟩ := List.perm_comp_forall₂ (ordered_perm order _).symm has
    rw [← hpieces.filter_eq hwrites]
    exact (hperm.symm.map (Attribute.mapName stored)).filter _
  · intro n hn
    obtain ⟨front, back, rfl, hknown⟩ := hpieces.eq
    by_cases hmem : n ∈ names
    · -- of such a name nothing is kept
      have hfound : ((as.map (Attribute.mapName stored)).filter fun a => a.name ∉ names).filter
          (fun a => a.name = n) = [] := by
        refine List.filter_eq_nil_iff.2 fun a ha hname => ?_
        obtain rfl := of_decide_eq_true hname
        exact of_decide_eq_true (List.mem_filter.1 ha).2 hmem
      have hraw : raw.filter (fun a => a.name = n) = [] := by
        refine List.filter_eq_nil_iff.2 fun a ha hname => ?_
        obtain rfl := of_decide_eq_true hname
        exact hpieces.unknown a ha hmem
      rw [hfound, hraw]
    · have hnamed := forall₂_filter_named hn has
      have hnone {ps : List Piece} (hps : ∀ p ∈ ps, p.name ∈ names) :
          ps.filter (fun p => p.name = n) = [] := by
        refine List.filter_eq_nil_iff.2 fun p hp hname => ?_
        obtain rfl := of_decide_eq_true hname
        exact hmem (hps p hp)
      have hraw : (rawPieces raw).filter (fun p => p.name = n) =
          rawPieces (raw.filter fun a => a.name = n) := by
        unfold rawPieces
        rw [List.filter_map]
        rfl
      rw [List.filter_append, List.filter_append,
        hnone fun p hp => hknown p (List.mem_append_left _ hp),
        hnone fun p hp => hknown p (List.mem_append_right _ hp), hraw, List.nil_append,
        List.append_nil] at hnamed
      have hfilter : ((as.map (Attribute.mapName stored)).filter fun a => a.name ∉ names).filter
          (fun a => a.name = n) = (as.map (Attribute.mapName stored)).filter fun a => a.name = n := by
        rw [List.filter_filter]
        refine List.filter_congr fun a _ => ?_
        by_cases hname : a.name = n
        · simp [hname, hmem]
        · simp [hname]
      rw [hfilter]
      exact Attribute.eq_of_map_data (fun a ha => of_decide_eq_true (List.mem_filter.1 ha).2)
        (fun a ha => of_decide_eq_true (List.mem_filter.1 ha).2) (map_data_rawPieces hnamed)

end ClassTree
