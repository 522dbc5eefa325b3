/-
# ClassTree.Proofs.ReadBack.Unchanged — what is stored as it is, and in its order

A class that comes from a class file holds nothing that a constant pool changes: its texts are those
of a pool, and its constants are of the kinds of entries. If besides every constant is of the kind
that its use calls for, then storing gives back each part of the class as it is. A handle is the one
exception: the pool forgets that an interface owns a field, so a handle on a field must not say so.
Annotations are stored with the visibility of the attribute that lists them, and that is what those
that have been read have, to any depth.

Without hints the attributes of an entity stand in a fixed order: visible annotations in front of
those that are not, and attributes that are kept as bytes as they stand in the entity. So what is
read back of a class without a layout has its annotations in that order too
(`visibleFirst_of_readPieces`), and its other attributes in their own (`KeepsRaw.eq_map`).
-/
import ClassTree.Proofs.Class.Drawn
import ClassTree.Proofs.Exact
import ClassTree.Proofs.ReadBack.Told

namespace ClassTree

open Decoding Encoding
open Literal (Kind IsOf IsNamed)
open ModifiedUtf8 (stored stored_of_isWhole stored_eq_iff IsPlain)

/-! ## Texts and constants -/

/-- A text of a pool is stored as it is. -/
theorem Text.IsStorable.stored_eq {s : Text} (h : s.IsStorable) : stored s = s :=
  stored_of_isWhole h.isWhole

theorem Text.map_stored_eq {s? : Option Text} (h : ∀ s ∈ s?, s.IsStorable) : s?.map stored = s? := by
  cases s? with
  | none => rfl
  | some s => exact congrArg some (h s rfl).stored_eq

/-- A class or a name that may be missing is stored as it is unless it is empty. -/
theorem Encoding.storedName_eq {s? : Option Text} (h : ∀ s ∈ s?, s.IsStorable) (hne : s? ≠ some []) :
    storedName s? = s? := by
  match s?, h, hne with
  | none, _, _ => rfl
  | some [], _, hne => exact absurd rfl hne
  | some (c :: rest), h, _ => exact congrArg some (h (c :: rest) rfl).stored_eq

/-- A handle of one of the kinds of fields does not say that an interface owns it. -/
def Handle.NamesField (h : Handle) : Prop := h.kind ≤ Pool.lastFieldKind → h.interface = false

theorem Handle.IsStorable.isExact {h : Handle} (hh : h.IsStorable)
    (howner : ∃ owner, h.owner = some owner)
    (hfield : h.NamesField) : h.IsExact := by
  obtain ⟨owner, howner⟩ := howner
  exact ⟨⟨owner, howner, (hh.owner owner howner).isWhole⟩, hh.name.isWhole, hh.descriptor.isWhole, hfield⟩

namespace Constant

/-- A handle on a field does not say that an interface owns it. -/
def NamesField : Constant → Prop
  | .handle h => h.NamesField
  | _ => True

/-- A constant that a class file can pass on is exact. -/
theorem isExact_of_isNamed {kind : Text} {v : Constant} (h : IsNamed kind v) (hproper : v.IsProper)
    (hs : v.IsStorable) (hfield : v.NamesField) : v.IsExact kind := by
  cases h with
  | literal hkind h =>
    cases h with
    | int h => exact .int _
    | long h => exact .long _
    | float x => exact .float hproper
    | double x => exact .double hproper
    | string t => exact .string (hs : Text.IsStorable t).isWhole
    | reference name => exact .reference (hs : Text.IsStorable name).isWhole
    | methodType d => exact .methodType (hs : Text.IsStorable d).isWhole
    | bool | label | bytes | null => exact absurd hkind (by decide)
  | handle hkind => exact .handle ((hs : Handle.IsStorable _).isExact hproper hfield)

/-- An exact constant is stored as it is, but for a truth value. -/
theorem IsExact.readAs_eq {kind : Text} {v : Constant} (h : v.IsExact kind) (hbool : ∀ b, v ≠ .bool b) :
    v.readAs stored kind = v := by
  have hg : ∀ t : Text, t.IsWhole → stored t = t := fun _ => stored_of_isWhole
  have hname (k : Kind) (hk : k ∈ Kind.all) : Kind.ofName? k.name = some k := by
    revert k
    decide
  unfold readAs
  cases h with
  | bool b | longBool b => exact absurd rfl (hbool b)
  | int n =>
    rw [hname _ (by decide)]
    rfl
  | float h =>
    rw [hname _ (by decide)]
    simp only [singleOf_toDouble h]
  | long n =>
    rw [hname _ (by decide)]
    rfl
  | double h =>
    rw [hname _ (by decide)]
    rfl
  | string h | reference h | methodType h =>
    rw [hname _ (by decide)]
    simp only [hg _ h]
  | handle hh =>
    rw [show Kind.ofName? Literal.handleKind = none by decide]
    simp only [hh.stored_eq hg]

/-- A constant that a class file can pass on is stored as it is. -/
theorem readAs_eq_of_isNamed {kind : Text} {v : Constant} (h : IsNamed kind v) (hproper : v.IsProper)
    (hs : v.IsStorable) (hfield : v.NamesField) : v.readAs stored kind = v := by
  refine (isExact_of_isNamed h hproper hs hfield).readAs_eq ?_
  rintro b rfl
  cases h with
  | literal hkind h =>
    cases h
    exact absurd hkind (by decide)

/-- A constant of a kind of literals that stands alone is stored as it is. -/
theorem readAs_eq_of_isOf {kind : Kind} {v : Constant} (hkind : kind ∈ Literal.passable) (h : IsOf kind v)
    (hnumber : v.IsNumber) (hs : v.IsStorable) : v.readAs stored kind.name = v := by
  refine readAs_eq_of_isNamed (.literal hkind h) ?_ hs ?_
  · cases h with
    | float | double => exact hnumber
    | _ => trivial
  · cases h <;> trivial

end Constant

/-! ## Annotations -/

namespace ElementValue

/-- A tag asks for a kind of constants that a class file can pass on. -/
theorem passable_of_elementKind? {tag : ElementTag} {kind : Kind}
    (h : Literal.elementKind? tag = some kind) : kind ∈ Literal.passable := by
  cases tag <;> first | (cases h; decide) | cases h

mutual

/-- A proper value that has been read is stored as it is. -/
theorem stored_eq {visible : Bool} : ∀ {v : ElementValue}, v.IsProper → v.IsDrawn → v.IsSeen visible →
    v.stored visible = v
  | .scalar tag v, ⟨⟨kind, hkind, hv⟩, hnumber⟩, hdrawn, _ => by
    have hsame := Constant.readAs_eq_of_isOf (passable_of_elementKind? hkind) hv hnumber hdrawn.2
    rw [ElementValue.stored, storedKind, hkind, Option.getD_some, hsame]
  | .enum descriptor name, _, hdrawn, _ => by
    rw [ElementValue.stored, hdrawn.1.stored_eq, hdrawn.2.stored_eq]
  | .nested descriptor visible' values, hproper, hdrawn, hseen => by
    have hvalues : storedNamed visible values = values :=
      storedNamed_eq hproper hdrawn.2.2 hseen.2
    rw [ElementValue.stored, hdrawn.1.stored_eq, hvalues, hseen.1]
  | .array es, hproper, hdrawn, hseen => by
    have hall : storedAll visible es = es := storedAll_eq hproper hdrawn.2 hseen
    rw [ElementValue.stored, hall]

/-- Proper values that have been read are stored as they are. -/
theorem storedAll_eq {visible : Bool} : ∀ {vs : List ElementValue}, AreProper vs → AreDrawn vs →
    AreSeen visible vs → storedAll visible vs = vs
  | [], _, _, _ => rfl
  | v :: rest, hproper, hdrawn, hseen => by
    have hfirst := stored_eq hproper.1 hdrawn.1 hseen.1
    have hrest := storedAll_eq hproper.2 hdrawn.2 hseen.2
    rw [storedAll, hfirst, hrest]

/-- Proper named values that have been read are stored as they are. -/
theorem storedNamed_eq {visible : Bool} : ∀ {vs : List (Text × ElementValue)}, AreProperNamed vs →
    AreDrawnNamed vs → AreSeenNamed visible vs → storedNamed visible vs = vs
  | [], _, _, _ => rfl
  | (name, v) :: rest, hproper, hdrawn, hseen => by
    have hfirst := stored_eq hproper.1 hdrawn.2.1 hseen.1
    have hrest := storedNamed_eq hproper.2 hdrawn.2.2 hseen.2
    rw [storedNamed, hdrawn.1.stored_eq, hfirst, hrest]

end

end ElementValue

namespace AnnotationUse

/-- A proper annotation that has been read is stored as it is. -/
theorem stored_eq {a : AnnotationUse} (hproper : a.IsProper) (hdrawn : a.IsDrawn) (hseen : a.IsSeen) :
    a.stored = a := by
  unfold AnnotationUse.stored
  rw [hdrawn.descriptor.stored_eq, ElementValue.storedNamed_eq hproper hdrawn.values hseen]

/-- Proper annotations that have been read are stored as they are. -/
theorem map_stored_eq {as : List AnnotationUse} (hproper : ∀ a ∈ as, a.IsProper)
    (hdrawn : ∀ a ∈ as, a.IsDrawn) (hseen : ∀ a ∈ as, a.IsSeen) : as.map AnnotationUse.stored = as := by
  refine (List.map_congr_left fun a ha => ?_).trans (List.map_id as)
  exact stored_eq (hproper a ha) (hdrawn a ha) (hseen a ha)

end AnnotationUse

/-! ## Instructions -/

namespace Instruction

variable {τ : Type}

/-- No handle on a field in the instruction says that an interface owns the field. -/
def NamesFields : Instruction τ → Prop
  | .constant _ v => v.NamesField
  | .callSite _ _ bootstrap arguments => bootstrap.NamesField ∧ ∀ a ∈ arguments, a.2.NamesField
  | _ => True

/-- A proper instruction that has been read is stored as it is. -/
theorem readAs_eq {i : Instruction τ} (hsound : i.IsSound) (hproper : i.IsProper) (hdrawn : i.IsDrawn)
    (hfields : i.NamesFields) : i.readAs stored = i := by
  cases i with
  | constant op v =>
    rw [readAs, Constant.readAs_eq_of_isNamed hproper.1 hproper.2 hdrawn hfields]
  | type op name | multiArray name n => rw [readAs, Text.map_stored_eq hdrawn]
  | field op owner name descriptor | method op owner name descriptor interface =>
    obtain ⟨howner, hname, hdescriptor⟩ := hdrawn
    rw [readAs, Text.map_stored_eq howner, hname.stored_eq, hdescriptor.stored_eq]
  | callSite name descriptor bootstrap arguments =>
    obtain ⟨⟨hname, hdescriptor⟩, hhandle, -, hstorable⟩ := hdrawn
    have hbootstrap : bootstrap.stored stored = bootstrap :=
      (hhandle.isExact hproper.1 hfields.1).stored_eq fun _ => stored_of_isWhole
    have harguments : (arguments.map fun a => (a.1, a.2.readAs stored a.1)) = arguments := by
      refine (List.map_congr_left fun a ha => ?_).trans (List.map_id arguments)
      have hsame := Constant.readAs_eq_of_isNamed (hsound.2 a ha) (hproper.2 a ha) (hstorable a ha)
        (hfields.2 a ha)
      exact Prod.ext rfl hsame
    rw [readAs, hname.stored_eq, hdescriptor.stored_eq, hbootstrap, harguments]
  | _ => rfl

end Instruction

/-! ## Parts of classes -/

/-- A member class without an empty name is stored as it is. -/
theorem Encoding.storedInner_eq {i : InnerClass} (hdrawn : i.IsDrawn) (houter : i.outer ≠ some [])
    (hname : i.name ≠ some []) : storedInner i = i := by
  unfold storedInner
  rw [Text.map_stored_eq hdrawn.inner, storedName_eq hdrawn.outer houter, storedName_eq hdrawn.name hname]

variable {P : Pool} {t : Table} {σ : Type} {read : Text → Nat → σ → Decoder σ}

/-! ## Annotations by their visibility -/

namespace AnnotationUse

/-- No annotation that is visible stands behind one that is not. -/
def VisibleFirst (as : List AnnotationUse) : Prop :=
  as.Pairwise fun a b => b.visible = true → a.visible = true

theorem visibleFirst_of_visible {as : List AnnotationUse} {visible : Bool}
    (h : ∀ a ∈ as, a.visible = visible) : VisibleFirst as :=
  List.Pairwise.imp_of_mem (fun {a b} ha hb _ hvisible => by rw [h a ha, ← h b hb, hvisible])
    (List.pairwise_of_forall fun _ _ => trivial)

/-- Annotations in order are those that are visible, followed by the others. -/
theorem VisibleFirst.eq_append {as : List AnnotationUse} (h : VisibleFirst as) :
    as = ofVisibility true as ++ ofVisibility false as := by
  induction as with
  | nil => rfl
  | cons a as ih =>
    obtain ⟨hfirst, hrest⟩ := List.pairwise_cons.1 h
    have hrest := ih hrest
    unfold ofVisibility at hrest ⊢
    cases ha : a.visible with
    | true =>
      rw [List.filter_cons_of_pos (by simpa using ha), List.filter_cons_of_neg (by simp [ha]),
        List.cons_append, ← hrest]
    | false =>
      -- nothing behind it is visible
      have hnone : as.filter (fun b => b.visible = true) = [] := by
        refine List.filter_eq_nil_iff.2 fun b hb hvisible => ?_
        have := hfirst b hb (of_decide_eq_true hvisible)
        rw [ha] at this
        cases this
      rw [hnone, List.nil_append] at hrest
      rw [List.filter_cons_of_neg (by simp [ha]), List.filter_cons_of_pos (by simpa using ha), hnone,
        List.nil_append, ← hrest]

/-- Annotations in order are told by those of each visibility. -/
theorem VisibleFirst.eq {as bs : List AnnotationUse} (has : VisibleFirst as) (hbs : VisibleFirst bs)
    (h : ∀ visible, ofVisibility visible as = ofVisibility visible bs) : as = bs := by
  rw [has.eq_append, hbs.eq_append, h true, h false]

/-- A list of annotations has been continued by some of a visibility. -/
def Continues (visible : Bool) (as bs : List AnnotationUse) : Prop :=
  ∃ more, bs = as ++ more ∧ ∀ a ∈ more, a.visible = visible

theorem Continues.refl (visible : Bool) (as : List AnnotationUse) : Continues visible as as :=
  ⟨[], (List.append_nil as).symm, nofun⟩

theorem Continues.trans {visible : Bool} {as bs cs : List AnnotationUse} (h : Continues visible as bs)
    (h' : Continues visible bs cs) : Continues visible as cs := by
  obtain ⟨more, rfl, hmore⟩ := h
  obtain ⟨more', rfl, hmore'⟩ := h'
  refine ⟨more ++ more', List.append_assoc _ _ _, fun a ha => ?_⟩
  exact (List.mem_append.1 ha).elim (hmore a) (hmore' a)

end AnnotationUse

open AnnotationUse (VisibleFirst Continues)

/-! ## Annotations that are read -/

/-- Annotations are read from the attributes of two names, one for each visibility, each behind
those that have been read before. -/
structure Annotates (read : Text → Nat → σ → Decoder σ) (observe : σ → List AnnotationUse)
    (name : Bool → Text) : Prop where
  same : ∀ (a : Attribute) (s s' : σ), (∀ visible, a.name ≠ name visible) →
    Outline.whole (read a.name a.data.length s) a.data = .ok s' → observe s' = observe s
  more : ∀ (visible : Bool) (a : Attribute) (s s' : σ), a.name = name visible →
    Outline.whole (read a.name a.data.length s) a.data = .ok s' →
        Continues visible (observe s) (observe s')

/-- Attributes without those of one visibility continue the annotations with the other one. -/
theorem Annotates.continues {observe : σ → List AnnotationUse} {name : Bool → Text}
    (hread : Annotates read observe name) {visible : Bool} {as : List Attribute} {s s' : σ}
    (has : ∀ a ∈ as, a.name ≠ name (!visible)) (h : Attribute.readAll read as s = .ok s') :
    Continues visible (observe s) (observe s') := by
  induction as generalizing s with
  | nil =>
    cases h
    exact .refl visible _
  | cons a as ih =>
    obtain ⟨_, s₁, ⟨⟩, ha, hrest⟩ :=
      readAll_append_cons (show Attribute.readAll _ ([] ++ a :: as) s = .ok s' from h)
    have htail := ih (fun b hb => has b (List.mem_cons_of_mem _ hb)) hrest
    by_cases hname : a.name = name visible
    · exact (hread.more visible a s s₁ hname ha).trans htail
    · have hsame : observe s₁ = observe s := by
        refine hread.same a s s₁ (fun other heq => ?_) ha
        by_cases hother : other = visible
        · exact hname (hother ▸ heq)
        · exact has a List.mem_cons_self ((Bool.eq_not.2 hother) ▸ heq)
      rwa [hsame] at htail

/-- The pieces fall into two rows: no attribute of what is not visible is in the first one, none of
what is visible in the second one. -/
def AreSplit (name : Bool → Text) (pieces : List Piece) : Prop :=
  ∃ front back, pieces = front ++ back ∧ (∀ p ∈ front, p.name ≠ name false) ∧
    ∀ p ∈ back, p.name ≠ name true

namespace AreSplit

variable {name : Bool → Text} {pieces others : List Piece}

theorem append_left (hothers : ∀ p ∈ others, p.name ≠ name false) (h : AreSplit name pieces) :
    AreSplit name (others ++ pieces) := by
  obtain ⟨front, back, rfl, hfront, hback⟩ := h
  refine ⟨others ++ front, back, (List.append_assoc _ _ _).symm, fun p hp => ?_, hback⟩
  exact (List.mem_append.1 hp).elim (hothers p) (hfront p)

theorem append_right (h : AreSplit name pieces) (hothers : ∀ p ∈ others, p.name ≠ name true) :
    AreSplit name (pieces ++ others) := by
  obtain ⟨front, back, rfl, hfront, hback⟩ := h
  refine ⟨front, back ++ others, List.append_assoc _ _ _, hfront, fun p hp => ?_⟩
  exact (List.mem_append.1 hp).elim (hback p) (hothers p)

/-- What is written in two pieces, the visible one first. -/
theorem pieceIf (name : Bool → Text) (condition : Bool → Bool) (content : Bool → Encoder Bytes)
    (hne : name true ≠ name false) :
    AreSplit name (Encoding.pieceIf (condition true) (name true) (content true) ++
      Encoding.pieceIf (condition false) (name false) (content false)) :=
  ⟨_, _, rfl, fun p hp => name_of_mem_pieceIf p hp ▸ hne, fun p hp => name_of_mem_pieceIf p hp ▸ hne.symm⟩

theorem annotationPieces (as : List AnnotationUse) :
    AreSplit AttributeName.annotations (Encoding.annotationPieces as) := by
  unfold Encoding.annotationPieces
  rw [List.flatMap_cons, List.flatMap_singleton]
  exact pieceIf AttributeName.annotations (fun visible => !(ofVisibility visible as).isEmpty)
    (fun visible => annotationUses (ofVisibility visible as)) (by decide)

end AreSplit

/-- Annotations that are read back from such pieces are in order. -/
theorem visibleFirst_of_readPieces {observe : σ → List AnnotationUse} {name : Bool → Text}
    (hread : Annotates read observe name) (hplain : ∀ visible, IsPlain (name visible))
    {pieces : List Piece} (hsplit : AreSplit name pieces) {as : List Attribute}
    (has : List.Forall₂ (Piece.Writes P) pieces as) {s s' : σ}
    (h : Attribute.readAll read (as.map (Attribute.mapName stored)) s = .ok s')
    (hempty : observe s = []) : VisibleFirst (observe s') := by
  obtain ⟨front, back, rfl, hfront, hback⟩ := hsplit
  obtain ⟨bs, cs, hbs, hcs, rfl⟩ := exists_append_of_forall₂ has
  have hnames {ps : List Piece} {ds : List Attribute} {visible : Bool}
      (hps : ∀ p ∈ ps, p.name ≠ name visible) (hds : List.Forall₂ (Piece.Writes P) ps ds) :
      ∀ a ∈ ds.map (Attribute.mapName stored), a.name ≠ name visible := by
    intro a ha hname
    obtain ⟨b, hb, rfl⟩ := List.mem_map.1 ha
    obtain ⟨p, hp, hsame, -⟩ := Result.exists_of_mem_right hds hb
    exact hps p hp (hsame ▸ (stored_eq_iff (hplain visible)).1 hname)
  rw [List.map_append] at h
  unfold Attribute.readAll at h
  rw [List.foldlM_append] at h
  obtain ⟨s₁, hfirst, hlast⟩ := Result.bind_eq_ok_iff.1 h
  obtain ⟨visibles, hvisibles, hall⟩ : Continues true (observe s) (observe s₁) :=
    hread.continues (hnames hfront hbs) hfirst
  obtain ⟨others, hothers, hnone⟩ : Continues false (observe s₁) (observe s') :=
    hread.continues (hnames hback hcs) hlast
  rw [hempty, List.nil_append] at hvisibles
  rw [hothers, hvisibles]
  refine List.pairwise_append.2 ⟨AnnotationUse.visibleFirst_of_visible hall,
    AnnotationUse.visibleFirst_of_visible hnone, fun a ha _ _ _ => hall a ha⟩

/-- Attributes that are kept as bytes are read back in their order. -/
theorem KeepsRaw.eq_map {observe : σ → List Attribute} {names : List Text}
    (hkeeps : KeepsRaw read observe names) {raw : List Attribute} {pieces : List Piece}
    (hpieces : ArePiecesAround names raw pieces) {as : List Attribute}
    (has : List.Forall₂ (Piece.Writes P) pieces as) {s s' : σ}
    (h : Attribute.readAll read (as.map (Attribute.mapName stored)) s = .ok s')
    (hempty : observe s = []) : observe s' = raw.map (Attribute.mapName stored) := by
  rw [hkeeps.observe_eq h, hempty, List.nil_append, hpieces.filter_eq has]

/-! ## Entities without hints -/

/-- The name of an attribute of annotations tells their visibility. -/
theorem AttributeName.annotations_injective {visible visible' : Bool}
    (h : annotations visible = annotations visible') : visible = visible' := by
  revert h
  cases visible <;> cases visible' <;> decide

namespace Decoding

theorem annotates_class :
    Annotates (readClassAttribute t) Class.annotations AttributeName.annotations where
  same a s s' hname hread := by
    cases changes_of_readClassAttribute hread with
    | annotations visible h => exact absurd h (hname visible)
    | _ => rfl
  more visible a s s' hname hread := by
    cases changes_of_readClassAttribute hread with
    | annotations visible' h as has =>
      obtain rfl := AttributeName.annotations_injective (h.symm.trans hname)
      exact ⟨as, rfl, has⟩
    | _ => exact .refl visible _

theorem annotates_field :
    Annotates (readFieldAttribute t) Field.annotations AttributeName.annotations where
  same a s s' hname hread := by
    cases changes_of_readFieldAttribute hread with
    | annotations visible h => exact absurd h (hname visible)
    | _ => rfl
  more visible a s s' hname hread := by
    cases changes_of_readFieldAttribute hread with
    | annotations visible' h as has =>
      obtain rfl := AttributeName.annotations_injective (h.symm.trans hname)
      exact ⟨as, rfl, has⟩
    | _ => exact .refl visible _

theorem annotates_method :
    Annotates (readMethodAttribute t) Method.annotations AttributeName.annotations where
  same a s s' hname hread := by
    cases changes_of_readMethodAttribute hread with
    | annotations visible h => exact absurd h (hname visible)
    | _ => rfl
  more visible a s s' hname hread := by
    cases changes_of_readMethodAttribute hread with
    | annotations visible' h as has =>
      obtain rfl := AttributeName.annotations_injective (h.symm.trans hname)
      exact ⟨as, rfl, has⟩
    | _ => exact .refl visible _

/-- The annotations of a parameter. -/
def annotationsAt (i : Nat) (m : Method) : List AnnotationUse :=
  (m.parameters.map Parameter.annotations)[i]?.getD []

/-- With lists of a visibility for the last parameters each of them has more annotations, if
anything. -/
theorem continues_withAnnotations {visible : Bool} {lists : List (List AnnotationUse)} {m : Method}
    (h : AreListed visible m.parameters.length lists) (i : Nat) :
    Continues visible (annotationsAt i m) (annotationsAt i (withAnnotations visible lists m)) := by
  have hdrop : (m.parameters.drop (m.parameters.length - lists.length)).length = lists.length := by
    have := h.length_le
    rw [List.length_drop]
    omega
  -- the parameters fall into those without a list and those with one
  have hfront : ((m.parameters.take (m.parameters.length - lists.length)).map
      Parameter.annotations).length =
      m.parameters.length - lists.length := by
    rw [List.length_map, List.length_take]
    omega
  have hsplit : m.parameters.map Parameter.annotations =
      (m.parameters.take (m.parameters.length - lists.length)).map Parameter.annotations ++
        (m.parameters.drop (m.parameters.length - lists.length)).map Parameter.annotations := by
    rw [← List.map_append, List.take_append_drop]
  unfold annotationsAt
  rw [parameters_withAnnotations, hsplit, List.map_append]
  by_cases hfirst : i < m.parameters.length - lists.length
  · rw [List.getElem?_append_left (by omega), List.getElem?_append_left (by omega)]
    exact .refl visible _
  · rw [List.getElem?_append_right (by omega), List.getElem?_append_right (by omega), List.map_zipWith,
      List.getElem?_zipWith, List.getElem?_map]
    generalize i - _ = j
    by_cases hj : j < lists.length
    · have hj' : j < (m.parameters.drop (m.parameters.length - lists.length)).length := hdrop.symm ▸ hj
      rw [List.getElem?_eq_getElem hj', List.getElem?_eq_getElem hj]
      exact ⟨lists[j], rfl, h.visible _ (List.getElem_mem hj)⟩
    · rw [List.getElem?_eq_none (by omega), List.getElem?_eq_none (by omega)]
      exact .refl visible _

/-- Something of each, whatever is put onto it. -/
theorem zipWith_eq_map_left {α β γ : Type} {f : α → β → γ} {g : α → γ} {as : List α} {bs : List β}
    (hlength : as.length = bs.length) (h : ∀ a b, f a b = g a) : List.zipWith f as bs = as.map g := by
  induction as generalizing bs with
  | nil => rw [List.zipWith_nil_left, List.map_nil]
  | cons a as ih =>
    obtain ⟨b, bs, rfl⟩ := List.exists_cons_of_length_eq_add_one hlength.symm
    rw [List.zipWith_cons_cons, List.map_cons, ih (Nat.succ.inj hlength), h]

/-- Other attributes leave the annotations of parameters alone. -/
theorem annotationsAt_eq {a : Attribute} {m m' : Method}
    (hname : ∀ visible, a.name ≠ AttributeName.parameterAnnotations visible)
    (h : Outline.whole (readMethodAttribute t a.name a.data.length m) a.data = .ok m') (i : Nat) :
    annotationsAt i m' = annotationsAt i m := by
  have hparameters : m'.parameters.map Parameter.annotations =
      m.parameters.map Parameter.annotations := by
    by_cases hnames : a.name = AttributeName.methodParameters
    · rw [hnames] at h
      obtain ⟨entries, hle, rfl⟩ := exists_withNames h
      have hlength : ((m.noting AttributeName.methodParameters).parameters.take entries.length).length =
          entries.length := by
        rw [List.length_take]
        exact min_eq_left hle
      have hsame := zipWith_eq_map_left (f := fun p e => (named p e).annotations)
        (g := Parameter.annotations) hlength fun _ _ => rfl
      rw [parameters_withNames, List.map_append, List.map_zipWith, hsame, ← List.map_append,
        List.take_append_drop]
      rfl
    · cases changes_of_readMethodAttribute h with
      | parameters hmem =>
        simp only [AttributeName.ofParameters, List.mem_cons, List.not_mem_nil, or_false] at hmem
        rcases hmem with hmem | hmem | hmem
        · exact absurd hmem (hname true)
        · exact absurd hmem (hname false)
        · exact absurd hmem hnames
      | _ => rfl
  unfold annotationsAt
  rw [hparameters]

/-- Each parameter is annotated by the attributes about parameters. -/
theorem annotates_parameter (i : Nat) :
    Annotates (readMethodAttribute t) (annotationsAt i) AttributeName.parameterAnnotations where
  same a m m' hname hread := annotationsAt_eq hname hread i
  more visible a m m' hname hread := by
    rw [hname] at hread
    obtain ⟨lists, hlisted, rfl⟩ := exists_withAnnotations hread
    exact continues_withAnnotations (m := m.noting _) hlisted i

end Decoding

end ClassTree
