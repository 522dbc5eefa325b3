/-
# ClassTree.Proofs.ReadBack.Hints — what the order of attributes decides

A layout says in which order the attributes of an entity are written, and over which tables the
lines of a body are spread. Contents of attributes go into the pool in that order too, so two
layouts give files that differ all over. But what is read of a file is told by the attributes one
name at a time, whichever index stands for what. So classes that are the same without their layouts
are read back as the same class, as far as names tell attributes apart: in a list that several
attributes are read into, the parts of the list that stem from attributes of different names may
change places.

There are three such lists: annotations, visible and invisible ones; attributes that are kept as
bytes; and the markers of lines that stand at one offset.

The analysis of a method does not look at its layout either: a method needs the same sizes and the
same frames with and without it.
-/
import ClassTree.Proofs.ReadBack.ClassFile

namespace ClassTree

open Decoding Encoding Encoder
open ModifiedUtf8 (stored IsPlain)

/-! ## What the analysis does not look at -/

namespace Flow

open Program (placeOf)

variable (p : Program)

/-- The program of the method without its layout. -/
def Program.bare : Program := { p with method := p.method.bare }

namespace Solver

/-- A look at an instruction does not depend on the layout of the method. -/
theorem visit_bare (s : Solver) (index : Nat) : s.visit p.bare index = s.visit p index := rfl

theorem solve_bare (s : Solver) : s.solve p.bare = s.solve p := by
  induction s using Solver.solve.induct p with
  | case1 s hpending => exact (solve_of_nil hpending).trans (solve_of_nil hpending).symm
  | case2 s index rest hpending e hvisit =>
    have hbare := solve_of_refusal hpending ((visit_bare p _ index).trans hvisit)
    exact hbare.trans (solve_of_refusal hpending hvisit).symm
  | case3 s index rest hpending t hvisit ih =>
    have hbare := solve_of_visit hpending ((visit_bare p _ index).trans hvisit)
    rw [hbare, solve_of_visit hpending hvisit, ih]

theorem run_bare : run p.bare = run p := by
  unfold run
  simp only [solve_bare]
  rfl

end Solver

namespace Program

theorem framesAt_bare (s : Solver) (indices : List Nat) (previous : List VerificationType)
    (acc : List (Nat × Frame)) :
    p.bare.framesAt s indices previous acc = p.framesAt s indices previous acc := by
  induction indices generalizing previous acc with
  | nil => rfl
  | cons index rest ih =>
    unfold framesAt
    simp only [ih]
    rfl

theorem frames_bare (s : Solver) (extra : List Int) : p.bare.frames s extra = p.frames s extra := by
  unfold frames
  simp only [framesAt_bare]
  rfl

theorem ofMethod_bare (owner : Text) (m : Method) :
    ofMethod owner m.bare = (do return (← ofMethod owner m).bare) := by
  unfold ofMethod
  simp only [bind_assoc, pure_bind]
  rfl

end Program

/-- The sizes that a method needs do not depend on its layout. -/
theorem computeMaxima_bare (owner : Text) (m : Method) :
    computeMaxima owner m.bare = computeMaxima owner m := by
  unfold computeMaxima
  rw [Program.ofMethod_bare]
  simp only [bind_assoc, pure_bind, Solver.run_bare]
  rfl

theorem computeFrames_bare (owner : Text) (m : Method) (extra : List Int) :
    computeFrames owner m.bare extra = computeFrames owner m extra := by
  unfold computeFrames
  rw [Program.ofMethod_bare]
  simp only [bind_assoc, pure_bind, Solver.run_bare, Program.frames_bare]
  rfl

end Flow

/-- What a method is written with does not depend on its layout. -/
theorem Encoding.verified_bare (owner : Text) (verify stackMaps : Bool) (m : Method) (l : Layout) :
    verified owner verify stackMaps m.bare l = verified owner verify stackMaps m l := by
  unfold verified
  simp only [Flow.computeMaxima_bare, Flow.computeFrames_bare]
  rfl

/-! ## The same but for the order -/

/-- Annotations that are the same, but for the order of those of different visibility. -/
def AnnotationUse.SameButOrder (as bs : List AnnotationUse) : Prop :=
  ∀ visible, ofVisibility visible as = ofVisibility visible bs

/-- Attributes that are the same, but for the order of those with different names. -/
structure Attribute.SameButOrder (as bs : List Attribute) : Prop where
  perm : as.Perm bs
  named : ∀ n, IsPlain n → as.filter (fun a => a.name = n) = bs.filter fun a => a.name = n

/-- Parameters that are the same, but for the order of annotations. -/
structure Parameter.SameButOrder (p q : Parameter) : Prop where
  rest : { q with annotations := p.annotations } = p
  annotations : AnnotationUse.SameButOrder p.annotations q.annotations

/-- Fields that are the same, but for the order of annotations and of attributes. -/
structure Field.SameButOrder (f g : Field) : Prop where
  rest : { g with
    annotations := f.annotations, attributes := f.attributes, attributeOrder := f.attributeOrder } = f
  annotations : AnnotationUse.SameButOrder f.annotations g.annotations
  attributes : Attribute.SameButOrder f.attributes g.attributes

/-- Methods that have the same code, but for the order of lines and of attributes. -/
structure Method.SameCodeButOrder (m n : Method) : Prop where
  rest : (n.maxima, n.handlers, n.localVariables) = (m.maxima, m.handlers, m.localVariables)
  body : SameLines m.body n.body
  attributes : Attribute.SameButOrder m.codeAttributes n.codeAttributes

/-- Methods that are the same, but for the order of annotations, of attributes and of lines. -/
structure Method.SameButOrder (m n : Method) : Prop where
  rest : { n with
    parameters := m.parameters, body := m.body, annotations := m.annotations, attributes := m.attributes,
    codeAttributes := m.codeAttributes, layout := m.layout } = m
  parameters : List.Forall₂ Parameter.SameButOrder m.parameters n.parameters
  annotations : AnnotationUse.SameButOrder m.annotations n.annotations
  attributes : Attribute.SameButOrder m.attributes n.attributes
  code : m.SameCodeButOrder n

/-- Classes that are the same, but for the order of annotations, of attributes and of lines. -/
structure Class.SameButOrder (c d : Class) : Prop where
  rest : { d with
    fields := c.fields, methods := c.methods, annotations := c.annotations, attributes := c.attributes,
    layout := c.layout } = c
  fields : List.Forall₂ Field.SameButOrder c.fields d.fields
  methods : List.Forall₂ Method.SameButOrder c.methods d.methods
  annotations : AnnotationUse.SameButOrder c.annotations d.annotations
  attributes : Attribute.SameButOrder c.attributes d.attributes

/-- What has been found twice of the same attributes is the same but for the order. -/
theorem Attribute.AreReadBackAs.sameButOrder {raw found found' : List Attribute}
    (h : AreReadBackAs raw found) (h' : AreReadBackAs raw found') : SameButOrder found found' where
  perm := h.perm.trans h'.perm.symm
  named n hn := (h.order n hn).trans (h'.order n hn).symm

/-! ## Two layouts of one class -/

/-- What is mapped to the same agrees place by place. -/
theorem forall₂_of_map_eq {α β : Type} {f : α → β} {as bs : List α} (h : as.map f = bs.map f) :
    List.Forall₂ (fun a b => f a = f b) as bs := by
  rw [← List.forall₂_eq_eq_eq, List.forall₂_map_left_iff, List.forall₂_map_right_iff] at h
  exact h

/-- Fields that are the same without their layouts differ in their layouts only. -/
theorem Field.exists_of_bare_eq {f f' : Field} (h : f.bare = f'.bare) :
    ∃ attributeOrder, f' = { f with attributeOrder } := by
  refine ⟨f'.attributeOrder, ?_⟩
  have hself : f' = { f'.bare with attributeOrder := f'.attributeOrder } := rfl
  rw [hself, ← h]
  rfl

/-- Classes that are the same without their layouts differ in their layouts and in those of their
members. -/
theorem Class.exists_of_bare_eq {c c' : Class} (h : c.bare = c'.bare) :
    ∃ fields methods layout, c' = { c with fields, methods, layout } ∧
      List.Forall₂ (fun f f' => f.bare = f'.bare) c.fields fields ∧
      List.Forall₂ (fun m m' => m.bare = m'.bare) c.methods methods := by
  refine ⟨c'.fields, c'.methods, c'.layout, ?_, ?_, ?_⟩
  · have hself : c' = { c'.bare with
      fields := c'.fields, methods := c'.methods, layout := c'.layout } := rfl
    rw [hself, ← h]
    rfl
  · exact forall₂_of_map_eq (congrArg Class.fields h)
  · exact forall₂_of_map_eq (congrArg Class.methods h)

/-- Whether a method is clear is no matter of its layout. -/
theorem Method.IsClear.of_bare_eq {m m' : Method} (hclear : m.IsClear) (h : m.bare = m'.bare) :
    m'.IsClear := by
  obtain ⟨layout, rfl⟩ := Method.exists_of_bare_eq h
  exact {
    isTagged := ⟨hclear.isTagged.annotations, hclear.isTagged.parameters, hclear.isTagged.default⟩
    raw := hclear.raw
    code := fun hcode => ⟨(hclear.code hcode).families, (hclear.code hcode).targets,
      (hclear.code hcode).frames, (hclear.code hcode).raw⟩ }

/-- Whether a class is clear is no matter of its layout. -/
theorem Class.IsClear.of_bare_eq {c c' : Class} (hclear : c.IsClear) (h : c.bare = c'.bare) :
    c'.IsClear := by
  obtain ⟨fields, methods, layout, rfl, hfields, hmethods⟩ := Class.exists_of_bare_eq h
  refine ⟨hclear.annotations, hclear.raw, fun f' hf' => ?_, fun m' hm' => ?_⟩
  · obtain ⟨f, hf, hbare⟩ := Result.exists_of_mem_right hfields hf'
    obtain ⟨order, rfl⟩ := Field.exists_of_bare_eq hbare
    exact ⟨(hclear.fields f hf).annotations, (hclear.fields f hf).raw⟩
  · obtain ⟨m, hm, hbare⟩ := Result.exists_of_mem_right hmethods hm'
    exact (hclear.methods m hm).of_bare_eq hbare

/-! ## Members that have been read back twice -/

/-- The attributes of some code that are kept as bytes are those of its tables. -/
theorem Decoding.RawCode.attributes_of_assemble {r : RawCode} {registry : Label.Registry} {code : Code}
    {c c₁ : Cursor} (h : r.assemble registry c = .ok (code, c₁)) :
    code.attributes = r.tables.attributes := by
  unfold assemble at h
  generalize r.label.run registry = result at h
  obtain ⟨labelled, registry⟩ := result
  obtain ⟨_, c₂, -, hrest⟩ := Decoder.bind_eq_ok_iff.1 h
  obtain ⟨tables, c₃, -, hdone⟩ := Decoder.bind_eq_ok_iff.1 hrest
  cases hdone
  rfl

/-- A field in two layouts is read back as the same but for the order. -/
theorem Field.IsReadBackAs.sameButOrder {f f' r r' : Field} (h : f.IsReadBackAs r)
    (h' : f'.IsReadBackAs r') (hbare : f.bare = f'.bare) : r.SameButOrder r' := by
  obtain ⟨order, rfl⟩ := Field.exists_of_bare_eq hbare
  have haccess := h'.access.trans h.access.symm
  have hname := h'.name.trans h.name.symm
  have hdescriptor := h'.descriptor.trans h.descriptor.symm
  have hsignature := h'.signature.trans h.signature.symm
  have hvalue := h'.value.trans h.value.symm
  exact {
    rest := by
      cases r
      cases r'
      simp_all only
    annotations := fun visible => (h.annotations visible).trans (h'.annotations visible).symm
    attributes := h.raw.sameButOrder h'.raw }

/-- Parameters that have been told the same. -/
theorem Method.HasTables.sameButOrder {n : Nat} {s : ParameterTables} {m m' : Method}
    (h : m.HasTables n s) (h' : m'.HasTables n s)
    (hheads : m.parameters.map Parameter.head = m'.parameters.map Parameter.head) :
    List.Forall₂ Parameter.SameButOrder m.parameters m'.parameters := by
  have hlength : m.parameters.length = m'.parameters.length := by
    simpa only [List.length_map] using congrArg List.length hheads
  have hannotations (visible : Bool) :=
    (h.annotations visible).trans (h'.annotations visible).symm
  have hnames := h.names.trans h'.names.symm
  rw [List.forall₂_iff_get]
  refine ⟨hlength, fun i hi hi' => ?_⟩
  have hat {β : Type} {f : Parameter → β} (heq : m.parameters.map f = m'.parameters.map f) :
      f m.parameters[i] = f m'.parameters[i] := by
    have hget := congrArg (·[i]?) heq
    simpa [hi, hi'] using hget
  have hhead := hat hheads
  have hname := hat (f := fun p => (p.name, p.access)) hnames
  simp only [Parameter.head, Prod.mk.injEq] at hhead hname
  constructor
  · simp only [List.get_eq_getElem]
    cases hp : m.parameters[i]
    simp_all only
  · exact fun visible => hat (f := fun p => ofVisibility visible p.annotations) (hannotations visible)

section Methods

variable {t t' : Table} {P P' : Pool} (ht : Backs stored t P) (hsmall : t.IsSmall)
  (ht' : Backs stored t' P') (hsmall' : t'.IsSmall) {owner : Text} {verify stackMaps : Bool}
include ht hsmall ht' hsmall'

/-- The code of a method in two layouts is read back as the same but for the order. -/
theorem Method.IsCodeReadBackAs.sameCodeButOrder {m m' found found' : Method}
    (h : m.IsCodeReadBackAs owner verify stackMaps P found)
    (h' : m'.IsCodeReadBackAs owner verify stackMaps P' found') (hbare : m.bare = m'.bare) :
    found.SameCodeButOrder found' := by
  obtain ⟨parts, raw, code, c, hraw, hassemble, rfl⟩ := h
  obtain ⟨parts', raw', code', c', hraw', hassemble', rfl⟩ := h'
  obtain ⟨layout, rfl⟩ := Method.exists_of_bare_eq hbare
  have hlayout : parts.layout = parts'.layout :=
    fixed_of_unique ht hsmall ht' hsmall' parts.fixed_layout parts'.fixed_layout
  have hverified : (parts.sizes, parts.frames) = (parts'.sizes, parts'.frames) := by
    have heq := parts'.verified_eq
    rw [← hlayout, ← verified_bare, ← hbare, verified_bare, parts.verified_eq] at heq
    exact Except.ok.inj heq
  obtain ⟨hsizes, hframes⟩ := Prod.mk.inj hverified
  rw [← hlayout, ← hsizes, ← hframes] at hraw'
  obtain ⟨hmaxima, hbody, hhandlers, hvariables⟩ :=
    (hraw.agrees hraw' hbare).of_assemble hassemble hassemble'
  exact {
    rest := by rw [hmaxima, hhandlers, hvariables]
    body := hbody
    attributes := by
      rw [RawCode.attributes_of_assemble hassemble, RawCode.attributes_of_assemble hassemble']
      exact hraw.attributes.sameButOrder hraw'.attributes }

/-- A method in two layouts is read back as the same but for the order. -/
theorem Method.IsReadBackAs.sameButOrder {m m' r r' : Method}
    (h : m.IsReadBackAs owner verify stackMaps P r) (h' : m'.IsReadBackAs owner verify stackMaps P' r')
    (hbare : m.bare = m'.bare) : r.SameButOrder r' := by
  have hcode : r.onlyCode.SameCodeButOrder r'.onlyCode := by
    have hsame : m'.hasCode = m.hasCode := (congrArg Method.hasCode hbare).symm
    cases hhas : m.hasCode with
    | true =>
      exact (h.code hhas).sameCodeButOrder ht hsmall ht' hsmall' (h'.code (hsame.trans hhas)) hbare
    | false =>
      obtain ⟨layout, rfl⟩ := Method.exists_of_bare_eq hbare
      rw [h'.bodiless (hsame.trans hhas), h.bodiless hhas]
      exact ⟨rfl, .nil, .refl _, fun _ _ => rfl⟩
  obtain ⟨layout, rfl⟩ := Method.exists_of_bare_eq hbare
  obtain ⟨types, htypes, hheads, htables⟩ := h.parameters
  obtain ⟨types', htypes', hheads', htables'⟩ := h'.parameters
  obtain rfl : types = types' := Except.ok.inj (htypes.symm.trans htypes')
  have haccess := h'.access.trans h.access.symm
  have hname := h'.name.trans h.name.symm
  have hdescriptor := h'.descriptor.trans h.descriptor.symm
  have hsignature := h'.signature.trans h.signature.symm
  have hexceptions := h'.exceptions.trans h.exceptions.symm
  have hdefault := h'.default.trans h.default.symm
  have hvisible := (htables'.annotationCount true).trans (htables.annotationCount true).symm
  have hinvisible := (htables'.annotationCount false).trans (htables.annotationCount false).symm
  have hcount := htables'.nameCount.trans htables.nameCount.symm
  have hrest := hcode.rest
  exact {
    rest := by
      cases r
      cases r'
      simp_all [Method.annotationCount, Method.onlyCode]
    parameters := htables.sameButOrder htables' (hheads.trans hheads'.symm)
    annotations := fun visible => (h.annotations visible).trans (h'.annotations visible).symm
    attributes := h.raw.sameButOrder h'.raw
    code := ⟨hcode.rest, hcode.body, hcode.attributes⟩ }

end Methods

/-! ## The class -/

/-- What is read of two classes in a row is related if what is read of related things is. -/
theorem forall₂_between {α β : Type} {S : α → α → Prop} {R R' : α → β → Prop} {Q : β → β → Prop}
    {as as' : List α} {bs bs' : List β} (h : List.Forall₂ R as bs) (h' : List.Forall₂ R' as' bs')
    (hS : List.Forall₂ S as as') (hQ : ∀ a a' b b', S a a' → R a b → R' a' b' → Q b b') :
    List.Forall₂ Q bs bs' := by
  have hfirst := Result.forall₂_trans (Q := fun b a' => ∃ a, R a b ∧ S a a') h.flip hS
    fun b a a' hab haa' => ⟨a, hab, haa'⟩
  exact Result.forall₂_trans hfirst h' fun b a' b' ⟨a, hab, haa'⟩ hab' => hQ a a' b b' haa' hab hab'

/-- A class in two layouts is read back as the same but for the order. -/
theorem Encoding.Written.sameButOrder {verify : Bool} {c c' : Class} {bytes bytes' : Bytes}
    (w : Written verify c bytes) (w' : Written verify c' bytes') (hseed : Pool.IsSeed c.layout.pool)
    (hseed' : Pool.IsSeed c'.layout.pool) (hclear : c.IsClear) (hbare : c.bare = c'.bare) {r r' : Class}
    (hr : Class.ofBytes bytes = .ok r) (hr' : Class.ofBytes bytes' = .ok r')
    (hsmall : r.layout.pool.length ≤ maxByte + 1) (hsmall' : r'.layout.pool.length ≤ maxByte + 1) :
    r.SameButOrder r' := by
  have hclear' := hclear.of_bare_eq hbare
  have ht : Backs stored w.fullTable w.pool := w.backs hseed _
  have ht' : Backs stored w'.fullTable w'.pool := w'.backs hseed' _
  have htable := w.isSmall_fullTable hseed hclear hr hsmall
  have htable' := w'.isSmall_fullTable hseed' hclear' hr' hsmall'
  have h := w.isReadBackAs hseed hclear (fun _ _ i _ => loadsShort_of_isSmall ht htable i) hr
  have h' := w'.isReadBackAs hseed' hclear' (fun _ _ i _ => loadsShort_of_isSmall ht' htable' i) hr'
  obtain ⟨fields, methods, layout, rfl, hfields, hmethods⟩ := Class.exists_of_bare_eq hbare
  have hname := h'.name.trans h.name.symm
  have haccess := h'.access.trans h.access.symm
  have hmajor := h'.major.trans h.major.symm
  have hminor := h'.minor.trans h.minor.symm
  have hsuper := h'.super.trans h.super.symm
  have hinterfaces := h'.interfaces.trans h.interfaces.symm
  have hsignature := h'.signature.trans h.signature.symm
  have hsourceFile := h'.sourceFile.trans h.sourceFile.symm
  have hinner := h'.innerClasses.trans h.innerClasses.symm
  have henclosing := h'.enclosing.trans h.enclosing.symm
  exact {
    rest := by
      cases r
      cases r'
      simp_all only
    fields := forall₂_between h.fields h'.fields hfields fun _ _ _ _ hsame hf hf' =>
      hf.sameButOrder hf' hsame
    methods := forall₂_between h.methods h'.methods hmethods fun _ _ _ _ hsame hm hm' =>
      hm.sameButOrder ht htable ht' htable' hm' hsame
    annotations := fun visible => (h.annotations visible).trans (h'.annotations visible).symm
    attributes := h.raw.sameButOrder h'.raw }

/-! ## Lists that one attribute is read into -/

/-- All annotations have one visibility. -/
def AnnotationUse.AreUnmixed (as : List AnnotationUse) : Prop :=
  ∃ visible, ∀ a ∈ as, a.visible = visible

/-- All attributes have one name. -/
def Attribute.AreUnmixed (as : List Attribute) : Prop := ∃ n, IsPlain n ∧ ∀ a ∈ as, a.name = n

/-- No two markers of lines stand side by side. -/
def Item.AreUnmixed (body : List Item) : Prop :=
  ∀ before n n' after, body ≠ before ++ .line n :: .line n' :: after

/-- A method whose lists are each read of attributes of one name. -/
structure Method.IsUnmixed (m : Method) : Prop where
  parameters : ∀ p ∈ m.parameters, AnnotationUse.AreUnmixed p.annotations
  annotations : AnnotationUse.AreUnmixed m.annotations
  attributes : Attribute.AreUnmixed m.attributes
  body : Item.AreUnmixed m.body
  codeAttributes : Attribute.AreUnmixed m.codeAttributes

/-- A class whose lists, and those of its members, are each read of attributes of one name. -/
structure Class.IsUnmixed (c : Class) : Prop where
  fields : ∀ f ∈ c.fields, AnnotationUse.AreUnmixed f.annotations ∧ Attribute.AreUnmixed f.attributes
  methods : ∀ m ∈ c.methods, m.IsUnmixed
  annotations : AnnotationUse.AreUnmixed c.annotations
  attributes : Attribute.AreUnmixed c.attributes

theorem AnnotationUse.SameButOrder.eq {as bs : List AnnotationUse} (h : SameButOrder as bs)
    (hunmixed : AreUnmixed as) : as = bs := by
  obtain ⟨visible, hvisible⟩ := hunmixed
  have hself : ofVisibility visible as = as :=
    List.filter_eq_self.2 fun a ha => decide_eq_true (hvisible a ha)
  have hnone : ofVisibility (!visible) as = [] :=
    List.filter_eq_nil_iff.2 fun a ha => by simp [hvisible a ha]
  -- no annotation of the other list has the other visibility
  have hother : ∀ b ∈ bs, b.visible = visible := by
    intro b hb
    by_contra hne
    have hmem : b ∈ ofVisibility (!visible) bs :=
      List.mem_filter.2 ⟨hb, decide_eq_true (Bool.eq_not.2 hne)⟩
    rw [← h, hnone] at hmem
    cases hmem
  calc as = ofVisibility visible as := hself.symm
    _ = ofVisibility visible bs := h visible
    _ = bs := List.filter_eq_self.2 fun b hb => decide_eq_true (hother b hb)

theorem Attribute.SameButOrder.eq {as bs : List Attribute} (h : SameButOrder as bs)
    (hunmixed : AreUnmixed as) : as = bs := by
  obtain ⟨n, hn, hnamed⟩ := hunmixed
  calc as = as.filter (fun a => a.name = n) :=
        (List.filter_eq_self.2 fun a ha => decide_eq_true (hnamed a ha)).symm
    _ = bs.filter fun b => b.name = n := h.named n hn
    _ = bs := List.filter_eq_self.2 fun b hb => decide_eq_true (hnamed b (h.perm.mem_iff.2 hb))

theorem Item.AreUnmixed.of_append (before : List Item) {body : List Item}
    (h : AreUnmixed (before ++ body)) : AreUnmixed body := by
  rintro front n n' after rfl
  exact h (before ++ front) n n' after (List.append_assoc _ _ _).symm

theorem SameLines.eq {body body' : List Item} (h : SameLines body body')
    (hunmixed : Item.AreUnmixed body) : body = body' := by
  induction h with
  | nil => rfl
  | cons i _ ih => rw [ih (Item.AreUnmixed.of_append [i] hunmixed)]
  | @lines ns ns' hlines body _ _ ih =>
    rw [ih (hunmixed.of_append (ns.map .line))]
    -- there is at most one line in the row
    match ns, hlines, hunmixed with
    | [], hlines, _ => rw [List.nil_perm.1 hlines]
    | [n], hlines, _ => rw [List.singleton_perm.1 hlines]
    | n :: n' :: rest, _, hunmixed => exact absurd rfl (hunmixed [] n n' (rest.map .line ++ body))

theorem Method.SameButOrder.bare_eq {m n : Method} (h : m.SameButOrder n) (hunmixed : m.IsUnmixed) :
    m.bare = n.bare := by
  have hparameters : m.parameters = n.parameters := by
    rw [← List.forall₂_eq_eq_eq]
    have hboth := (List.forall₂_and_left _ _).2 ⟨hunmixed.parameters, h.parameters⟩
    refine hboth.imp fun p q ⟨hp, hsame⟩ => ?_
    have hannotations := hsame.annotations.eq hp
    rw [← hsame.rest, hannotations]
  have hannotations := h.annotations.eq hunmixed.annotations
  have hattributes := h.attributes.eq hunmixed.attributes
  have hbody := h.code.body.eq hunmixed.body
  have hcode := h.code.attributes.eq hunmixed.codeAttributes
  rw [← h.rest, hparameters, hannotations, hattributes, hbody, hcode]
  rfl

/-- What is the same but for the order is the same if no list is mixed. -/
theorem Class.SameButOrder.bare_eq {c d : Class} (h : c.SameButOrder d) (hunmixed : c.IsUnmixed) :
    c.bare = d.bare := by
  have hfields : c.fields.map Field.bare = d.fields.map Field.bare := by
    rw [← List.forall₂_eq_eq_eq, List.forall₂_map_left_iff, List.forall₂_map_right_iff]
    have hboth := (List.forall₂_and_left _ _).2 ⟨hunmixed.fields, h.fields⟩
    refine hboth.imp fun f g ⟨hf, hsame⟩ => ?_
    have hannotations := hsame.annotations.eq hf.1
    have hattributes := hsame.attributes.eq hf.2
    rw [← hsame.rest, hannotations, hattributes]
    rfl
  have hmethods : c.methods.map Method.bare = d.methods.map Method.bare := by
    rw [← List.forall₂_eq_eq_eq, List.forall₂_map_left_iff, List.forall₂_map_right_iff]
    have hboth := (List.forall₂_and_left _ _).2 ⟨hunmixed.methods, h.methods⟩
    exact hboth.imp fun m n ⟨hm, hsame⟩ => hsame.bare_eq hm
  have hannotations := h.annotations.eq hunmixed.annotations
  have hattributes := h.attributes.eq hunmixed.attributes
  have hrest := congrArg Class.bare h.rest
  rw [← hrest]
  unfold Class.bare
  simp only [hfields, hmethods, hannotations, hattributes]

/-! ## Equality by value -/

theorem sameList_map_right {α : Type} {same : α → α → Bool} {f : α → α}
    (h : ∀ a b, same a (f b) = same a b) (as bs : List α) :
    sameList same as (bs.map f) = sameList same as bs := by
  unfold sameList
  rw [List.length_map, List.zip_map_right, List.all_map]
  simp only [Function.comp_def, Prod.map, h, id]

theorem Field.same_bare_right (f g : Field) : f.same g.bare = f.same g := rfl

theorem Method.same_bare_right (m n : Method) : m.same n.bare = m.same n := rfl

theorem Class.same_bare_right (c d : Class) : c.same d.bare = c.same d := by
  unfold Class.same Class.bare
  simp only [sameList_map_right Field.same_bare_right, sameList_map_right Method.same_bare_right]

/-- Classes that are the same without their layouts are equal by value, unless one differs from
itself. -/
theorem Class.same_of_bare_eq {c d : Class} (h : c.bare = d.bare) : c.same d = c.same c := by
  rw [← Class.same_bare_right c d, ← h, Class.same_bare_right]

/-! ## The theorem -/

/-- Layouts do not change what a class is read back as, but for the order of what stems from
attributes of different names. A class that is written in two layouts, both times onto a small pool,
is read back as the same class twice: nothing gets lost, nothing comes twice, and annotations of one
visibility, attributes of one name and lines of different offsets keep their order. If no list is
mixed in this way, the classes that are read are equal. -/
theorem Class.sameButOrder_of_bare_eq {c c' : Class} (hbare : c.bare = c'.bare)
    (hseed : Pool.IsSeed c.layout.pool) (hseed' : Pool.IsSeed c'.layout.pool) (hclear : c.IsClear)
    {verify : Bool} {bytes bytes' : Bytes} (h : c.toBytes verify = .ok bytes)
    (h' : c'.toBytes verify = .ok bytes') {r r' : Class} (hr : Class.ofBytes bytes = .ok r)
    (hr' : Class.ofBytes bytes' = .ok r') (hsmall : r.layout.pool.length ≤ maxByte + 1)
    (hsmall' : r'.layout.pool.length ≤ maxByte + 1) :
    r.SameButOrder r' ∧ (r.IsUnmixed → r.bare = r'.bare ∧ r.same r' = r.same r) := by
  obtain ⟨w⟩ := written_of_toBytes h
  obtain ⟨w'⟩ := written_of_toBytes h'
  have hsame := w.sameButOrder w' hseed hseed' hclear hbare hr hr' hsmall hsmall'
  refine ⟨hsame, fun hunmixed => ?_⟩
  have heq := hsame.bare_eq hunmixed
  exact ⟨heq, Class.same_of_bare_eq heq⟩

/-! ## A signature and a source file -/

/-- A class with a signature and a source file. The hint may turn the two around. -/
def toldClass (turned : Bool) : Class where
  name := "A"
  super := none
  signature := some "S"
  sourceFile := some "F"
  layout := { attributeOrder := if turned then [AttributeName.signature] else [] }

/-- The names of its attributes, from the first one or from the last. -/
def toldName (turned : Bool) : Text :=
  if turned then AttributeName.signature else AttributeName.sourceFile

/-- What its attributes tell. -/
def toldText (turned : Bool) : Text := if turned then "S" else "F"

/-- The class file that is written for it. -/
def toldFile (turned : Bool) : Bytes :=
  [202, 254, 186, 190, 0, 0, 0, 52, 0, 7, 1, 0, 1, 65, 7, 0, 1]
  ++ (if turned then
    [1, 0, 9, 83, 105, 103, 110, 97, 116, 117, 114, 101, 1, 0, 1, 83, 1, 0, 10, 83, 111, 117, 114, 99,
      101, 70, 105, 108, 101, 1, 0, 1, 70]
  else
    [1, 0, 10, 83, 111, 117, 114, 99, 101, 70, 105, 108, 101, 1, 0, 1, 70, 1, 0, 9, 83, 105, 103, 110, 97,
      116, 117, 114, 101, 1, 0, 1, 83])
  ++ [0, 33, 0, 2, 0, 0, 0, 0, 0, 0, 0, 0, 0, 2, 0, 3, 0, 0, 0, 2, 0, 4, 0, 5, 0, 0, 0, 2, 0, 6]

/-- Its pool. -/
def toldTable (turned : Bool) : Table where
  entries := #[none, some (.utf8 "A"), some (.type 1), some (.utf8 (toldName turned)),
    some (.utf8 (toldText turned)), some (.utf8 (toldName !turned)), some (.utf8 (toldText !turned))]
  bootstrap := #[]

/-- A class with the head of this one. -/
def toldHead (turned : Bool) : Class where
  name := "A"
  super := none
  layout := { pool := (toldTable turned).entries.toList }

/-- The class that is read. -/
def readTold (turned : Bool) : Class := { toldHead turned with
  signature := some "S"
  sourceFile := some "F"
  layout := {
    pool := (toldTable turned).entries.toList
    attributeOrder := [toldName turned, toldName !turned] } }

/-- A place in the class file. -/
def toldAt (turned : Bool) (position : Nat) : Cursor := ⟨position, (toldFile turned).drop position⟩

theorem toBytes_toldClass (turned : Bool) : (toldClass turned).toBytes false = .ok (toldFile turned) := by
  have hrun : ∃ P, (classFile false (toldClass turned)).run (Pool.seeded [] []) =
      .ok (toldFile turned, P) := by cases turned <;> exact ⟨_, by cbv⟩
  obtain ⟨P, hrun⟩ := hrun
  exact toBytes_eq_ok hrun

/-- The two attributes stand one behind the other. -/
theorem isAttributeAt_toldFile (turned : Bool) :
    IsAttributeAt (toldTable turned) (toldFile turned) 64 2 (toldName turned) ∧
      IsAttributeAt (toldTable turned) (toldFile turned) 72 2 (toldName !turned) := by
  have hlength : (toldFile turned).length = 80 := by cases turned <;> cbv
  constructor
  · exact ⟨⟨3, by cases turned <;> cbv, rfl⟩, by cases turned <;> cbv, by simp [hlength]⟩
  · exact ⟨⟨5, by cases turned <;> cbv, rfl⟩, by cases turned <;> cbv, by simp [hlength]⟩

theorem readTable_toldFile (turned : Bool) :
    readTable (toldAt turned 8) = .ok (toldTable turned, toldAt turned 50) := by
  have hname : ∀ turned, toldName turned ≠ AttributeName.bootstrapMethods := by decide
  obtain ⟨hfirst, hsecond⟩ := isAttributeAt_toldFile turned
  have hscan : scanBootstrap (toldTable turned) (toldAt turned 50) = .ok ([], toldAt turned 80) := by
    refine Decoder.bind_eq_ok_iff.2 ⟨(), toldAt turned 56, by cases turned <;> cbv, ?_⟩
    refine Decoder.bind_eq_ok_iff.2 ⟨0, toldAt turned 58, by cases turned <;> cbv, ?_⟩
    refine Decoder.bind_eq_ok_iff.2 ⟨(), toldAt turned 58, by cases turned <;> cbv, ?_⟩
    refine Decoder.bind_eq_ok_iff.2 ⟨(), toldAt turned 60, by cases turned <;> cbv, ?_⟩
    refine Decoder.bind_eq_ok_iff.2 ⟨(), toldAt turned 62, by cases turned <;> cbv, ?_⟩
    refine Decoder.bind_eq_ok_iff.2 ⟨[[], []], toldAt turned 80, ?_, rfl⟩
    refine Decoder.bind_eq_ok_iff.2 ⟨2, toldAt turned 64, by cases turned <;> cbv, ?_⟩
    refine Decoder.bind_eq_ok_iff.2 ⟨_, _, hfirst.scan_eq_ok (hname _) _, ?_⟩
    exact Decoder.bind_eq_ok_iff.2 ⟨_, _, hsecond.scan_eq_ok (hname _) _, rfl⟩
  exact readTable_eq_ok (by cases turned <;> cbv) hscan

/-- What has been read of the class behind its first attribute. -/
def toldOnce (turned : Bool) : Class := { toldHead turned with
  signature := if turned then some "S" else none
  sourceFile := if turned then none else some "F"
  layout := { (toldHead turned).layout with attributeOrder := [toldName turned] } }

/-- The attributes of the class are read. -/
theorem attributes_toldFile (turned : Bool) : attributes (toldTable turned)
    (readClassAttribute (toldTable turned)) (toldHead turned) (toldAt turned 62) =
      .ok (readTold turned, toldAt turned 80) := by
  obtain ⟨hfirst, hsecond⟩ := isAttributeAt_toldFile turned
  refine Decoder.bind_eq_ok_iff.2 ⟨2, toldAt turned 64, by cases turned <;> cbv, ?_⟩
  refine Decoder.bind_eq_ok_iff.2 ⟨toldOnce turned, toldAt turned 72, hfirst.attribute_eq_ok ?_, ?_⟩
  · cases turned with
    | false =>
      refine (congrFun (readClassAttribute_of_lookup _ AttributeName.sourceFile _ rfl) _).trans ?_
      exact Decoder.bind_eq_ok_iff.2 ⟨4, toldAt false 72, by cbv, rfl⟩
    | true =>
      refine (congrFun (readClassAttribute_of_lookup _ AttributeName.signature _ rfl) _).trans ?_
      exact Decoder.bind_eq_ok_iff.2 ⟨4, toldAt true 72, by cbv, rfl⟩
  · refine Decoder.bind_eq_ok_iff.2 ⟨readTold turned, toldAt turned 80, hsecond.attribute_eq_ok ?_, rfl⟩
    cases turned with
    | false =>
      refine (congrFun (readClassAttribute_of_lookup _ AttributeName.signature _ rfl) _).trans ?_
      exact Decoder.bind_eq_ok_iff.2 ⟨6, toldAt false 80, by cbv, rfl⟩
    | true =>
      refine (congrFun (readClassAttribute_of_lookup _ AttributeName.sourceFile _ rfl) _).trans ?_
      exact Decoder.bind_eq_ok_iff.2 ⟨6, toldAt true 80, by cbv, rfl⟩

theorem ofBytes_toldFile (turned : Bool) : Class.ofBytes (toldFile turned) = .ok (readTold turned) := by
  have hread : readClassFile (toldAt turned 0) = .ok (readTold turned, toldAt turned 80) := by
    unfold readClassFile
    refine Decoder.bind_eq_ok_iff.2 ⟨(52, 0), toldAt turned 8, by cases turned <;> cbv, ?_⟩
    refine Decoder.bind_eq_ok_iff.2 ⟨_, _, readTable_toldFile turned, ?_⟩
    refine Decoder.bind_eq_ok_iff.2 ⟨0x21, toldAt turned 52, by cases turned <;> cbv, ?_⟩
    refine Decoder.bind_eq_ok_iff.2 ⟨"A", toldAt turned 54, by cases turned <;> cbv, ?_⟩
    refine Decoder.bind_eq_ok_iff.2 ⟨0, toldAt turned 56, by cases turned <;> cbv, ?_⟩
    refine Decoder.bind_eq_ok_iff.2 ⟨none, toldAt turned 56, by cases turned <;> cbv, ?_⟩
    refine Decoder.bind_eq_ok_iff.2 ⟨[], toldAt turned 58, by cases turned <;> cbv, ?_⟩
    refine Decoder.bind_eq_ok_iff.2 ⟨[], toldAt turned 60, by cases turned <;> cbv, ?_⟩
    refine Decoder.bind_eq_ok_iff.2 ⟨[], toldAt turned 62, by cases turned <;> cbv, ?_⟩
    exact Decoder.bind_eq_ok_iff.2 ⟨_, _, attributes_toldFile turned, by cases turned <;> rfl⟩
  unfold Class.ofBytes StateT.run
  rw [show (⟨0, toldFile turned⟩ : Cursor) = toldAt turned 0 from rfl, hread]

/-- The class is read back as the same class, whichever of the two attributes is the first one. -/
theorem Class.sameButOrder_readTold : (toldClass false).bare = (toldClass true).bare ∧
    (toldClass false).IsClear ∧ (∀ turned, Pool.IsSeed (toldClass turned).layout.pool) ∧
    (∀ turned, (toldClass turned).toBytes false = .ok (toldFile turned)) ∧
    (∀ turned, Class.ofBytes (toldFile turned) = .ok (readTold turned)) ∧
    (∀ turned, (readTold turned).layout.pool.length ≤ maxByte + 1) ∧
    (readTold false).SameButOrder (readTold true) ∧ (readTold false).IsUnmixed ∧
    (readTold false).bare = (readTold true).bare ∧ (readTold false).same (readTold true) = true := by
  have hbare : (toldClass false).bare = (toldClass true).bare := rfl
  have hclear : (toldClass false).IsClear := ⟨nofun, nofun, nofun, fun _ h => (List.not_mem_nil h).elim⟩
  have hseed (turned : Bool) : Pool.IsSeed (toldClass turned).layout.pool := .inl rfl
  have hsmall (turned : Bool) : (readTold turned).layout.pool.length ≤ maxByte + 1 := by
    simp [readTold, toldTable, maxByte]
  have hunmixed : (readTold false).IsUnmixed :=
    ⟨nofun, fun _ h => (List.not_mem_nil h).elim, ⟨true, nofun⟩, _, isPlain_signature, nofun⟩
  obtain ⟨hsame, hequal⟩ := Class.sameButOrder_of_bare_eq hbare (hseed false) (hseed true) hclear
    (toBytes_toldClass false) (toBytes_toldClass true) (ofBytes_toldFile false) (ofBytes_toldFile true)
    (hsmall false) (hsmall true)
  obtain ⟨hread, hvalue⟩ := hequal hunmixed
  exact ⟨hbare, hclear, hseed, toBytes_toldClass, ofBytes_toldFile, hsmall, hsame, hunmixed, hread,
    hvalue.trans (by decide)⟩

/-! ## Lists that several attributes are read into -/

/-- A method with two markers of lines at one offset, each in a table of its own. -/
def mixedMethod (turned : Bool) : Method where
  access := 0x9
  name := "f"
  descriptor := "()V"
  maxima := some ⟨0, 0⟩
  body := [.line 1, .line 2, .instruction (.plain .return_)]
  layout := { lineTables := if turned then [[1], [0]] else [[0], [1]] }

/-- A class with annotations of both visibilities and with attributes that are kept as bytes, one of
them under the name of signatures. The hints may turn all of them around. -/
def mixedClass (turned : Bool) : Class where
  name := "A"
  super := none
  methods := [mixedMethod turned]
  annotations := [⟨"LX;", true, []⟩, ⟨"LX;", false, []⟩]
  attributes := [⟨AttributeName.signature, [0, 11]⟩, ⟨"U", []⟩, ⟨"V", []⟩]
  layout := { attributeOrder := if turned then [AttributeName.annotations false,
    AttributeName.annotations true, AttributeName.signature, "V"] else [] }

/-- The class file that is written for it. -/
def mixedFile (turned : Bool) : Bytes :=
  [202, 254, 186, 190, 0, 0, 0, 52, 0, 13, 1, 0, 1, 65, 7, 0, 1, 1, 0, 1, 102, 1, 0, 3, 40, 41, 86, 1, 0,
    4, 67, 111, 100, 101, 1, 0, 15, 76, 105, 110, 101, 78, 117, 109, 98, 101, 114, 84, 97, 98, 108, 101]
  ++ (if turned then
    [1, 0, 27, 82, 117, 110, 116, 105, 109, 101, 73, 110, 118, 105, 115, 105, 98, 108, 101, 65, 110, 110,
      111, 116, 97, 116, 105, 111, 110, 115, 1, 0, 3, 76, 88, 59, 1, 0, 25, 82, 117, 110, 116, 105, 109,
      101, 86, 105, 115, 105, 98, 108, 101, 65, 110, 110, 111, 116, 97, 116, 105, 111, 110, 115]
  else
    [1, 0, 25, 82, 117, 110, 116, 105, 109, 101, 86, 105, 115, 105, 98, 108, 101, 65, 110, 110, 111, 116,
      97, 116, 105, 111, 110, 115, 1, 0, 3, 76, 88, 59, 1, 0, 27, 82, 117, 110, 116, 105, 109, 101, 73,
      110, 118, 105, 115, 105, 98, 108, 101, 65, 110, 110, 111, 116, 97, 116, 105, 111, 110, 115])
  ++ [1, 0, 9, 83, 105, 103, 110, 97, 116, 117, 114, 101, 1, 0, 1, if turned then 86 else 85, 1, 0, 1,
    if turned then 85 else 86, 0, 33, 0, 2, 0, 0, 0, 0, 0, 0, 0, 1, 0, 9, 0, 3, 0, 4, 0, 1, 0, 5, 0, 0, 0,
    37, 0, 0, 0, 0, 0, 0, 0, 1, 177, 0, 0, 0, 2, 0, 6, 0, 0, 0, 6, 0, 1, 0, 0, 0,
    if turned then 2 else 1, 0, 6, 0, 0, 0, 6, 0, 1, 0, 0, 0, if turned then 1 else 2, 0, 5, 0, 7,
    0, 0, 0, 6, 0, 1, 0, 8, 0, 0, 0, 9, 0, 0, 0, 6, 0, 1, 0, 8, 0, 0, 0, 10, 0, 0, 0, 2, 0, 11, 0, 11,
    0, 0, 0, 0, 0, 12, 0, 0, 0, 0]

/-- The names of the attributes that are kept. -/
def mixedName (turned : Bool) : Text := if turned then "V" else "U"

/-- Its pool. -/
def mixedTable (turned : Bool) : Table where
  entries := #[none, some (.utf8 "A"), some (.type 1), some (.utf8 "f"), some (.utf8 "()V"),
    some (.utf8 AttributeName.code), some (.utf8 AttributeName.lineNumbers),
    some (.utf8 (AttributeName.annotations !turned)), some (.utf8 "LX;"),
    some (.utf8 (AttributeName.annotations turned)), some (.utf8 AttributeName.signature),
    some (.utf8 (mixedName turned)), some (.utf8 (mixedName !turned))]
  bootstrap := #[]

/-- A place in the class file. -/
def mixedAt (turned : Bool) (position : Nat) : Cursor := ⟨position, (mixedFile turned).drop position⟩

theorem toBytes_mixedClass (turned : Bool) :
    (mixedClass turned).toBytes false = .ok (mixedFile turned) := by
  have hrun : ∃ P, (classFile false (mixedClass turned)).run (Pool.seeded [] []) =
      .ok (mixedFile turned, P) := by cases turned <;> exact ⟨_, by cbv⟩
  obtain ⟨P, hrun⟩ := hrun
  exact toBytes_eq_ok hrun

/-- The code of its method. -/
def mixedCode (turned : Bool) : RawCode where
  maxima := ⟨0, 0⟩
  start := 170
  length := 1
  handlers := []
  instructions := [(0, .plain .return_)]
  tables := {
    lines := if turned then [[⟨0, 2⟩], [⟨0, 1⟩]] else [[⟨0, 1⟩], [⟨0, 2⟩]]
    order := [AttributeName.lineNumbers, AttributeName.lineNumbers] }

/-- The method that is read. -/
def turnedMethod (turned : Bool) : Method where
  access := 0x9
  name := "f"
  descriptor := "()V"
  maxima := some ⟨0, 0⟩
  body := [.line (if turned then 2 else 1), .line (if turned then 1 else 2),
    .instruction (.plain .return_)]
  layout := {
    attributeOrder := [AttributeName.code]
    codeOrder := [AttributeName.lineNumbers, AttributeName.lineNumbers]
    lineTables := [[0], [1]] }

/-- The class with the head of this one. -/
def mixedHead (turned : Bool) : Class where
  name := "A"
  super := none
  methods := [turnedMethod turned]
  layout := { pool := (mixedTable turned).entries.toList }

/-- The class that is read. -/
def turnedClass (turned : Bool) : Class := { mixedHead turned with
  signature := some (mixedName turned)
  annotations := [⟨"LX;", !turned, []⟩, ⟨"LX;", turned, []⟩]
  attributes := [⟨mixedName turned, []⟩, ⟨mixedName !turned, []⟩]
  layout := {
    pool := (mixedTable turned).entries.toList
    attributeOrder := [AttributeName.annotations !turned, AttributeName.annotations turned,
      AttributeName.signature, mixedName turned, mixedName !turned] } }

theorem length_mixedFile (turned : Bool) : (mixedFile turned).length = 245 := by cases turned <;> rfl

/-- The attributes stand one behind the other: first the code of the method, then those of the
class. -/
theorem isAttributeAt_mixedFile (turned : Bool) :
    IsAttributeAt (mixedTable turned) (mixedFile turned) 156 37 AttributeName.code ∧
      IsAttributeAt (mixedTable turned) (mixedFile turned) 201 6 (AttributeName.annotations !turned) ∧
      IsAttributeAt (mixedTable turned) (mixedFile turned) 213 6 (AttributeName.annotations turned) ∧
      IsAttributeAt (mixedTable turned) (mixedFile turned) 225 2 AttributeName.signature ∧
      IsAttributeAt (mixedTable turned) (mixedFile turned) 233 0 (mixedName turned) ∧
      IsAttributeAt (mixedTable turned) (mixedFile turned) 239 0 (mixedName !turned) := by
  refine ⟨?_, ?_, ?_, ?_, ?_, ?_⟩
  · exact ⟨⟨5, by cases turned <;> cbv, rfl⟩, by cases turned <;> cbv, by simp [length_mixedFile]⟩
  · exact ⟨⟨7, by cases turned <;> cbv, rfl⟩, by cases turned <;> cbv, by simp [length_mixedFile]⟩
  · exact ⟨⟨9, by cases turned <;> cbv, rfl⟩, by cases turned <;> cbv, by simp [length_mixedFile]⟩
  · exact ⟨⟨10, by cases turned <;> cbv, rfl⟩, by cases turned <;> cbv, by simp [length_mixedFile]⟩
  · exact ⟨⟨11, by cases turned <;> cbv, rfl⟩, by cases turned <;> cbv, by simp [length_mixedFile]⟩
  · exact ⟨⟨12, by cases turned <;> cbv, rfl⟩, by cases turned <;> cbv, by simp [length_mixedFile]⟩

theorem mixedName_notMem : ∀ turned, mixedName turned ∉ AttributeName.ofClass := by decide

theorem readTable_mixedFile (turned : Bool) :
    readTable (mixedAt turned 8) = .ok (mixedTable turned, mixedAt turned 136) := by
  have hraw : ∀ turned, mixedName turned ≠ AttributeName.bootstrapMethods := by decide
  have hvisible : ∀ visible, AttributeName.annotations visible ≠ AttributeName.bootstrapMethods := by
    decide
  obtain ⟨-, hfirst, hsecond, hsignature, hthird, hfourth⟩ := isAttributeAt_mixedFile turned
  have hscan : scanBootstrap (mixedTable turned) (mixedAt turned 136) = .ok ([], mixedAt turned 245) := by
    refine Decoder.bind_eq_ok_iff.2 ⟨(), mixedAt turned 142, by cases turned <;> cbv, ?_⟩
    refine Decoder.bind_eq_ok_iff.2 ⟨0, mixedAt turned 144, by cases turned <;> cbv, ?_⟩
    refine Decoder.bind_eq_ok_iff.2 ⟨(), mixedAt turned 144, by cases turned <;> cbv, ?_⟩
    refine Decoder.bind_eq_ok_iff.2 ⟨(), mixedAt turned 146, by cases turned <;> cbv, ?_⟩
    refine Decoder.bind_eq_ok_iff.2 ⟨(), mixedAt turned 199, by cases turned <;> cbv, ?_⟩
    refine Decoder.bind_eq_ok_iff.2 ⟨[[], [], [], [], []], mixedAt turned 245, ?_, rfl⟩
    refine Decoder.bind_eq_ok_iff.2 ⟨5, mixedAt turned 201, by cases turned <;> cbv, ?_⟩
    refine Decoder.bind_eq_ok_iff.2 ⟨_, _, hfirst.scan_eq_ok (hvisible _) _, ?_⟩
    refine Decoder.bind_eq_ok_iff.2 ⟨_, _, hsecond.scan_eq_ok (hvisible _) _, ?_⟩
    refine Decoder.bind_eq_ok_iff.2 ⟨_, _, hsignature.scan_eq_ok (by decide) _, ?_⟩
    refine Decoder.bind_eq_ok_iff.2 ⟨_, _, hthird.scan_eq_ok (hraw _) _, ?_⟩
    exact Decoder.bind_eq_ok_iff.2 ⟨_, _, hfourth.scan_eq_ok (hraw _) _, rfl⟩
  exact readTable_eq_ok (by cases turned <;> cbv) hscan

theorem readRawCode_mixedFile (turned : Bool) :
    readRawCode (mixedTable turned) (mixedAt turned 162) =
      .ok (mixedCode turned, mixedAt turned 199) := by
  have hattributes : attributes (mixedTable turned) (readCodeAttribute (mixedTable turned)) {}
      (mixedAt turned 173) =
        .ok ((mixedCode turned).tables, mixedAt turned 199) := by cases turned <;> cbv
  have hinstructions : readOperations (mixedTable turned) 1 (mixedAt turned 170) =
      .ok ((mixedCode turned).instructions, mixedAt turned 171) := by
    cases turned <;> rfl
  refine Decoder.bind_eq_ok_iff.2 ⟨0, mixedAt turned 164, by cases turned <;> cbv, ?_⟩
  refine Decoder.bind_eq_ok_iff.2 ⟨0, mixedAt turned 166, by cases turned <;> cbv, ?_⟩
  refine Decoder.bind_eq_ok_iff.2 ⟨1, mixedAt turned 170, by cases turned <;> cbv, ?_⟩
  refine Decoder.bind_eq_ok_iff.2 ⟨_, mixedAt turned 170, rfl, ?_⟩
  refine Decoder.bind_eq_ok_iff.2 ⟨(), mixedAt turned 170, by cases turned <;> cbv, ?_⟩
  refine Decoder.bind_eq_ok_iff.2 ⟨(), mixedAt turned 171, by cases turned <;> cbv, ?_⟩
  refine Decoder.bind_eq_ok_iff.2 ⟨[], mixedAt turned 173, by cases turned <;> cbv, ?_⟩
  refine Decoder.bind_eq_ok_iff.2 ⟨_, _, hattributes, ?_⟩
  refine Decoder.bind_eq_ok_iff.2
    ⟨(mixedCode turned).instructions, mixedAt turned 199, ?_, rfl⟩
  refine Decoder.bind_eq_ok_iff.2 ⟨_, _, rfl, Decoder.bind_eq_ok_iff.2 ⟨_, _, rfl, ?_⟩⟩
  exact Decoder.bind_eq_ok_iff.2 ⟨_, _, hinstructions, rfl⟩

theorem readMethod_mixedFile (turned : Bool) : readMethod (mixedTable turned) (mixedAt turned 148) =
    .ok (turnedMethod turned, mixedAt turned 199) := by
  have harguments : Descriptor.arguments "()V" = .ok [] := by cbv
  have hcode : readCode (mixedTable turned) { place := "f" ++ "()V" } (mixedAt turned 162) =
      .ok (⟨⟨0, 0⟩, (turnedMethod turned).body, [], [], [],
        (turnedMethod turned).layout.codeOrder, [[0], [1]]⟩, mixedAt turned 199) :=
    Decoder.bind_eq_ok_iff.2 ⟨mixedCode turned, _, readRawCode_mixedFile turned,
      by cases turned <;> cbv⟩
  refine Decoder.bind_eq_ok_iff.2 ⟨9, mixedAt turned 150, by cases turned <;> cbv, ?_⟩
  refine Decoder.bind_eq_ok_iff.2 ⟨3, mixedAt turned 152, by cases turned <;> cbv, ?_⟩
  refine Decoder.bind_eq_ok_iff.2 ⟨"f", mixedAt turned 152, by cases turned <;> cbv, ?_⟩
  refine Decoder.bind_eq_ok_iff.2 ⟨4, mixedAt turned 154, by cases turned <;> cbv, ?_⟩
  refine Decoder.bind_eq_ok_iff.2 ⟨"()V", mixedAt turned 154, by cases turned <;> cbv, ?_⟩
  rw [harguments]
  refine Decoder.bind_eq_ok_iff.2 ⟨1, mixedAt turned 156, by cases turned <;> cbv, ?_⟩
  refine Decoder.bind_eq_ok_iff.2 ⟨turnedMethod turned, mixedAt turned 199, ?_, rfl⟩
  refine (isAttributeAt_mixedFile turned).1.attribute_eq_ok ?_
  unfold readMethodAttribute
  rw [if_pos rfl]
  exact Decoder.bind_eq_ok_iff.2 ⟨_, _, hcode, rfl⟩

/-- The attributes of the class are read. -/
theorem attributes_mixedFile (turned : Bool) : attributes (mixedTable turned)
    (readClassAttribute (mixedTable turned)) (mixedHead turned) (mixedAt turned 199) =
      .ok (turnedClass turned, mixedAt turned 245) := by
  have hannotations (visible : Bool) {length : Nat} {s : Class} {k k' : Cursor} {as : List AnnotationUse}
      (h : readAnnotationUses (mixedTable turned) visible k = .ok (as, k')) :
      readClassAttribute (mixedTable turned) (AttributeName.annotations visible) length s k =
        .ok ({ s.noting (AttributeName.annotations visible) with
          annotations := s.annotations ++ as }, k') := by
    rw [readClassAttribute_of_lookup _ _ _ (lookup_annotations_classReaders _ _ _)]
    exact Decoder.bind_eq_ok_iff.2 ⟨_, _, h, rfl⟩
  have hraw (which : Bool) {s : Class} {k : Cursor} :
      readClassAttribute (mixedTable turned) (mixedName which) 0 s k =
        .ok ({ s.noting (mixedName which) with
          attributes := s.attributes ++ [⟨mixedName which, []⟩] }, k) := by
    rw [readClassAttribute_of_notMem 0 s (mixedName_notMem which)]
    cases k
    rfl
  obtain ⟨-, hfirst, hsecond, hsignature, hthird, hfourth⟩ := isAttributeAt_mixedFile turned
  have hone : readAnnotationUses (mixedTable turned) (!turned) (mixedAt turned 207) =
      .ok ([⟨"LX;", !turned, []⟩], mixedAt turned 213) := by cases turned <;> cbv
  have htwo : readAnnotationUses (mixedTable turned) turned (mixedAt turned 219) =
      .ok ([⟨"LX;", turned, []⟩], mixedAt turned 225) := by cases turned <;> cbv
  -- the index that the signature is kept with means another name
  have hthree {s : Class} : readClassAttribute (mixedTable turned) AttributeName.signature 2 s
      (mixedAt turned 231) = .ok ({ s.noting AttributeName.signature with
        signature := some (mixedName turned) }, mixedAt turned 233) := by
    rw [readClassAttribute_of_lookup _ AttributeName.signature _ rfl]
    exact Decoder.bind_eq_ok_iff.2
      ⟨11, mixedAt turned 233, by cases turned <;> cbv, by cases turned <;> rfl⟩
  refine Decoder.bind_eq_ok_iff.2 ⟨5, mixedAt turned 201, by cases turned <;> cbv, ?_⟩
  refine Decoder.bind_eq_ok_iff.2 ⟨_, _, hfirst.attribute_eq_ok (hannotations _ hone), ?_⟩
  refine Decoder.bind_eq_ok_iff.2 ⟨_, _, hsecond.attribute_eq_ok (hannotations _ htwo), ?_⟩
  refine Decoder.bind_eq_ok_iff.2 ⟨_, _, hsignature.attribute_eq_ok hthree, ?_⟩
  refine Decoder.bind_eq_ok_iff.2 ⟨_, _, hthird.attribute_eq_ok (hraw _), ?_⟩
  exact Decoder.bind_eq_ok_iff.2 ⟨_, _, hfourth.attribute_eq_ok (hraw _), rfl⟩

theorem ofBytes_mixedFile (turned : Bool) :
    Class.ofBytes (mixedFile turned) = .ok (turnedClass turned) := by
  have hread : readClassFile (mixedAt turned 0) = .ok (turnedClass turned, mixedAt turned 245) := by
    unfold readClassFile
    refine Decoder.bind_eq_ok_iff.2 ⟨(52, 0), mixedAt turned 8, by cases turned <;> cbv, ?_⟩
    refine Decoder.bind_eq_ok_iff.2 ⟨_, _, readTable_mixedFile turned, ?_⟩
    refine Decoder.bind_eq_ok_iff.2 ⟨0x21, mixedAt turned 138, by cases turned <;> cbv, ?_⟩
    refine Decoder.bind_eq_ok_iff.2 ⟨"A", mixedAt turned 140, by cases turned <;> cbv, ?_⟩
    refine Decoder.bind_eq_ok_iff.2 ⟨0, mixedAt turned 142, by cases turned <;> cbv, ?_⟩
    refine Decoder.bind_eq_ok_iff.2 ⟨none, mixedAt turned 142, by cases turned <;> cbv, ?_⟩
    refine Decoder.bind_eq_ok_iff.2 ⟨[], mixedAt turned 144, by cases turned <;> cbv, ?_⟩
    refine Decoder.bind_eq_ok_iff.2 ⟨[], mixedAt turned 146, by cases turned <;> cbv, ?_⟩
    refine Decoder.bind_eq_ok_iff.2 ⟨[turnedMethod turned], mixedAt turned 199, ?_, ?_⟩
    · refine Decoder.bind_eq_ok_iff.2 ⟨1, mixedAt turned 148, by cases turned <;> cbv, ?_⟩
      exact Decoder.bind_eq_ok_iff.2 ⟨turnedMethod turned, _, readMethod_mixedFile turned, rfl⟩
    · exact Decoder.bind_eq_ok_iff.2 ⟨_, _, attributes_mixedFile turned, by cases turned <;> rfl⟩
  unfold Class.ofBytes StateT.run
  rw [show (⟨0, mixedFile turned⟩ : Cursor) = mixedAt turned 0 from rfl, hread]

/-- Hints turn annotations, attributes and lines around, and change what a signature is that is kept
as bytes. -/
theorem Class.not_same_turnedClass : (mixedClass false).bare = (mixedClass true).bare ∧
    (mixedClass false).same (mixedClass true) = true ∧
    (∀ turned, (mixedClass turned).layout.pool = [] ∧ (mixedClass turned).layout.bootstrap = []) ∧
    (∀ turned, (mixedClass turned).toBytes false = .ok (mixedFile turned)) ∧
    (∀ turned, Class.ofBytes (mixedFile turned) = .ok (turnedClass turned)) ∧
    (∀ turned, (turnedClass turned).layout.pool.length < maxByte + 1) ∧
    (turnedClass false).same (turnedClass true) = false ∧
    (turnedClass false).annotations.map AnnotationUse.visible = [true, false] ∧
    (turnedClass true).annotations.map AnnotationUse.visible = [false, true] ∧
    (turnedClass false).attributes = [⟨"U", []⟩, ⟨"V", []⟩] ∧
    (turnedClass true).attributes = [⟨"V", []⟩, ⟨"U", []⟩] ∧
    (turnedClass false).methods.map Method.body =
      [[.line 1, .line 2, .instruction (.plain .return_)]] ∧
    (turnedClass true).methods.map Method.body =
      [[.line 2, .line 1, .instruction (.plain .return_)]] ∧
    (turnedClass false).signature = some "U" ∧ (turnedClass true).signature = some "V" := by
  have hsmall (turned : Bool) : (turnedClass turned).layout.pool.length < maxByte + 1 := by
    simp [turnedClass, mixedTable, maxByte]
  exact ⟨rfl, by decide, fun _ => ⟨rfl, rfl⟩, toBytes_mixedClass, ofBytes_mixedFile, hsmall, by decide,
    rfl, rfl, rfl, rfl, rfl, rfl, rfl, rfl⟩

end ClassTree
