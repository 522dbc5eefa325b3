/-
# ClassTree.Proofs.Tree.Labels — labels watched while a body is read

Reading the code of a method defines labels and refers to labels. Two things are said of a reader:
what it has defined and referred to where it succeeded, by which the registry has grown, and that it
succeeds if what it defines is new.
-/
import ClassTree.Proofs.Label.Registry
import ClassTree.Tree.ToClass
import ClassTree.Proofs.Class.Sound

namespace ClassTree.Tree

open Label (Registry)

variable {α β : Type}

/-! ## What readers give -/

/-- A reader that succeeds gives something of a sort, together with what it has defined and what it
has referred to. -/
def Tracks (x : Labelled α) (P : α → List Label → List Label → Prop) : Prop :=
  ∀ (r r' : Registry) (a : α), r.IsConsistent → x r = .ok (a, r') →
    ∃ definitions references, r.Extends definitions references r' ∧ P a definitions references

namespace Tracks

variable {x : Labelled α} {k : α → Labelled β} {P : α → List Label → List Label → Prop}
  {Q : β → List Label → List Label → Prop}

theorem pure {a : α} (h : P a [] []) : Tracks (Pure.pure a) P := by
  intro r r' b hr hb
  cases hb
  exact ⟨[], [], .refl r, h⟩

theorem lift {x : Result α} (h : ∀ a, x = .ok a → P a [] []) : Tracks (liftM x) P := by
  intro r r' b hr hb
  cases x with
  | error e => cases hb
  | ok a =>
    cases hb
    exact ⟨[], [], .refl r, h _ rfl⟩

theorem bind (h : Tracks x P) (hk : ∀ a definitions references, P a definitions references →
    Tracks (k a) fun b definitions' references' =>
      Q b (definitions ++ definitions') (references ++ references')) : Tracks (x >>= k) Q := by
  intro r r'' b hr hb
  obtain ⟨⟨a, r'⟩, ha, hb⟩ := Result.bind_eq_ok_iff.1 hb
  obtain ⟨definitions, references, hextends, hP⟩ := h r r' a hr ha
  obtain ⟨definitions', references', hextends', hQ⟩ :=
    hk a definitions references hP r' r'' b (hextends.consistent hr) hb
  exact ⟨_, _, hextends.trans hextends', hQ⟩

theorem imp {P' : α → List Label → List Label → Prop} (h : Tracks x P)
    (himp : ∀ a definitions references, P a definitions references →
      P' a definitions references) : Tracks x P' := by
  intro r r' a hr ha
  obtain ⟨definitions, references, hextends, hP⟩ := h r r' a hr ha
  exact ⟨definitions, references, hextends, himp a _ _ hP⟩

/-- A reader of something that has been got without labels. -/
theorem lift_bind {x : Result α} (h : ∀ a, x = .ok a → Tracks (k a) Q) : Tracks (liftM x >>= k) Q :=
  (lift (P := fun a definitions references => x = .ok a ∧ definitions = [] ∧ references = [])
    fun a ha => ⟨ha, rfl, rfl⟩).bind fun a _ _ hP => by
      obtain ⟨ha, rfl, rfl⟩ := hP
      exact h a ha

theorem mapM {f : α → Labelled β} {as : List α} {D R : β → List Label} {P : β → Prop}
    (h : ∀ a ∈ as, Tracks (f a) fun b definitions references =>
      definitions = D b ∧ references = R b ∧ P b) :
    Tracks (as.mapM f) fun bs definitions references =>
      definitions = bs.flatMap D ∧ references = bs.flatMap R ∧ ∀ b ∈ bs, P b := by
  induction as with
  | nil => exact pure ⟨rfl, rfl, by simp⟩
  | cons a as ih =>
    rw [List.mapM_cons]
    refine (h a (by simp)).bind fun b _ _ ⟨hd, hr, hb⟩ => ?_
    refine (ih fun a ha => h a (by simp [ha])).bind fun bs _ _ ⟨hds, hrs, hbs⟩ => ?_
    refine pure ⟨?_, ?_, ?_⟩
    · rw [hd, hds, List.append_nil, List.flatMap_cons]
    · rw [hr, hrs, List.append_nil, List.flatMap_cons]
    · exact List.forall_mem_cons.2 ⟨hb, hbs⟩

end Tracks

/-! ## What readers need -/

/-- A reader succeeds with a value wherever its definitions are new, and grows the registry by them
and by its references. -/
def Reaches (x : Labelled α) (a : α) (definitions references : List Label) : Prop :=
  ∀ r : Registry, r.IsConsistent → definitions.Nodup → (∀ l ∈ definitions, r.defined.contains l = false) →
    ∃ r', x r = .ok (a, r') ∧ r.Extends definitions references r'

namespace Reaches

variable {x : Labelled α} {k : α → Labelled β} {a : α} {b : β}
  {definitions references definitions' references' : List Label}

theorem pure (a : α) : Reaches (Pure.pure a) a [] [] := fun r _ _ _ => ⟨r, rfl, .refl r⟩

theorem lift {x : Result α} (h : x = .ok a) : Reaches (liftM x) a [] [] := h ▸ pure a

theorem of_eq (h : Reaches x a definitions references) (hdefinitions : definitions = definitions')
    (hreferences : references = references') : Reaches x a definitions' references' :=
  hdefinitions ▸ hreferences ▸ h

theorem of_pos {p : Prop} [Decidable p] {y : Labelled α} (hp : p)
    (h : Reaches x a definitions references) :
    Reaches (if p then x else y) a definitions references := by
  rwa [if_pos hp]

theorem of_neg {p : Prop} [Decidable p] {y : Labelled α} (hp : ¬p)
    (h : Reaches x a definitions references) :
    Reaches (if p then y else x) a definitions references := by
  rwa [if_neg hp]

theorem bind (h : Reaches x a definitions references)
    (hk : Reaches (k a) b definitions' references') :
    Reaches (x >>= k) b (definitions ++ definitions') (references ++ references') := by
  intro r hr hnodup hfresh
  obtain ⟨hfirst, hsecond, hdisjoint⟩ := List.nodup_append.1 hnodup
  obtain ⟨r', ha, hextends⟩ := h r hr hfirst fun l hl => hfresh l (List.mem_append_left _ hl)
  obtain ⟨r'', hb, hextends'⟩ := hk r' (hextends.consistent hr) hsecond fun l hl => by
    rw [← Bool.not_eq_true, hextends.defined]
    rintro (hdefined | hmem)
    · rw [hfresh l (List.mem_append_right _ hl)] at hdefined
      cases hdefined
    · exact hdisjoint l hmem l hl rfl
  exact ⟨r'', Result.bind_eq_ok_iff.2 ⟨(a, r'), ha, hb⟩, hextends.trans hextends'⟩

/-- A reader of something that has been got without labels. -/
theorem lift_bind {x : Result α} (h : x = .ok a) (hk : Reaches (k a) b definitions references) :
    Reaches (liftM x >>= k) b definitions references := (lift h).bind hk

theorem bind_pure (h : Reaches x a definitions references) (f : α → β) :
    Reaches (x >>= fun a => Pure.pure (f a)) (f a) definitions references := by
  have hbind := h.bind (k := fun a => Pure.pure (f a)) (pure (f a))
  rwa [List.append_nil, List.append_nil] at hbind

theorem mapM {f : α → Labelled β} {as : List α} {bs : List β} {D R : β → List Label}
    (h : List.Forall₂ (fun a b => Reaches (f a) b (D b) (R b)) as bs) :
    Reaches (as.mapM f) bs (bs.flatMap D) (bs.flatMap R) := by
  induction h with
  | nil => exact pure []
  | cons hab _ ih =>
    rw [List.mapM_cons]
    exact hab.bind (ih.bind_pure _)

end Reaches

/-! ## Labels -/

variable {at_ : Location} {n : Node} {l : Label}

theorem tracks_readReference : Tracks (readReference at_ n) fun l definitions references =>
    definitions = [] ∧ references = [l] := by
  intro r r' l hr h
  obtain ⟨⟨label, r₁⟩, hlabel, h⟩ := Result.bind_eq_ok_iff.1 h
  cases hof : labelOf at_.path n with
  | error e =>
    rw [hof] at hlabel
    cases hlabel
  | ok name =>
    rw [hof] at hlabel
    cases hlabel
    cases h
    have hconsistent := (r.extends_resolve label.name).consistent hr
    exact ⟨_, _, (r.extends_resolve _).trans (Registry.extends_reference _ _ _ hconsistent), rfl, rfl⟩

/-- What a defining leaf does to the registry. -/
theorem readDefinition_eq (h : labelOf at_.path n = .ok l) (r : Registry) :
    readDefinition at_ n r = ((r.resolve l.name).2.define l).map fun r' => (l, r') := by
  have hresolved : readDefinition at_ n r = (do
      set (← (← get).define l)
      return l : Labelled Label) (r.resolve l.name).2 := by
    unfold readDefinition
    rw [h]
    rfl
  have hget : (do
      set (← (← get).define l)
      return l : Labelled Label) (r.resolve l.name).2 = (do
      set (← (r.resolve l.name).2.define l)
      return l : Labelled Label) (r.resolve l.name).2 := rfl
  rw [hresolved, hget]
  cases (r.resolve l.name).2.define l <;> rfl

theorem tracks_readDefinition : Tracks (readDefinition at_ n) fun l definitions references =>
    definitions = [l] ∧ references = [] := by
  intro r r' l hr h
  cases hof : labelOf at_.path n with
  | error e =>
    obtain ⟨⟨label, r₁⟩, hlabel, h⟩ := Result.bind_eq_ok_iff.1 h
    rw [hof] at hlabel
    cases hlabel
  | ok label =>
    rw [readDefinition_eq hof] at h
    cases hdefine : (r.resolve label.name).2.define label with
    | error e =>
      rw [hdefine] at h
      cases h
    | ok r₁ =>
      rw [hdefine] at h
      cases h
      exact ⟨_, _, (r.extends_resolve _).trans (Registry.extends_define hdefine), rfl, rfl⟩

/-- A leaf refers to the label that it names. -/
theorem reaches_readReference (h : labelOf at_.path n = .ok l) :
    Reaches (readReference at_ n) l [] [l] := by
  intro r hr _ _
  have hconsistent := (r.extends_resolve l.name).consistent hr
  refine ⟨_, ?_, (r.extends_resolve l.name).trans
    (Registry.extends_reference _ l at_.place hconsistent)⟩
  unfold readReference
  rw [h]
  rfl

/-- A leaf defines the label that it names. -/
theorem reaches_readDefinition (h : labelOf at_.path n = .ok l) :
    Reaches (readDefinition at_ n) l [l] [] := by
  intro r hr _ hfresh
  have hresolve := r.extends_resolve l.name
  have hnew : (r.resolve l.name).2.defined.contains l = false := hfresh l (by simp)
  obtain ⟨r', hr'⟩ := Registry.define_eq_ok hnew
  refine ⟨r', ?_, hresolve.trans (Registry.extends_define hr')⟩
  rw [readDefinition_eq h, hr']
  rfl

/-! ## Closing -/

/-- The body of a method, empty if there is none. -/
def collectBody (at_ : Location) (n : Node) : Labelled (List Item) :=
  match n.part? "body" with
  | some b => readItems at_ b
  | none => return []

/-- The code of a method before its labels are closed. -/
def collectCode (at_ : Location) (n : Node) : Labelled CodeParts := do
  let body ← collectBody at_ n
  let handlers ← (n.grouped "trycatchblocks").mapM (readHandler at_)
  let localVariables ← (n.grouped "local-variables").mapM (readLocalVariable at_)
  return { body, handlers, localVariables }

/-- The labels that the code of a method refers to. -/
def CodeParts.references (code : CodeParts) : List Label :=
  code.body.flatMap Item.references ++ code.handlers.flatMap Handler.references ++
    code.localVariables.flatMap LocalVariable.references

/-- The code of a method is given when its labels are closed. -/
theorem readCode_apply (at_ : Location) (n : Node) (r : Registry) :
    readCode at_ n r = (do
      let (code, r) ← collectCode at_ n r
      r.close
      return (code, r)) := by
  have hassoc : readCode at_ n = (do
      let code ← collectCode at_ n
      (← get).close
      return code) := by
    unfold readCode collectCode collectBody
    cases n.part? "body" <;> simp only [bind_assoc, pure_bind]
  have hclose (code : CodeParts) (r : Registry) : (do
      (← get).close
      return code : Labelled CodeParts) r = (do
      r.close
      return (code, r)) := by
    show (do
      liftM r.close
      return code : Labelled CodeParts) r = _
    cases r.close <;> rfl
  rw [hassoc]
  exact congrArg (collectCode at_ n r >>= ·) (funext fun p => hclose p.1 p.2)

theorem isConsistent_new (place : Text) : Registry.IsConsistent { place } := by
  intro l
  simp [Registry.targets]

end ClassTree.Tree
