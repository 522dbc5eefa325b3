/-
# ClassTree.Proofs.Tree.Reordering — the order of metadata is free

An entity finds its parts by their names, its members and its properties by their kinds. Nothing
else depends on the order of its children, so they may be put in another order as long as those of
one name, the members and the properties stay in theirs. Where rows of entities count in order —
instructions, annotations, parameters — only the entities themselves may change in this way. A tree
is then read as it was, or refused for the same reason.
-/
import Mathlib
import ClassTree.Proofs.Tree.Marker

namespace ClassTree.Tree

/-! ## What a reader takes a node for -/

/-- What a reader takes a node for: an entity, a row of entities, or something that is read as it
stands. -/
inductive Role
  | class_
  | field
  | method
  | parameter
  | annotationUse
  | enum
  | innerClass
  | enclosing
  | localVariable
  | frame
  | parameters
  | annotations
  | innerClasses
  | localVariables
  | body
  | values
  | property
  | fixed
  deriving DecidableEq

namespace Role

/-- The children of an entity are found by name or kind. -/
def isEntity : Role → Bool
  | class_ | field | method | parameter | annotationUse | enum | innerClass | enclosing | localVariable
  | frame => true
  | _ => false

/-- The parts of an entity with entities below them. -/
def parts : Role → List (Text × Role)
  | class_ => [("annotations", annotations), ("inner-classes", innerClasses),
      ("enclosing-method", enclosing)]
  | field | parameter => [("annotations", annotations)]
  | method => [("annotations", annotations), ("params", parameters), ("body", body),
      ("local-variables", localVariables), ("annotation-default-value", values)]
  | _ => []

/-- What the part of a name is taken for. -/
def part (role : Role) (name : Option Text) : Role :=
  match role.parts.find? fun p => some p.1 = name with
  | some p => p.2
  | none => fixed

/-- What an annotation value is taken for. -/
def ofValue (n : Node) : Role :=
  if n.base = some ("annotation" : Text) then annotationUse
  else if n.base = some ("enum" : Text) then enum
  else if n.base = some ("tuple" : Text) then values
  else fixed

/-- What a child is taken for. -/
def below (role : Role) (c : Node) : Role :=
  match role with
  | class_ =>
    if c.base = some ("field" : Text) then field
    else if c.base = some ("method" : Text) then method
    else role.part c.name
  | annotationUse => if c.base = some ("property" : Text) then property else fixed
  | parameters => parameter
  | annotations => annotationUse
  | innerClasses => innerClass
  | localVariables => localVariable
  | body => if c.base = some ("frame" : Text) then frame else fixed
  | values | property => ofValue c
  | _ => role.part c.name

/-- An entity that finds its parts by name takes the part of a name for something. -/
def HasPart (role : Role) (name : Text) (below : Role) : Prop :=
  role.isEntity = true ∧ role ≠ annotationUse ∧ role.part (some name) = below

instance (role : Role) (name : Text) (below : Role) : Decidable (role.HasPart name below) :=
  inferInstanceAs (Decidable (_ ∧ _ ∧ _))

theorem HasPart.below_eq {role below : Role} {name : Text} (h : role.HasPart name below) {c : Node}
    (hname : c.name = some name) (hmember : c.isMember = false) : role.below c = below := by
  obtain ⟨hentity, hrole, hpart⟩ := h
  rw [← hpart, ← hname]
  cases role with
  | class_ =>
    have hbase : ¬ c.base = some ("field" : Text) ∧ ¬ c.base = some ("method" : Text) := by
      simpa [Node.isMember] using hmember
    exact (if_neg hbase.1).trans (if_neg hbase.2)
  | annotationUse => exact absurd rfl hrole
  | field | method | parameter | enum | innerClass | enclosing | localVariable | frame => rfl
  | _ => cases hentity

end Role

namespace Node

/-- The node without what is below it. -/
def alone (n : Node) : Node := { n with children := [] }

/-- The node of a property of an annotation. -/
def isProperty (n : Node) : Bool := n.base = some ("property" : Text)

/-- Children in another order: those that share a name keep theirs, and so do the fields and methods
and the properties. -/
structure KeepsOrder (cs ds : List Node) : Prop where
  perm : cs.Perm ds
  named : ∀ name : Text,
    cs.filter (fun c => c.name = some name) = ds.filter fun c => c.name = some name
  members : cs.filter isMember = ds.filter isMember
  properties : cs.filter isProperty = ds.filter isProperty

/-- Trees that differ in the order of the children of entities only. The role says what the node is
taken for, and so which nodes of the tree are entities. -/
inductive Reordered : Role → Node → Node → Prop
  | intro {role : Role} {n n' : Node} (row : List Node) (alone : n.alone = n'.alone)
    (order : if role.isEntity then KeepsOrder n.children row else n.children = row)
    (length : row.length = n'.children.length)
    (below : ∀ c d, (c, d) ∈ row.zip n'.children → Reordered (role.below c) c d) :
    Reordered role n n'

/-! ## Other orders -/

theorem KeepsOrder.refl (cs : List Node) : KeepsOrder cs cs := ⟨.refl _, fun _ => rfl, rfl, rfl⟩

/-- Two neighbours may change places if they share no name and are not both members or both
properties. -/
theorem KeepsOrder.swap {c d : Node} (hname : c.name = none ∨ c.name ≠ d.name)
    (hmember : (c.isMember && d.isMember) = false) (hproperty : (c.isProperty && d.isProperty) = false)
    (before after : List Node) : KeepsOrder (before ++ c :: d :: after) (before ++ d :: c :: after) := by
  have hfilter {p : Node → Bool} (hp : (p c && p d) = false) :
      (before ++ c :: d :: after).filter p = (before ++ d :: c :: after).filter p := by
    rw [List.filter_append, List.filter_append]
    cases hc : p c <;> cases hd : p d <;> simp_all
  refine ⟨.append_left before (.swap d c after), fun name => hfilter ?_, hfilter hmember,
    hfilter hproperty⟩
  by_cases hc : c.name = some name
  · have hd : d.name ≠ some name := fun hd => by simp [hc, hd] at hname
    simp [hd]
  · simp [hc]

/-- The children of an entity may be put in another order, and each of them changed. -/
theorem Reordered.of_forall₂ {role : Role} (hrole : role.isEntity = true) {n n' : Node}
    (alone : n.alone = n'.alone) {row : List Node} (order : KeepsOrder n.children row)
    (below : List.Forall₂ (fun c d => Reordered (role.below c) c d) row n'.children) :
    Reordered role n n' :=
  .intro row alone (by rwa [if_pos hrole]) (List.forall₂_iff_zip.1 below).1
    fun _ _ h => (List.forall₂_iff_zip.1 below).2 h

theorem Reordered.refl (role : Role) (n : Node) : Reordered role n n := by
  refine .intro n.children rfl ?_ rfl fun c d h => ?_
  · split
    · exact .refl _
    · rfl
  · obtain ⟨i, hi, heq⟩ := List.mem_iff_getElem.1 h
    rw [List.getElem_zip, Prod.mk.injEq] at heq
    obtain ⟨rfl, hd⟩ := heq
    have hmem := List.getElem_mem (l := n.children) (n := i) (by simpa using hi)
    rw [← hd]
    exact Reordered.refl _ _
termination_by sizeOf n
decreasing_by
  cases n
  have := List.sizeOf_lt_of_mem hmem
  simp +arith at this ⊢
  omega

/-! ## What readers see of a node -/

theorem isMember_alone (n : Node) : n.alone.isMember = n.isMember := rfl

namespace Reordered

variable {role : Role} {n n' : Node}

theorem alone_eq (h : Reordered role n n') : n.alone = n'.alone := by
  cases h with
  | intro _ alone => exact alone

theorem base_eq (h : Reordered role n n') : n.base = n'.base :=
  show n.alone.base = n'.alone.base from congrArg Node.base h.alone_eq

theorem name_eq (h : Reordered role n n') : n.name = n'.name :=
  show n.alone.name = n'.alone.name from congrArg Node.name h.alone_eq

/-- What is read as it stands has not changed. -/
theorem eq_of_fixed (h : Reordered .fixed n n') : n = n' := by
  generalize hrole : Role.fixed = role at h
  induction h with
  | @intro role n n' row alone order length _ ih =>
    subst hrole
    have hrow : n.children = row := order
    have hchildren : n.children = n'.children := by
      rw [hrow, ← List.forall₂_eq_eq_eq]
      exact List.forall₂_iff_zip.2 ⟨length, fun hmem => ih _ _ hmem rfl⟩
    cases n
    cases n'
    simp only [Node.alone, Node.mk.injEq] at alone hchildren ⊢
    exact ⟨alone.1, alone.2.1, alone.2.2.1, alone.2.2.2.1, alone.2.2.2.2.1, hchildren⟩

/-- The children of a row are changed one by one. -/
theorem forall₂_children (h : Reordered role n n') (hrole : role.isEntity = false) :
    List.Forall₂ (fun c d => Reordered (role.below c) c d) n.children n'.children := by
  cases h with
  | intro row _ order length below =>
    rw [if_neg (by simp [hrole])] at order
    subst order
    exact List.forall₂_iff_zip.2 ⟨length, fun hmem => below _ _ hmem⟩

/-- Children whose order counts are changed one by one, if they are chosen by what they are
themselves. -/
theorem forall₂_filter (h : Reordered role n n') {p : Node → Bool} (halone : ∀ c : Node, p c.alone = p c)
    (horder : ∀ cs ds, KeepsOrder cs ds → cs.filter p = ds.filter p) :
    List.Forall₂ (fun c d => Reordered (role.below c) c d) (n.children.filter p)
      (n'.children.filter p) := by
  cases h with
  | intro row _ order length below =>
    have hrow : n.children.filter p = row.filter p := by
      split at order
      · exact horder _ _ order
      · rw [order]
    rw [hrow]
    refine List.rel_filter ?_ (List.forall₂_iff_zip.2 ⟨length, fun hmem => below _ _ hmem⟩)
    intro c d hcd
    show p c = true ↔ p d = true
    rw [← halone c, ← halone d, hcd.alone_eq]

/-- A part is found where it was, and changed. -/
theorem rel_part? (h : Reordered role n n') (name : Text) :
    Option.Rel (fun c d => (c.name = some name ∧ c.isMember = false) ∧ Reordered (role.below c) c d)
      (n.part? name) (n'.part? name) := by
  have hall := h.forall₂_filter (p := fun c => c.name = some name && !c.isMember) (fun _ => rfl)
    fun cs ds hkeeps => by
      have hnamed := congrArg (List.filter fun c => !c.isMember) (hkeeps.named name)
      simpa only [List.filter_filter, Bool.and_comm] using hnamed
  unfold part?
  rw [← List.head?_filter, ← List.head?_filter]
  have hmem : ∀ c ∈ n.children.filter (fun c => c.name = some name && !c.isMember),
      c.name = some name ∧ c.isMember = false := fun c hc => by simpa using (List.mem_filter.1 hc).2
  generalize n.children.filter (fun c => c.name = some name && !c.isMember) = cs at hall hmem
  generalize n'.children.filter (fun c => c.name = some name && !c.isMember) = ds at hall
  cases hall with
  | nil => exact .none
  | cons hcd _ => exact .some ⟨hmem _ List.mem_cons_self, hcd⟩

/-- A part that is read as it stands has not changed. -/
theorem part?_eq (h : Reordered role n n') {name : Text}
    (hrole : role.HasPart name .fixed) :
    n'.part? name = n.part? name := by
  have hrel := h.rel_part? name
  generalize n.part? name = found at hrel
  generalize n'.part? name = found' at hrel
  cases hrel with
  | none => rfl
  | some hcd =>
    obtain ⟨⟨hname, hmember⟩, hcd⟩ := hcd
    rw [hrole.below_eq hname hmember] at hcd
    rw [hcd.eq_of_fixed]

/-- What is read of the part itself has not changed. -/
theorem optional_eq (h : Reordered role n n') {α : Type} {read : Node → Result α}
    (hread : ∀ c : Node, read c.alone = read c) (name : Text) :
    optional read n' name = optional read n name := by
  have hrel := h.rel_part? name
  unfold optional
  generalize n.part? name = found at hrel
  generalize n'.part? name = found' at hrel
  cases hrel with
  | none => rfl
  | some hcd =>
    dsimp only
    rw [← hread, ← hcd.2.alone_eq, hread]

/-- What is read of a part that has to be there has not changed. -/
theorem required_eq (h : Reordered role n n') {α : Type} {read : Node → Result α}
    (hread : ∀ c : Node, read c.alone = read c) (name place : Text) :
    required read n' name place = required read n name place := by
  have hrel := h.rel_part? name
  unfold required part
  generalize n.part? name = found at hrel
  generalize n'.part? name = found' at hrel
  cases hrel with
  | none => rfl
  | some hcd =>
    show read _ = read _
    rw [← hread, ← hcd.2.alone_eq, hread]

/-- What is read of a part has not changed if its reader does not look at what has changed. -/
theorem optional_eq_of_hasPart (h : Reordered role n n') {α : Type} {read : Node → Result α} {name : Text}
    {below : Role} (hrole : role.HasPart name below)
    (hread : ∀ c d, Reordered below c d → read d = read c) :
    optional read n' name = optional read n name := by
  have hrel := h.rel_part? name
  unfold optional
  generalize n.part? name = found at hrel
  generalize n'.part? name = found' at hrel
  cases hrel with
  | none => rfl
  | some hcd =>
    obtain ⟨⟨hname, hmember⟩, hcd⟩ := hcd
    rw [hrole.below_eq hname hmember] at hcd
    dsimp only
    rw [hread _ _ hcd]

/-- The children of a part that is read as it stands have not changed. -/
theorem grouped_eq (h : Reordered role n n') {name : Text} (hrole : role.HasPart name .fixed) :
    n'.grouped name = n.grouped name := by
  unfold grouped
  rw [h.part?_eq hrole]

/-- The entities of a row are changed one by one. -/
theorem forall₂_grouped (h : Reordered role n n') {name : Text} {row : Role}
    (hrole : role.HasPart name row) (hrow : row.isEntity = false) :
    List.Forall₂ (fun c d => Reordered (row.below c) c d) (n.grouped name) (n'.grouped name) := by
  have hrel := h.rel_part? name
  unfold grouped
  generalize n.part? name = found at hrel
  generalize n'.part? name = found' at hrel
  cases hrel with
  | none => exact .nil
  | some hcd =>
    obtain ⟨⟨hname, hmember⟩, hcd⟩ := hcd
    rw [hrole.below_eq hname hmember] at hcd
    exact hcd.forall₂_children hrow

end Reordered

end Node

/-! ## Leaves -/

section

variable (path : Text) (n : Node)

theorem constantOf_alone (kinds : List Literal.Kind) :
    constantOf path kinds n.alone = constantOf path kinds n := rfl

theorem intOf_alone : intOf path n.alone = intOf path n := rfl

theorem textOf_alone : textOf path n.alone = textOf path n := rfl

theorem boolOf_alone : boolOf path n.alone = boolOf path n := rfl

end

/-- What is read of nodes that have been changed one by one. -/
theorem mapM_eq_of_forall₂ {m : Type → Type} [Monad m] [LawfulMonad m] {α β : Type} {R : α → α → Prop}
    {read : α → m β} (hread : ∀ c d, R c d → read d = read c) {cs ds : List α}
    (h : List.Forall₂ R cs ds) : ds.mapM read = cs.mapM read := by
  induction h with
  | nil => rfl
  | cons hcd _ ih => rw [List.mapM_cons, List.mapM_cons, hread _ _ hcd, ih]

/-! ## Annotations -/

/-- A child that is no property is passed over. -/
theorem readProperties_filter (path descriptor : Text) (ns : List Node)
    (acc : List (Text × ElementValue)) :
    readProperties path descriptor (ns.filter Node.isProperty) acc =
      readProperties path descriptor ns acc := by
  induction ns generalizing acc with
  | nil => rfl
  | cons n ns ih =>
    by_cases hn : n.isProperty = true
    · rw [List.filter_cons_of_pos hn, readProperties, readProperties]
      refine bind_congr fun property? => ?_
      cases property? <;> exact ih _
    · rw [List.filter_cons_of_neg hn, ih, readProperties]
      have hnone : readProperty path descriptor n = .ok none := by
        have hbase : ¬ n.base = some ("property" : Text) := by simpa [Node.isProperty] using hn
        cases n
        rw [readProperty.eq_def]
        exact if_neg hbase
      rw [hnone]
      rfl

/-- The descriptor and the visibility are read around the same values. -/
theorem readParts_eq {role : Role} {n n' : Node} (h : n.Reordered role n') (path : Text)
    {values values' : Text → Result (List (Text × ElementValue))}
    (hvalues : ∀ descriptor, values' descriptor = values descriptor) :
    readParts path n' values' = readParts path n values := by
  unfold readParts
  rw [← h.base_eq, h.required_eq (textOf_alone path)]
  simp only [h.required_eq (boolOf_alone path), hvalues]

/-- What an annotation value says, an annotation and a property of one. -/
def Node.SaysSame (path : Text) (role : Role) (n n' : Node) : Prop :=
  (role = .ofValue n → readElement path n' = readElement path n) ∧
    (role = .annotationUse → readAnnotationUse path n' = readAnnotationUse path n) ∧
    (role = .property → ∀ descriptor,
      readProperty path descriptor n' = readProperty path descriptor n)

/-- Values in a row say the same if each of them does. -/
theorem readElements_eq {path : Text} {cs ds : List Node}
    (h : List.Forall₂ (fun c d => readElement path d = readElement path c) cs ds)
    (acc : List ElementValue) : readElements path ds acc = readElements path cs acc := by
  induction h generalizing acc with
  | nil => rfl
  | cons hcd _ ih =>
    rw [readElements, readElements, hcd]
    exact bind_congr fun v => ih _

/-- Properties in a row say the same if each of them does. -/
theorem readProperties_eq {path descriptor : Text} {cs ds : List Node}
    (h : List.Forall₂ (fun c d => readProperty path descriptor d = readProperty path descriptor c) cs ds)
    (acc : List (Text × ElementValue)) :
    readProperties path descriptor ds acc = readProperties path descriptor cs acc := by
  induction h generalizing acc with
  | nil => rfl
  | cons hcd _ ih =>
    rw [readProperties, readProperties, hcd]
    refine bind_congr fun property? => ?_
    cases property? <;> exact ih _

theorem tagOf?_alone (n : Node) : tagOf? n.alone = tagOf? n := rfl

theorem readScalar_alone (path : Text) (tag : ElementTag) (n : Node) :
    readScalar path tag n.alone = readScalar path tag n := rfl

/-- Annotations and their values say the same in another order. The induction is on how the order
has changed, since a tree that is reordered has its subtrees at other places. -/
theorem Node.Reordered.saysSame {role : Role} {n n' : Node} (h : n.Reordered role n') (path : Text) :
    n.SaysSame path role n' := by
  induction h with
  | @intro role n n' row alone order length below ih =>
    have h : n.Reordered role n' := .intro row alone order length below
    have hrow : List.Forall₂ (fun c d => c.Reordered (role.below c) d ∧ c.SaysSame path (role.below c) d)
        row n'.children := List.forall₂_iff_zip.2 ⟨length, fun hmem => ⟨below _ _ hmem, ih _ _ hmem⟩⟩
    -- properties keep their order among themselves, and nothing else below is read
    have hproperties : role = .annotationUse → ∀ descriptor,
        readProperties path descriptor n'.children [] = readProperties path descriptor n.children [] := by
      rintro rfl descriptor
      have hkeeps : KeepsOrder n.children row := order
      rw [← readProperties_filter path descriptor n.children, hkeeps.properties, readProperties_filter]
      refine readProperties_eq (hrow.imp fun c d ⟨hcd, hsays⟩ => ?_) []
      by_cases hc : c.base = some ("property" : Text)
      · exact hsays.2.2 (if_pos hc) descriptor
      · have hrole : Role.below .annotationUse c = .fixed := if_neg hc
        rw [hrole] at hcd
        rw [hcd.eq_of_fixed]
    refine ⟨fun hrole => ?_, fun hrole => readParts_eq h path (hproperties hrole),
      fun hrole descriptor => ?_⟩
    · rw [readElement_eq, readElement_eq, ← h.base_eq]
      unfold Role.ofValue at hrole
      split
      · next hbase =>
        rw [if_pos hbase] at hrole
        rw [readParts_eq h path (hproperties hrole)]
      · next hbase =>
        rw [if_neg hbase] at hrole
        simp only [h.required_eq (textOf_alone path)]
        split
        · rfl
        · next hbase =>
          rw [if_neg hbase] at hrole
          split
          · next hbase =>
            rw [if_pos hbase] at hrole
            subst hrole
            have hchildren : n.children = row := order
            rw [hchildren, readElements_eq (hrow.imp fun c d hcd => hcd.2.1 rfl)]
          · rw [← tagOf?_alone n', ← h.alone_eq, tagOf?_alone]
            split
            · rw [← readScalar_alone path _ n', ← h.alone_eq, readScalar_alone]
            · rfl
    · subst hrole
      have hchildren : n.children = row := order
      have hbase := h.base_eq
      -- a property is a name and a value in this order, so only the value can say it in another one
      obtain ⟨base, _, _, _, _, children⟩ := n
      obtain ⟨base', _, _, _, _, children'⟩ := n'
      subst hchildren hbase
      unfold readProperty
      split
      · cases hrow with
        | nil => rfl
        | cons hname hrest =>
          cases hrest with
          | nil => rfl
          | cons hvalue hrest =>
            cases hrest with
            | nil =>
              dsimp only
              rw [hvalue.2.1 rfl, ← textOf_alone, ← hname.1.alone_eq, textOf_alone]
            | cons => rfl
      · rfl

section

variable {role : Role} {n n' : Node} (path : Text)

theorem readAnnotationUses_eq (h : n.Reordered role n')
    (hrole : role.HasPart "annotations" .annotations) :
    readAnnotationUses path n' = readAnnotationUses path n :=
  mapM_eq_of_forall₂ (fun _ _ hcd => (hcd.saysSame path).2.1 rfl) (h.forall₂_grouped hrole rfl)

theorem readAttributes_eq (h : n.Reordered role n') {name : Text} (hrole : role.HasPart name .fixed) :
    readAttributes path n' name = readAttributes path n name := by
  unfold readAttributes
  rw [h.grouped_eq hrole]

/-! ## Bodies -/

variable (at_ : Location)

theorem readFrame_eq (h : n.Reordered .frame n') : readFrame at_ n' = readFrame at_ n := by
  have hgrouped (name : Text) : n'.grouped name = n.grouped name :=
    h.grouped_eq ⟨rfl, by decide, rfl⟩
  unfold readFrame
  rw [← h.name_eq, hgrouped, hgrouped, h.optional_eq (intOf_alone at_.path)]

theorem readItem_of_frame (h : n.base = some ("frame" : Text)) :
    readItem at_ n = do return .frame (← readFrame at_ n) := by
  unfold readItem
  rw [h, if_neg (by decide), if_neg (by decide)]
  exact if_pos rfl

theorem readItem_eq (h : n.Reordered (Role.below .body n) n') : readItem at_ n' = readItem at_ n := by
  by_cases hbase : n.base = some ("frame" : Text)
  · rw [show Role.below .body n = .frame from if_pos hbase] at h
    rw [readItem_of_frame at_ hbase, readItem_of_frame at_ (h.base_eq ▸ hbase), readFrame_eq at_ h]
  · rw [show Role.below .body n = .fixed from if_neg hbase] at h
    rw [h.eq_of_fixed]

theorem readItems_eq (h : n.Reordered .body n') : readItems at_ n' = readItems at_ n := by
  have hrow : ∀ (cs ds : List Node) (k : Nat),
      List.Forall₂ (fun c d => c.Reordered (Role.below .body c) d) cs ds →
        ((ds.zipIdx k).mapM fun c => readItem (at_.item c.2) c.1) =
          (cs.zipIdx k).mapM fun c => readItem (at_.item c.2) c.1 := by
    intro cs ds k hall
    induction hall generalizing k with
    | nil => rfl
    | cons hcd _ ih =>
      rw [List.zipIdx_cons, List.zipIdx_cons, List.mapM_cons, List.mapM_cons, ih]
      dsimp only
      rw [readItem_eq _ hcd]
  exact hrow _ _ 0 (h.forall₂_children rfl)

theorem readLocalVariable_eq (h : n.Reordered .localVariable n') :
    readLocalVariable at_ n' = readLocalVariable at_ n := by
  have hpart (name : Text) : n'.part? name = n.part? name := h.part?_eq ⟨rfl, by decide, rfl⟩
  simp only [readLocalVariable, required, optional, Node.part, hpart]

theorem readCode_eq (h : n.Reordered .method n') : readCode at_ n' = readCode at_ n := by
  have hbody := h.rel_part? "body"
  have hhandlers : n'.grouped "trycatchblocks" = n.grouped "trycatchblocks" := h.grouped_eq (by decide)
  have hlocals : (n'.grouped "local-variables").mapM (readLocalVariable at_) =
      (n.grouped "local-variables").mapM (readLocalVariable at_) :=
    mapM_eq_of_forall₂ (fun _ _ hcd => readLocalVariable_eq at_ hcd)
      (h.forall₂_grouped (show Role.HasPart .method "local-variables" .localVariables by decide) rfl)
  unfold readCode
  rw [hhandlers, hlocals]
  generalize n.part? "body" = found at hbody
  generalize n'.part? "body" = found' at hbody
  cases hbody with
  | none => rfl
  | some hcd =>
    obtain ⟨⟨hname, hmember⟩, hcd⟩ := hcd
    rw [Role.HasPart.below_eq (show Role.HasPart .method "body" .body by decide) hname hmember] at hcd
    dsimp only
    rw [readItems_eq at_ hcd]

/-! ## Members -/

theorem readField_eq (h : n.Reordered .field n') : readField path n' = readField path n := by
  have hattributes (path : Text) := readAttributes_eq path h
    (show Role.HasPart _ "attributes" _ by decide)
  unfold readField memberName
  rw [← h.name_eq]
  simp only [h.required_eq (intOf_alone _), h.required_eq (textOf_alone _),
    h.optional_eq (textOf_alone _),
    h.optional_eq fun c => constantOf_alone _ c _, readAnnotationUses_eq _ h (by decide), hattributes]

/-- The default value of an annotation property. -/
theorem readDefault_eq (place : Text) (h : n.Reordered .method n') :
    readDefault path place n' = readDefault path place n := by
  have hrel := h.rel_part? "annotation-default-value"
  unfold readDefault
  generalize n.part? "annotation-default-value" = found at hrel
  generalize n'.part? "annotation-default-value" = found' at hrel
  cases hrel with
  | none => rfl
  | @some c d hcd =>
    obtain ⟨⟨hname, hmember⟩, hcd⟩ := hcd
    rw [Role.HasPart.below_eq (show Role.HasPart .method "annotation-default-value" .values by decide)
      hname hmember] at hcd
    have hchildren := hcd.forall₂_children rfl
    dsimp only
    generalize c.children = cs at hchildren
    generalize d.children = ds at hchildren
    cases hchildren with
    | nil => rfl
    | cons hvalue _ =>
      dsimp only
      rw [(hvalue.saysSame path).1 rfl]

theorem readParameter_eq (h : n.Reordered .parameter n') :
    readParameter path n' = readParameter path n := by
  unfold readParameter readParameterName
  rw [← h.name_eq, ← h.base_eq]
  simp only [h.optional_eq (intOf_alone _), h.optional_eq (textOf_alone _),
    readAnnotationUses_eq _ h (by decide)]

theorem readMethod_eq (className : Text) (h : n.Reordered .method n') :
    readMethod path className n' = readMethod path className n := by
  have hmaxima : n'.part? "maxs" = n.part? "maxs" := h.part?_eq (by decide)
  have hexceptions : n'.grouped "exceptions" = n.grouped "exceptions" := h.grouped_eq (by decide)
  have hparameters (path : Text) : (n'.grouped "params").mapM (readParameter path) =
      (n.grouped "params").mapM (readParameter path) :=
    mapM_eq_of_forall₂ (fun _ _ hcd => readParameter_eq path hcd)
      (h.forall₂_grouped (show Role.HasPart .method "params" .parameters by decide) rfl)
  have hattributes (path : Text) := readAttributes_eq path h
    (show Role.HasPart _ "attributes" _ by decide)
  have hcode (path : Text) := readAttributes_eq path h (show Role.HasPart _ "code-attributes" _ by decide)
  unfold readMethod memberName
  rw [← h.name_eq]
  simp only [h.required_eq (intOf_alone _), h.required_eq (textOf_alone _),
    h.optional_eq (textOf_alone _),
    h.optional_eq (intOf_alone _), hmaxima, hexceptions, hparameters, readCode_eq _ h,
    readDefault_eq _ _ h, readAnnotationUses_eq _ h (by decide), hattributes, hcode]

/-! ## Classes -/

theorem readInnerClass_eq (h : n.Reordered .innerClass n') :
    readInnerClass path n' = readInnerClass path n := by
  simp only [readInnerClass, h.required_eq (textOf_alone _), h.required_eq (intOf_alone _),
    h.optional_eq (textOf_alone _)]

theorem readEnclosing_eq (h : n.Reordered .enclosing n') :
    readEnclosing path n' = readEnclosing path n := by
  simp only [readEnclosing, h.required_eq (textOf_alone _), h.optional_eq (textOf_alone _)]

/-- A child that is no member is passed over. -/
theorem foldlM_readMember_filter (className : Text) (ns : List Node) (m : Members) :
    (ns.filter Node.isMember).foldlM (readMember path className) m =
      ns.foldlM (readMember path className) m := by
  induction ns generalizing m with
  | nil => rfl
  | cons n ns ih =>
    by_cases hn : n.isMember = true
    · rw [List.filter_cons_of_pos hn, List.foldlM_cons, List.foldlM_cons]
      exact bind_congr fun m => ih m
    · have hbase : ¬ n.base = some ("field" : Text) ∧ ¬ n.base = some ("method" : Text) := by
        simpa [Node.isMember] using hn
      have hpass : readMember path className m n = .ok m := (if_neg hbase.1).trans (if_neg hbase.2)
      rw [List.filter_cons_of_neg hn, ih, List.foldlM_cons, hpass]
      rfl

theorem readMember_eq (className : Text) (m : Members) (h : n.Reordered (Role.below .class_ n) n') :
    readMember path className m n' = readMember path className m n := by
  unfold readMember
  rw [← h.base_eq]
  unfold Role.below at h
  dsimp only at h
  split at h
  · next hfield =>
    refine (if_pos hfield).trans (.trans ?_ (if_pos hfield).symm)
    rw [readField_eq path h]
  · next hfield =>
    refine (if_neg hfield).trans (.trans ?_ (if_neg hfield).symm)
    split at h
    · next hmethod =>
      refine (if_pos hmethod).trans (.trans ?_ (if_pos hmethod).symm)
      rw [readMethod_eq path className h]
    · next hmethod => exact (if_neg hmethod).trans (if_neg hmethod).symm

theorem foldlM_readMember_eq (className : Text) (h : n.Reordered .class_ n') (m : Members) :
    n'.children.foldlM (readMember path className) m =
      n.children.foldlM (readMember path className) m := by
  have hmembers := h.forall₂_filter (fun c => c.isMember_alone) fun _ _ hkeeps => hkeeps.members
  rw [← foldlM_readMember_filter, ← foldlM_readMember_filter path className n.children]
  generalize n.children.filter Node.isMember = cs at hmembers
  generalize n'.children.filter Node.isMember = ds at hmembers
  induction hmembers generalizing m with
  | nil => rfl
  | cons hcd _ ih =>
    rw [List.foldlM_cons, List.foldlM_cons, readMember_eq path className m hcd]
    exact bind_congr fun m => ih m

/-- The class of a tree with a name. -/
theorem readNamed_eq (name : Text) (h : n.Reordered .class_ n') :
    readNamed name n' = readNamed name n := by
  have hversion (path : Text) : optional (readVersion path) n' "version" =
      optional (readVersion path) n "version" :=
    h.optional_eq_of_hasPart (show Role.HasPart _ _ .fixed by decide)
      fun _ _ hcd => congrArg _ hcd.eq_of_fixed.symm
  have hsuper (path : Text) (c : Node) : readSuper path c.alone = readSuper path c := rfl
  have henclosing (path : Text) : optional (readEnclosing path) n' "enclosing-method" =
      optional (readEnclosing path) n "enclosing-method" :=
    h.optional_eq_of_hasPart (show Role.HasPart _ _ .enclosing by decide) fun _ _ => readEnclosing_eq path
  have hinner (path : Text) : (n'.grouped "inner-classes").mapM (readInnerClass path) =
      (n.grouped "inner-classes").mapM (readInnerClass path) :=
    mapM_eq_of_forall₂ (fun _ _ hcd => readInnerClass_eq path hcd)
      (h.forall₂_grouped (show Role.HasPart .class_ "inner-classes" .innerClasses by decide) rfl)
  have hinterfaces : n'.grouped "interfaces" = n.grouped "interfaces" := h.grouped_eq (by decide)
  have hattributes (path : Text) := readAttributes_eq path h
    (show Role.HasPart _ "attributes" _ by decide)
  simp only [readNamed, hversion, h.required_eq (intOf_alone _), h.optional_eq (hsuper _), henclosing,
    hinner, foldlM_readMember_eq _ name h, h.optional_eq (textOf_alone _), hinterfaces,
    readAnnotationUses_eq _ h (by decide), hattributes]

end

end ClassTree.Tree

namespace ClassTree.Class

open ClassTree.Tree

/-- A tree stands for the same class, or is refused for the same reason, in whatever order its
entities have their parts. Members, items of a body and values of annotations keep their order, and
so do parts of one name; everything else may be permuted, at all places of the tree at once.
Equality of the results includes the error: what is read first is decided by the reader and not by
the tree. -/
theorem ofTree_eq_of_reordered {n n' : Node} (h : n.Reordered .class_ n') : ofTree n' = ofTree n := by
  unfold ofTree
  rw [← h.base_eq, ← h.name_eq]
  simp only [readNamed_eq _ h]

/-- A leaf of a tree. -/
def leafOf (base name text : Text) : Node where
  base := some base
  name := some name
  data := some Node.leafMark
  text := some text

/-- The access flags of a class. -/
def accessLeaf : Node := leafOf "int" "access" "00 00 00 21"

/-- The owner of the method around a local class. -/
def ownerLeaf : Node := leafOf "string" "owner" "42"

/-- The name of the method around a local class. -/
def nameLeaf : Node := leafOf "string" "name" "66"

/-- The method around a local class. -/
def aroundNode (parts : List Node) : Node where
  name := some "enclosing-method"
  children := parts

/-- A class with given parts. -/
def partedTree (parts : List Node) : Node where
  base := some "class"
  name := some "A"
  children := parts

/-- The class of the tree, when the method around it can be read. -/
theorem ofTree_partedTree {parts : List Node} {e : EnclosingMethod}
    (h : readEnclosing "class A" (aroundNode parts) = .ok e) :
    ofTree (partedTree [accessLeaf, aroundNode parts]) =
      .ok { name := "A", access := 0x21, enclosing := some e } := by
  have haccess : required (intOf "class A") (partedTree [accessLeaf, aroundNode parts])
      "access" "class A" = .ok 0x21 := by cbv
  have haround : optional (readEnclosing "class A") (partedTree [accessLeaf, aroundNode parts])
      "enclosing-method" = .ok (some e) := by
    show (do return some (← readEnclosing "class A" (aroundNode parts))) = _
    rw [h]
    rfl
  show readNamed "A" _ = _
  unfold readNamed
  rw [show Text.ofString "class " ++ Text.ofString "A" = Text.ofString "class A" from rfl]
  dsimp only
  rw [haccess, haround]
  rfl

/-- The parts of a class and those of the method around it may change places at once. -/
theorem ofTree_partedTree_eq :
    (partedTree [accessLeaf, aroundNode [ownerLeaf, nameLeaf]]).Reordered .class_
        (partedTree [aroundNode [nameLeaf, ownerLeaf], accessLeaf]) ∧
      ofTree (partedTree [accessLeaf, aroundNode [ownerLeaf, nameLeaf]]) =
        .ok { name := "A", access := 0x21, enclosing := some ⟨some "B", some "f", none⟩ } ∧
      ofTree (partedTree [aroundNode [nameLeaf, ownerLeaf], accessLeaf]) =
        ofTree (partedTree [accessLeaf, aroundNode [ownerLeaf, nameLeaf]]) := by
  have haround : (aroundNode [ownerLeaf, nameLeaf]).Reordered .enclosing
      (aroundNode [nameLeaf, ownerLeaf]) :=
    .of_forall₂ rfl rfl (.swap (.inr (by decide)) rfl rfl [] [])
      (.cons (.refl _ _) (.cons (.refl _ _) .nil))
  have htree : (partedTree [accessLeaf, aroundNode [ownerLeaf, nameLeaf]]).Reordered .class_
      (partedTree [aroundNode [nameLeaf, ownerLeaf], accessLeaf]) :=
    .of_forall₂ rfl rfl (.swap (.inr (by decide)) rfl rfl [] [])
      (.cons haround (.cons (.refl _ _) .nil))
  exact ⟨htree, ofTree_partedTree (by cbv), ofTree_eq_of_reordered htree⟩

end ClassTree.Class
