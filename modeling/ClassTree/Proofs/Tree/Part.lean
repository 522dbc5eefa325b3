/-
# ClassTree.Proofs.Tree.Part — leaves and parts read back

A leaf is written for a constant and gives the constant back. The parts of an entity are lists of at
most one node under different names, so each is found by its name, however many stand around it.
-/
import ClassTree.Proofs.Literal
import ClassTree.Proofs.Result
import ClassTree.Tree.OfClass
import ClassTree.Tree.ToClass

namespace ClassTree.Tree

open Literal (Kind IsOf)

variable {path name : Text} {n : Node} {kind : Kind} {v : Constant}

/-! ## Leaves -/

/-- A leaf of a kind that holds a constant. -/
structure Node.Holds (n : Node) (kind : Kind) (v : Constant) : Prop where
  isLeaf : n.isLeaf = true
  base : n.base = some kind.name
  literal : n.literal = .ok v

namespace Node.Holds

theorem constantOf {kinds : List Kind} (h : n.Holds kind v) (hkind : kind ∈ kinds) :
    constantOf path kinds n = .ok v := by
  have hany : (kinds.any fun k => n.base = some k.name) = true :=
    List.any_eq_true.2 ⟨kind, hkind, decide_eq_true h.base⟩
  unfold Tree.constantOf
  simp only [h.isLeaf, hany, h.literal, if_true]

theorem intOf {i : Int} (h : n.Holds .int (.int i)) : intOf path n = .ok i := by
  unfold Tree.intOf
  rw [h.constantOf (by simp)]
  rfl

theorem textOf {t : Text} (h : n.Holds .string (.text t)) : textOf path n = .ok t := by
  unfold Tree.textOf
  rw [h.constantOf (by simp)]
  rfl

theorem boolOf {b : Bool} (h : n.Holds .bool (.bool b)) : boolOf path n = .ok b := by
  unfold Tree.boolOf
  rw [h.constantOf (by simp)]
  rfl

theorem bytesOf {b : Bytes} (h : n.Holds .bytes (.bytes b)) : bytesOf path n = .ok b := by
  unfold Tree.bytesOf
  rw [h.constantOf (by simp)]
  rfl

theorem labelOf {l : Label} (h : n.Holds .label (.label l)) : labelOf path n = .ok l := by
  unfold Tree.labelOf
  rw [h.constantOf (by simp)]
  rfl

theorem referenceOf {t : Text} (h : n.Holds .reference (.reference t)) :
    referenceOf path n = .ok t := by
  unfold Tree.referenceOf
  rw [h.constantOf (by simp)]
  rfl

end Node.Holds

/-- A node of a kind of constants is no member. -/
theorem isMember_of_base (h : n.base = some kind.name) : n.isMember = false := by
  unfold Node.isMember
  rw [h]
  cases kind <;> decide

theorem Node.Holds.isMember (h : n.Holds kind v) : n.isMember = false := isMember_of_base h.base

theorem exists_leaf (h : IsOf kind v) (hv : v.IsNumber) (name : Option Text) :
    ∃ n, Node.leaf kind v name = .ok n ∧ n.Holds kind v ∧ n.name = name := by
  obtain ⟨text, htext, hdecode⟩ := h.exists_encodeAs hv
  refine ⟨_, by rw [Node.leaf, htext]; rfl, ⟨by simp [Node.isLeaf], rfl, ?_⟩, rfl⟩
  exact hdecode

theorem exists_intLeaf {i : Int} (h : IsInt i) (name : Option Text) :
    ∃ n, intLeaf i name = .ok n ∧ n.Holds .int (.int i) ∧ n.name = name :=
  exists_leaf (.int h) trivial name

theorem exists_textLeaf (t : Text) (name : Option Text) :
    ∃ n, textLeaf t name = .ok n ∧ n.Holds .string (.text t) ∧ n.name = name :=
  exists_leaf (.string t) trivial name

theorem exists_boolLeaf (b : Bool) (name : Option Text) :
    ∃ n, boolLeaf b name = .ok n ∧ n.Holds .bool (.bool b) ∧ n.name = name :=
  exists_leaf (.bool b) trivial name

theorem exists_labelLeaf (l : Label) (name : Option Text) :
    ∃ n, labelLeaf l name = .ok n ∧ n.Holds .label (.label l) ∧ n.name = name :=
  exists_leaf (.label l) trivial name

/-! ## Parts -/

/-- An entity of a kind of its own is no member. -/
theorem isMember_entity {base : Text} (h : base ≠ "field" ∧ base ≠ "method") (name : Option Text)
    (children : List Node) : (entity base name children).isMember = false := by
  simp [entity, Node.isMember, h.1, h.2]

/-- A part of a name: one node that is no member, or none. -/
inductive IsPiece (name : Text) : List Node → Prop
  | none : IsPiece name []
  | one {n : Node} (hname : n.name = some name) (hmember : n.isMember = false) : IsPiece name [n]

theorem Node.Holds.isPiece (h : n.Holds kind v) (hname : n.name = some name) : IsPiece name [n] :=
  .one hname h.isMember

/-- What is looked for under the name of a part. -/
def isCalled (name : Text) (c : Node) : Bool := c.name = some name && !c.isMember

/-- The first node of a part is found under its name. -/
theorem IsPiece.find?_append {ns : List Node} (h : IsPiece name ns) (rest : List Node) :
    (ns ++ rest).find? (isCalled name) = ns.head?.or (rest.find? (isCalled name)) := by
  cases h with
  | none => rfl
  | one hname hmember => simp [isCalled, hname, hmember]

theorem IsPiece.find?_append_of_ne {ns : List Node} (h : IsPiece name ns) {other : Text}
    (hne : name ≠ other) (rest : List Node) :
    (ns ++ rest).find? (isCalled other) = rest.find? (isCalled other) := by
  cases h with
  | none => rfl
  | one hname hmember => simp [isCalled, hname, hne]

/-- A name is not found where no part has it. -/
theorem find?_parts_of_notMem {names : List Text} {parts : List (List Node)} {others : List Node}
    (hpieces : List.Forall₂ IsPiece names parts)
    (hothers : ∀ m ∈ others, m.isMember = true ∨ m.name = none) (hname : name ∉ names) :
    (parts.flatten ++ others).find? (isCalled name) = none := by
  induction hpieces with
  | nil =>
    refine List.find?_eq_none.2 fun m hm => ?_
    rcases hothers m hm with h | h <;> simp [isCalled, h]
  | cons hpiece _ ih =>
    rw [List.mem_cons, not_or] at hname
    rw [List.flatten_cons, List.append_assoc, hpiece.find?_append_of_ne (Ne.symm hname.1)]
    exact ih hname.2

/-- A node whose children are parts of different names, in order, and after them members and nodes
without a name. -/
structure Node.HasParts (n : Node) (names : List Text) (parts : List (List Node))
    (others : List Node) : Prop where
  nodup : names.Nodup
  pieces : List.Forall₂ IsPiece names parts
  isNoPart : ∀ m ∈ others, m.isMember = true ∨ m.name = none
  children : n.children = parts.flatten ++ others

/-- A part of a node is found by its name among others if no other part has the name: the first
child of the name is the first of the part, wherever in the node it stands. -/
theorem Node.HasParts.part? {names : List Text} {parts : List (List Node)} {others : List Node}
    (h : n.HasParts names parts others) (i : Nat) {ns : List Node} (hname : names[i]? = some name)
    (hpart : parts[i]? = some ns) : n.part? name = ns.head? := by
  obtain ⟨hnodup, hpieces, hothers, hchildren⟩ := h
  have hfind : n.part? name = (parts.flatten ++ others).find? (isCalled name) := by
    rw [← hchildren]
    rfl
  rw [hfind]
  clear hfind hchildren
  induction hpieces generalizing i with
  | nil => cases hname
  | @cons name' ns' names parts hpiece hpieces ih =>
    rw [List.nodup_cons] at hnodup
    rw [List.flatten_cons, List.append_assoc]
    cases i with
    | zero =>
      cases hname
      cases hpart
      rw [hpiece.find?_append, find?_parts_of_notMem hpieces hothers hnodup.1, Option.or_none]
    | succ i =>
      have hne : name' ≠ name := by
        rintro rfl
        exact hnodup.1 (List.mem_of_getElem? hname)
      rw [hpiece.find?_append_of_ne hne]
      exact ih i hname hpart hnodup.2

theorem isPiece_group (name : Text) (ns : List Node) : IsPiece name [group (some name) ns] :=
  .one rfl (isMember_entity (by decide) _ _)

theorem grouped_of_part? {ns : List Node} (h : n.part? name = some (group (some name) ns)) :
    n.grouped name = ns := by
  rw [Node.grouped, h]
  rfl

/-! ## Reading parts -/

section

variable {α : Type} {ns : List Node} {read : Node → Result α} {a : α}

theorem part_of_part? (hpart : n.part? name = some m) (place : Text) : n.part name place = .ok m := by
  unfold Node.part
  rw [hpart]

theorem required_of_part? (hpart : n.part? name = some m) (hread : read m = .ok a) (place : Text) :
    required read n name place = .ok a := by
  unfold required
  rw [part_of_part? hpart]
  exact hread

/-- What may be missing and is there is read where it has to be there. -/
theorem required_of_optional (h : optional read n name = .ok (some a)) (place : Text) :
    required read n name place = .ok a := by
  unfold optional at h
  split at h
  · next p hpart =>
    obtain ⟨a', ha', h⟩ := Result.bind_eq_ok_iff.1 h
    cases h
    exact required_of_part? hpart ha' place
  · cases h

theorem optional_of_part? (hpart : n.part? name = some m) (hread : read m = .ok a) :
    optional read n name = .ok (some a) := by
  unfold optional
  rw [hpart]
  simp only [hread]
  rfl

/-- Reading what there is of a part reads a part that may be missing. -/
theorem mapM_part? (read : Node → Result α) (n : Node) (name : Text) :
    (n.part? name).mapM read = optional read n name := by
  unfold optional
  cases n.part? name with
  | none => rfl
  | some p =>
    simp only [Option.mapM_some]
    cases read p <;> rfl

theorem optional_of_part?_none (hpart : n.part? name = none) : optional read n name = .ok none := by
  unfold optional
  rw [hpart]

end

section

variable {α : Type} {read : Text → Node → Result α}

/-- What may be missing is written where it is there, and read back. -/
theorem exists_optionLeaf {leaf : α → Option Text → Result Node} {a? : Option α}
    (h : ∀ a ∈ a?, ∃ n, leaf a (some name) = .ok n ∧ n.name = some name ∧ n.isMember = false ∧
      ∀ path, read path n = .ok a) :
    ∃ ns, optionLeaf leaf a? name = .ok ns ∧ IsPiece name ns ∧
      ∀ (n : Node) (path : Text), n.part? name = ns.head? → optional (read path) n name = .ok a? := by
  cases a? with
  | none => exact ⟨[], rfl, .none, fun n path hpart => optional_of_part?_none hpart⟩
  | some a =>
    obtain ⟨m, hm, hname, hmember, hread⟩ := h a rfl
    refine ⟨[m], ?_, .one hname hmember, fun n path hpart => optional_of_part? hpart (hread path)⟩
    simp only [optionLeaf, hm]
    rfl

/-- One node is written for what is there, and none for what is missing. -/
theorem optionLeaf_eq_ok {each : α → Result Node} {a? : Option α} {ns : List Node}
    (h : optionLeaf (fun a _ => each a) a? name = .ok ns) :
    (a? = none ∧ ns = []) ∨ ∃ a n, a? = some a ∧ each a = .ok n ∧ ns = [n] := by
  cases a? with
  | none => exact .inl ⟨rfl, (Except.ok.inj h).symm⟩
  | some a =>
    obtain ⟨n, hn, h⟩ := Result.bind_eq_ok_iff.1 h
    exact .inr ⟨a, n, rfl, hn, (Except.ok.inj h).symm⟩

/-- Results of single steps make up those of a row. -/
theorem exists_mapM {β : Type} {each : α → Result β} {as : List α} {Q : α → β → Prop}
    (h : ∀ a ∈ as, ∃ b, each a = .ok b ∧ Q a b) :
    ∃ bs, as.mapM each = .ok bs ∧ List.Forall₂ Q as bs := by
  induction as with
  | nil => exact ⟨[], rfl, .nil⟩
  | cons a as ih =>
    obtain ⟨b, hb, hQ⟩ := h a (by simp)
    obtain ⟨bs, hbs, hQs⟩ := ih fun a ha => h a (by simp [ha])
    refine ⟨b :: bs, ?_, .cons hQ hQs⟩
    rw [List.mapM_cons, hb, hbs]
    rfl

/-- What there is some of is written as a group. -/
theorem exists_group (name : Text) {each : α → Result Node} {as : List α} {Q : α → Node → Prop}
    (h : ∀ a ∈ as, ∃ n, each a = .ok n ∧ Q a n) :
    ∃ ns, groupOf name each as = .ok ns ∧ IsPiece name ns ∧
      ∀ n : Node, n.part? name = ns.head? → List.Forall₂ Q as (n.grouped name) := by
  cases as with
  | nil =>
    refine ⟨[], rfl, .none, fun n hpart => ?_⟩
    rw [Node.grouped, hpart]
    exact .nil
  | cons a as =>
    obtain ⟨children, hchildren, hread⟩ := exists_mapM h
    refine ⟨[group (some name) children], ?_, isPiece_group _ _, fun n hpart => ?_⟩
    · simp only [groupOf, List.isEmpty_cons, hchildren]
      rfl
    · rw [grouped_of_part? hpart]
      exact hread

/-- What there is some of is written as a group, and read back. -/
theorem exists_groupOf (name : Text) {each : α → Result Node} {as : List α}
    (h : ∀ a ∈ as, ∃ n, each a = .ok n ∧ ∀ path, read path n = .ok a) :
    ∃ ns, groupOf name each as = .ok ns ∧ IsPiece name ns ∧ ∀ (n : Node) (path : Text),
      n.part? name = ns.head? → (n.grouped name).mapM (read path) = .ok as := by
  obtain ⟨ns, hns, hpiece, hread⟩ := exists_group name h
  exact ⟨ns, hns, hpiece, fun n path hpart =>
    Result.mapM_eq_ok_iff.2 ((hread n hpart).flip.imp fun _ _ h => h path)⟩

end

theorem exists_optionInt {i? : Option Int} (h : ∀ i ∈ i?, IsInt i) (name : Text) :
    ∃ ns, optionLeaf intLeaf i? name = .ok ns ∧ IsPiece name ns ∧
      ∀ (n : Node) (path : Text), n.part? name = ns.head? → optional (intOf path) n name = .ok i? :=
  exists_optionLeaf fun i hi => by
    obtain ⟨n, hn, hholds, hname⟩ := exists_intLeaf (h i hi) (some name)
    exact ⟨n, hn, hname, hholds.isMember, fun path => hholds.intOf⟩

/-- An integer that is left out where it is zero. -/
theorem exists_intUnlessZero {i : Int} (h : IsInt i) (name : Text) :
    ∃ ns, (∀ {α : Type} (k : List Node → Result α),
        (if i = 0 then k [] else do k [← intLeaf i (some name)]) = k ns) ∧
      IsPiece name ns ∧ ∀ (n : Node) (path : Text), n.part? name = ns.head? →
        ∃ i?, optional (intOf path) n name = .ok i? ∧ i?.getD 0 = i := by
  by_cases hi : i = 0
  · refine ⟨[], fun k => if_pos hi, .none, fun n path hpart => ?_⟩
    exact ⟨none, optional_of_part?_none hpart, hi.symm⟩
  · obtain ⟨n, hn, hholds, hname⟩ := exists_intLeaf h (some name)
    refine ⟨[n], fun k => ?_, hholds.isPiece hname, fun n path hpart => ?_⟩
    · rw [if_neg hi, hn]
      rfl
    · exact ⟨some i, optional_of_part? hpart hholds.intOf, rfl⟩

theorem exists_optionText (t? : Option Text) (name : Text) :
    ∃ ns, optionLeaf textLeaf t? name = .ok ns ∧ IsPiece name ns ∧
      ∀ (n : Node) (path : Text), n.part? name = ns.head? → optional (textOf path) n name = .ok t? :=
  exists_optionLeaf fun t _ => by
    obtain ⟨n, hn, hholds, hname⟩ := exists_textLeaf t (some name)
    exact ⟨n, hn, hname, hholds.isMember, fun path => hholds.textOf⟩

end ClassTree.Tree
