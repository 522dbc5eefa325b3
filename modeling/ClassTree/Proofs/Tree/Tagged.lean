/-
# ClassTree.Proofs.Tree.Tagged — annotations of classes that come from trees

A leaf is an annotation value only under one of the ten tags for a name. So whatever a class has of
annotations when it is read of a tree, its scalars are tagged.
-/
import ClassTree.Proofs.Class.Legible
import ClassTree.Proofs.Result
import ClassTree.Proofs.Tree.Marker
import ClassTree.Tree.ToClass

namespace ClassTree

namespace Tree

variable {path name : Text} {n : Node}

/-! ## Annotations -/

/-- A scalar that has been read is tagged. -/
theorem isTagged_of_readScalar {tag : ElementTag} {v : ElementValue}
    (h : readScalar path tag n = .ok v) : v.IsTagged := by
  unfold readScalar at h
  split at h
  · next kind hkind =>
    obtain ⟨value, -, h⟩ := Result.bind_eq_ok_iff.1 h
    cases h
    show (Literal.elementKind? tag).isSome = true
    rw [hkind]
    rfl
  · cases h

/-- The values of an annotation are those that have been read for it. -/
theorem exists_of_readParts {values : Text → Result (List (Text × ElementValue))} {a : AnnotationUse}
    (h : readParts path n values = .ok a) : ∃ descriptor, values descriptor = .ok a.values := by
  unfold readParts at h
  split at h
  · obtain ⟨descriptor, -, h⟩ := Result.bind_eq_ok_iff.1 h
    obtain ⟨vs, hvs, h⟩ := Result.bind_eq_ok_iff.1 h
    obtain ⟨visible, -, h⟩ := Result.bind_eq_ok_iff.1 h
    cases h
    exact ⟨descriptor, hvs⟩
  · cases h

mutual

/-- A value that has been read is tagged. -/
theorem isTagged_of_readElement (path : Text) : ∀ (n : Node) {v : ElementValue},
    readElement path n = .ok v → v.IsTagged
  | ⟨base, name, line, data, text, children⟩, v, h => by
    have hproperties (descriptor : Text) := @areTaggedNamed_of_readProperties path descriptor children []
    have helements := @areTagged_of_readElements path children []
    rw [readElement_eq] at h
    split at h
    · obtain ⟨a, ha, h⟩ := Result.bind_eq_ok_iff.1 h
      cases h
      obtain ⟨descriptor, hvalues⟩ := exists_of_readParts ha
      exact hproperties descriptor trivial hvalues
    · split at h
      · obtain ⟨descriptor, -, h⟩ := Result.bind_eq_ok_iff.1 h
        obtain ⟨name, -, h⟩ := Result.bind_eq_ok_iff.1 h
        cases h
        trivial
      · split at h
        · obtain ⟨es, hes, h⟩ := Result.bind_eq_ok_iff.1 h
          cases h
          exact helements trivial hes
        · split at h
          · exact isTagged_of_readScalar h
          · cases h

theorem areTagged_of_readElements (path : Text) : ∀ (ns : List Node) (acc : List ElementValue)
    {vs : List ElementValue}, ElementValue.AreTagged acc → readElements path ns acc = .ok vs →
      ElementValue.AreTagged vs
  | [], acc, vs, hacc, h => by
    cases h
    rw [ElementValue.areTagged_iff] at hacc ⊢
    exact fun v hv => hacc v (List.mem_reverse.1 hv)
  | n :: rest, acc, vs, hacc, h => by
    rw [readElements] at h
    obtain ⟨v, hv, h⟩ := Result.bind_eq_ok_iff.1 h
    exact areTagged_of_readElements path rest (v :: acc) ⟨isTagged_of_readElement path n hv, hacc⟩ h

theorem areTaggedNamed_of_readProperties (path descriptor : Text) :
    ∀ (ns : List Node) (acc : List (Text × ElementValue)) {vs : List (Text × ElementValue)},
      ElementValue.AreTaggedNamed acc → readProperties path descriptor ns acc = .ok vs →
        ElementValue.AreTaggedNamed vs
  | [], acc, vs, hacc, h => by
    cases h
    rw [ElementValue.areTaggedNamed_iff] at hacc ⊢
    exact fun v hv => hacc v (List.mem_reverse.1 hv)
  | n :: rest, acc, vs, hacc, h => by
    rw [readProperties] at h
    obtain ⟨property?, hproperty, h⟩ := Result.bind_eq_ok_iff.1 h
    cases property? with
    | none => exact areTaggedNamed_of_readProperties path descriptor rest acc hacc h
    | some property =>
      have htagged := isTagged_of_readProperty path descriptor n hproperty
      exact areTaggedNamed_of_readProperties path descriptor rest (property :: acc) ⟨htagged, hacc⟩ h

/-- A property that has been read is tagged. -/
theorem isTagged_of_readProperty (path descriptor : Text) : ∀ (n : Node)
    {property : Text × ElementValue}, readProperty path descriptor n = .ok (some property) →
      property.2.IsTagged
  | ⟨base, name, line, data, text, [name', value]⟩, property, h => by
    rw [readProperty] at h
    split at h
    · obtain ⟨name, -, h⟩ := Result.bind_eq_ok_iff.1 h
      obtain ⟨v, hv, h⟩ := Result.bind_eq_ok_iff.1 h
      cases h
      exact isTagged_of_readElement path value hv
    · cases h
  | ⟨base, name, line, data, text, []⟩, property, h => by
    simp only [readProperty] at h
    split at h <;> cases h
  | ⟨base, name, line, data, text, [_]⟩, property, h => by
    simp only [readProperty] at h
    split at h <;> cases h
  | ⟨base, name, line, data, text, _ :: _ :: _ :: _⟩, property, h => by
    simp only [readProperty] at h
    split at h <;> cases h

end

theorem isTagged_of_readAnnotationUses {as : List AnnotationUse}
    (h : readAnnotationUses path n = .ok as) : ∀ a ∈ as, a.IsTagged := by
  intro a ha
  obtain ⟨m, -, hm⟩ := Result.exists_of_mem_right (Result.mapM_eq_ok_iff.1 h) ha
  obtain ⟨descriptor, hvalues⟩ := exists_of_readParts hm
  exact areTaggedNamed_of_readProperties path descriptor m.children [] trivial hvalues

/-! ## Members -/

theorem isTagged_of_readField {f : Field} (h : readField path n = .ok f) :
    ∀ a ∈ f.annotations, a.IsTagged := by
  obtain ⟨_, -, h⟩ := Result.bind_eq_ok_iff.1 h
  obtain ⟨_, -, h⟩ := Result.bind_eq_ok_iff.1 h
  obtain ⟨_, -, h⟩ := Result.bind_eq_ok_iff.1 h
  obtain ⟨_, -, h⟩ := Result.bind_eq_ok_iff.1 h
  obtain ⟨_, -, h⟩ := Result.bind_eq_ok_iff.1 h
  obtain ⟨annotations, hannotations, h⟩ := Result.bind_eq_ok_iff.1 h
  obtain ⟨_, -, h⟩ := Result.bind_eq_ok_iff.1 h
  cases h
  exact isTagged_of_readAnnotationUses hannotations

theorem isTagged_of_readParameter {p : Parameter} (h : readParameter path n = .ok p) :
    ∀ a ∈ p.annotations, a.IsTagged := by
  obtain ⟨⟨_, _⟩, -, h⟩ := Result.bind_eq_ok_iff.1 h
  obtain ⟨annotations, hannotations, h⟩ := Result.bind_eq_ok_iff.1 h
  obtain ⟨_, -, h⟩ := Result.bind_eq_ok_iff.1 h
  obtain ⟨_, -, h⟩ := Result.bind_eq_ok_iff.1 h
  cases h
  exact isTagged_of_readAnnotationUses hannotations

/-- The default value of a method is tagged. -/
theorem isTagged_of_readDefault {place : Text} {v? : Option ElementValue}
    (h : readDefault path place n = .ok v?) : ∀ v ∈ v?, v.IsTagged := by
  unfold readDefault at h
  split at h
  · cases h
    intro v hv
    cases hv
  · split at h
    · obtain ⟨v, hv, h⟩ := Result.bind_eq_ok_iff.1 h
      cases h
      rintro _ ⟨⟩
      exact isTagged_of_readElement path _ hv
    · cases h

theorem isTagged_of_readMethod {className : Text} {m : Method}
    (h : readMethod path className n = .ok m) : m.IsTagged := by
  obtain ⟨_, -, h⟩ := Result.bind_eq_ok_iff.1 h
  obtain ⟨_, -, h⟩ := Result.bind_eq_ok_iff.1 h
  obtain ⟨_, -, h⟩ := Result.bind_eq_ok_iff.1 h
  obtain ⟨_, -, h⟩ := Result.bind_eq_ok_iff.1 h
  obtain ⟨⟨_, _⟩, -, h⟩ := Result.bind_eq_ok_iff.1 h
  obtain ⟨default, hdefault, h⟩ := Result.bind_eq_ok_iff.1 h
  obtain ⟨_, -, h⟩ := Result.bind_eq_ok_iff.1 h
  obtain ⟨_, -, h⟩ := Result.bind_eq_ok_iff.1 h
  obtain ⟨parameters, hparameters, h⟩ := Result.bind_eq_ok_iff.1 h
  obtain ⟨annotations, hannotations, h⟩ := Result.bind_eq_ok_iff.1 h
  obtain ⟨_, -, h⟩ := Result.bind_eq_ok_iff.1 h
  obtain ⟨_, -, h⟩ := Result.bind_eq_ok_iff.1 h
  obtain ⟨_, -, h⟩ := Result.bind_eq_ok_iff.1 h
  obtain ⟨_, -, h⟩ := Result.bind_eq_ok_iff.1 h
  obtain ⟨_, -, h⟩ := Result.bind_eq_ok_iff.1 h
  cases h
  refine ⟨isTagged_of_readAnnotationUses hannotations, fun p hp => ?_, isTagged_of_readDefault hdefault⟩
  obtain ⟨_, -, hread⟩ := Result.exists_of_mem_right (Result.mapM_eq_ok_iff.1 hparameters) hp
  exact isTagged_of_readParameter hread

/-! ## Classes -/

/-- The members that have been read are tagged. -/
structure Members.AreTagged (m : Members) : Prop where
  fields : ∀ f ∈ m.fields, ∀ a ∈ f.annotations, a.IsTagged
  methods : ∀ method ∈ m.methods, Method.IsTagged method

theorem areTagged_of_readMember {className : Text} {m m' : Members} (hm : m.AreTagged)
    (h : readMember path className m n = .ok m') : m'.AreTagged := by
  unfold readMember at h
  split at h
  · obtain ⟨f, hf, h⟩ := Result.bind_eq_ok_iff.1 h
    cases h
    exact ⟨List.forall_mem_cons.2 ⟨isTagged_of_readField hf, hm.fields⟩, hm.methods⟩
  · split at h
    · obtain ⟨method, hmethod, h⟩ := Result.bind_eq_ok_iff.1 h
      cases h
      exact ⟨hm.fields, List.forall_mem_cons.2 ⟨isTagged_of_readMethod hmethod, hm.methods⟩⟩
    · cases h
      exact hm

/-- A class is tagged and keeps its name. -/
theorem isTagged_of_readNamed {c : Class} (h : readNamed name n = .ok c) :
    c.IsTagged ∧ c.name = name := by
  obtain ⟨_, -, h⟩ := Result.bind_eq_ok_iff.1 h
  obtain ⟨_, -, h⟩ := Result.bind_eq_ok_iff.1 h
  obtain ⟨_, -, h⟩ := Result.bind_eq_ok_iff.1 h
  obtain ⟨_, -, h⟩ := Result.bind_eq_ok_iff.1 h
  obtain ⟨_, -, h⟩ := Result.bind_eq_ok_iff.1 h
  obtain ⟨members, hmembers, h⟩ := Result.bind_eq_ok_iff.1 h
  obtain ⟨_, -, h⟩ := Result.bind_eq_ok_iff.1 h
  obtain ⟨_, -, h⟩ := Result.bind_eq_ok_iff.1 h
  obtain ⟨annotations, hannotations, h⟩ := Result.bind_eq_ok_iff.1 h
  obtain ⟨_, -, h⟩ := Result.bind_eq_ok_iff.1 h
  obtain ⟨_, -, h⟩ := Result.bind_eq_ok_iff.1 h
  cases h
  have htagged := Result.of_foldlM_eq_ok (I := Members.AreTagged)
    (fun _ _ _ hm hread => areTagged_of_readMember hm hread) ⟨by simp, by simp⟩ hmembers
  exact ⟨⟨isTagged_of_readAnnotationUses hannotations,
    fun f hf => htagged.fields f (List.mem_reverse.1 hf),
    fun m hm => htagged.methods m (List.mem_reverse.1 hm)⟩, rfl⟩

end Tree

/-- A class that has been read of a tree is tagged and has a name. -/
theorem Class.isTagged_of_ofTree {n : Tree.Node} {c : Class} (h : ofTree n = .ok c) :
    c.IsTagged ∧ c.name ≠ [] := by
  unfold ofTree at h
  split at h
  · split at h
    · obtain ⟨htagged, hname⟩ := Tree.isTagged_of_readNamed h
      exact ⟨htagged, hname ▸ by simp [Text.replace]⟩
    · cases h
  · cases h

end ClassTree
