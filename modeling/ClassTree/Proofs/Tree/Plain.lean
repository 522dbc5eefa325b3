/-
# ClassTree.Proofs.Tree.Plain — the strings and the markers of a tree of a class

A tree holds most of what a class says in hexadecimal digits, which may stand for any text. Only the
names of the class, of its members and of its attributes stand in it as they are. If none of these
has a line feed, no string of the tree has one. A tree has no line markers before its nodes are
numbered, and after that its root has the greatest one: the number of all nodes that are no leaves.
Each of these stands for a part of the class (`Class.entities`).
-/
import ClassTree.Proofs.Literal
import ClassTree.Proofs.Result
import ClassTree.Proofs.Text.Base64
import ClassTree.Proofs.Tree.Reading
import ClassTree.Tree.OfClass

namespace ClassTree

/-! ## Names -/

/-- The names of a field and of its attributes stand in one line each. -/
structure Field.HasOneLineNames (f : Field) : Prop where
  name : 0x0A ∉ f.name
  attributes : ∀ a ∈ f.attributes, 0x0A ∉ a.name

/-- The names of a method and of its attributes stand in one line each. -/
structure Method.HasOneLineNames (m : Method) : Prop where
  name : 0x0A ∉ m.name
  attributes : ∀ a ∈ m.attributes, 0x0A ∉ a.name
  codeAttributes : ∀ a ∈ m.codeAttributes, 0x0A ∉ a.name

/-- The names of a class, of its members and of all attributes stand in one line each. -/
structure Class.HasOneLineNames (c : Class) : Prop where
  name : 0x0A ∉ c.name
  attributes : ∀ a ∈ c.attributes, 0x0A ∉ a.name
  fields : ∀ f ∈ c.fields, f.HasOneLineNames
  methods : ∀ m ∈ c.methods, m.HasOneLineNames

/-! ## How many nodes are no leaves -/

namespace ElementValue

mutual

/-- How many nodes of the tree of a value are no leaves. -/
def entities : ElementValue → Nat
  | .scalar _ _ => 0
  | .enum _ _ => 1
  | .nested _ _ values => 1 + entitiesNamed values
  | .array elements => 1 + entitiesAll elements

/-- Values in a row. -/
def entitiesAll : List ElementValue → Nat
  | [] => 0
  | v :: rest => entities v + entitiesAll rest

/-- Named values in a row, each with a node around it. -/
def entitiesNamed : List (Text × ElementValue) → Nat
  | [] => 0
  | (_, v) :: rest => 1 + entities v + entitiesNamed rest

end

end ElementValue

/-- How many nodes of the tree of an annotation are no leaves. -/
def AnnotationUse.entities (a : AnnotationUse) : Nat := 1 + ElementValue.entitiesNamed a.values

/-- Annotations in a row. -/
def AnnotationUse.entitiesAll (as : List AnnotationUse) : Nat := (as.map entities).sum

/-- How many nodes of the tree of an instruction are no leaves: the instruction, a constant that it
loads or the groups of a switch; the arguments of a call site may be constants with parts. -/
def Instruction.entities {τ : Type} : Instruction τ → Nat
  | .callSite _ _ _ arguments => 3 + arguments.length
  | _ => 3

/-- How many nodes of the tree of an item are no leaves. -/
def Item.entities : Item → Nat
  | .label _ => 0
  | .line _ => 1
  | .frame f => 3 + f.locals.length + f.stack.length
  | .instruction i => i.entities

/-- How many nodes of the tree of a parameter are no leaves. -/
def Parameter.entities (p : Parameter) : Nat := 2 + AnnotationUse.entitiesAll p.annotations

/-- How many nodes of the tree of a field are no leaves. -/
def Field.entities (f : Field) : Nat :=
  3 + AnnotationUse.entitiesAll f.annotations + f.attributes.length

/-- How many nodes of the tree of a method are no leaves: the method and up to ten groups, and what
stands in them. -/
def Method.entities (m : Method) : Nat :=
  11 + (m.parameters.map Parameter.entities).sum + (m.body.map Item.entities).sum
    + m.handlers.length + m.localVariables.length + AnnotationUse.entitiesAll m.annotations
    + (m.default.map ElementValue.entities).getD 0 + m.attributes.length + m.codeAttributes.length

/-- How many nodes of the tree of a class are no leaves: the class, the version, the method around it
and up to four groups, and what stands in them. -/
def Class.entities (c : Class) : Nat :=
  7 + AnnotationUse.entitiesAll c.annotations + c.innerClasses.length + c.attributes.length
    + (c.fields.map Field.entities).sum + (c.methods.map Method.entities).sum

/-! ## Results of a sort -/

namespace Result

variable {α β : Type} {x : Result α} {f : α → Result β} {P : α → Prop} {Q : β → Prop}

/-- What a step gives, if it does not fail, is of a sort. -/
def Gives (x : Result α) (P : α → Prop) : Prop := ∀ a, x = .ok a → P a

theorem Gives.ok {a : α} (h : P a) : Gives (.ok a) P := by
  rintro b ⟨⟩
  exact h

theorem Gives.error (e : Error) : Gives (.error e : Result α) P := nofun

theorem Gives.imp {P' : α → Prop} (h : Gives x P) (hP : ∀ a, P a → P' a) : Gives x P' :=
  fun a ha => hP a (h a ha)

theorem Gives.bind (h : Gives x P) (hf : ∀ a, P a → Gives (f a) Q) : Gives (x >>= f) Q := by
  intro b hb
  obtain ⟨a, ha, hb⟩ := bind_eq_ok_iff.1 hb
  exact hf a (h a ha) b hb

end Result

namespace Tree

open Result (Gives)

/-! ## Plain trees -/

namespace Node

mutual

/-- How many nodes of a tree are no leaves. -/
def entities : Node → Nat
  | ⟨_, _, _, data, _, children⟩ =>
    (if data = some leafMark then 0 else 1) + entitiesAll children

/-- Trees in a row. -/
def entitiesAll : List Node → Nat
  | [] => 0
  | n :: rest => entities n + entitiesAll rest

end

theorem entitiesAll_eq (ns : List Node) : entitiesAll ns = (ns.map entities).sum := by
  induction ns with
  | nil => rfl
  | cons n ns ih => rw [entitiesAll, ih, List.map_cons, List.sum_cons]

/-- No string of the node has a line feed, and the node has no marker. -/
structure IsPlain (n : Node) : Prop where
  strings : n.IsOneLine
  line : n.line = none

/-- All nodes of the tree are plain, and so many of them at most are no leaves. -/
structure IsPlainTo (k : Nat) (n : Node) : Prop where
  plain : n.All IsPlain
  entities_le : n.entities ≤ k

theorem IsPlainTo.mono {k k' : Nat} {n : Node} (h : n.IsPlainTo k) (hk : k ≤ k') : n.IsPlainTo k' :=
  ⟨h.plain, h.entities_le.trans hk⟩

end Node

/-- All nodes of the trees are plain, and so many of them at most are no leaves. -/
structure ArePlainTo (k : Nat) (ns : List Node) : Prop where
  plain : ∀ n ∈ ns, n.All Node.IsPlain
  entities_le : Node.entitiesAll ns ≤ k

/-- A name that may be missing has no line feed. -/
def IsOneLineName (name : Option Text) : Prop := ∀ t ∈ name, 0x0A ∉ t

theorem isOneLineName_none : IsOneLineName none := nofun

theorem isOneLineName_some {t : Text} (h : 0x0A ∉ t) : IsOneLineName (some t) := by
  rintro _ ⟨⟩
  exact h

namespace ArePlainTo

variable {k k' : Nat} {n : Node} {ns ns' : List Node}

theorem nil : ArePlainTo 0 [] := ⟨nofun, Nat.le_refl 0⟩

theorem cons (h : n.IsPlainTo k) (hns : ArePlainTo k' ns) : ArePlainTo (k + k') (n :: ns) where
  plain := List.forall_mem_cons.2 ⟨h.plain, hns.plain⟩
  entities_le := by
    rw [Node.entitiesAll]
    exact Nat.add_le_add h.entities_le hns.entities_le

theorem one (h : n.IsPlainTo k) : ArePlainTo k [n] := cons h nil

theorem append (h : ArePlainTo k ns) (h' : ArePlainTo k' ns') : ArePlainTo (k + k') (ns ++ ns') where
  plain := List.forall_mem_append.2 ⟨h.plain, h'.plain⟩
  entities_le := by
    rw [Node.entitiesAll_eq, List.map_append, List.sum_append, ← Node.entitiesAll_eq,
      ← Node.entitiesAll_eq]
    exact Nat.add_le_add h.entities_le h'.entities_le

theorem reverse (h : ArePlainTo k ns) : ArePlainTo k ns.reverse where
  plain n hn := h.plain n (List.mem_reverse.1 hn)
  entities_le := by
    rw [Node.entitiesAll_eq, List.map_reverse, List.sum_reverse, ← Node.entitiesAll_eq]
    exact h.entities_le

theorem mono (h : ArePlainTo k ns) (hk : k ≤ k') : ArePlainTo k' ns :=
  ⟨h.plain, h.entities_le.trans hk⟩

end ArePlainTo

/-- Nodes for the parts of something, each with as many entities as its part has. -/
theorem gives_mapM {α : Type} {each : α → Result Node} {w : α → Nat} {parts : List α}
    (h : ∀ a ∈ parts, Gives (each a) (Node.IsPlainTo (w a))) :
    Gives (parts.mapM each) (ArePlainTo (parts.map w).sum) := by
  intro ns hns
  have hall := Result.mapM_eq_ok_iff.1 hns
  clear hns
  induction hall with
  | nil => exact .nil
  | cons ha _ ih =>
    exact .cons (h _ List.mem_cons_self _ ha) (ih fun a ha => h a (List.mem_cons_of_mem _ ha))

theorem plain_entity {base : Text} {name : Option Text} {children : List Node} {k : Nat}
    (hbase : 0x0A ∉ base) (hname : IsOneLineName name) (hchildren : ArePlainTo k children) :
    (entity base name children).IsPlainTo (1 + k) := by
  refine ⟨.mk ⟨?_, rfl⟩ hchildren.plain, Nat.add_le_add_left hchildren.entities_le 1⟩
  intro value hvalue t ht
  simp only [entity, List.mem_cons, List.not_mem_nil, or_false] at hvalue
  rcases hvalue with rfl | rfl | rfl | rfl
  · cases ht
    exact hbase
  · exact hname t ht
  · cases ht
  · cases ht

theorem plain_group {name : Option Text} {children : List Node} {k : Nat} (hname : IsOneLineName name)
    (hchildren : ArePlainTo k children) : (group name children).IsPlainTo (1 + k) :=
  plain_entity (by decide) hname hchildren

/-- What stands in a joined text stands in one of its parts or in the separator. -/
theorem mem_of_mem_join {separator : Text} {texts : List Text} {c : CodePoint}
    (h : c ∈ Text.join separator texts) : c ∈ separator ∨ ∃ t ∈ texts, c ∈ t := by
  induction texts with
  | nil => cases h
  | cons t texts ih =>
    cases texts with
    | nil =>
      rw [Text.join, List.intersperse_singleton, List.flatten_singleton] at h
      exact .inr ⟨t, by simp, h⟩
    | cons t' texts =>
      rw [Text.join, List.intersperse_cons_cons, List.flatten_cons, List.flatten_cons,
        List.mem_append, List.mem_append] at h
      rcases h with h | h | h
      · exact .inr ⟨t, by simp, h⟩
      · exact .inl h
      · rcases ih h with hc | ⟨u, hu, hc⟩
        · exact .inl hc
        · exact .inr ⟨u, List.mem_cons_of_mem t hu, hc⟩

theorem notMem_hex (bytes : Bytes) : 0x0A ∉ Hex.render bytes := by
  intro h
  rcases mem_of_mem_join h with h | ⟨t, ht, h⟩
  · revert h
    decide
  · obtain ⟨b, -, rfl⟩ := List.mem_map.1 ht
    have hdigit : ∀ n < 16, (0x0A : CodePoint) ≠ Hex.digit n := by decide
    have := b.toNat_lt
    rcases List.mem_pair.1 h with h | h
    · exact hdigit _ (by omega) h
    · exact hdigit _ (by omega) h

/-- Text in base 64 stands in one line. -/
theorem notMem_base64 (bytes : Bytes) : 0x0A ∉ Base64.render bytes := by
  have hdigit : ∀ n < 64, Base64.digit n ≠ 0x0A := by decide +kernel
  intro h
  rw [Base64.render_eq, List.mem_append] at h
  rcases h with h | h
  · obtain ⟨n, hn, heq⟩ := List.mem_map.1 h
    exact hdigit n (Base64.value_lt hn) heq
  · have := List.eq_of_mem_replicate h
    revert this
    decide

theorem notMem_kindName (kind : Literal.Kind) : 0x0A ∉ kind.name := by cases kind <;> decide

/-! ## Leaves -/

theorem gives_leaf {kind : Literal.Kind} {v : Constant} {name : Option Text}
    (hname : IsOneLineName name) : Gives (Node.leaf kind v name) (Node.IsPlainTo 0) := by
  have htext : Gives (Literal.encodeAs kind v) fun t => 0x0A ∉ t := by
    intro t ht
    obtain ⟨bytes, -, rfl⟩ := Result.map_eq_ok_iff.1 ht
    exact notMem_hex bytes
  refine htext.bind fun t ht => .ok ⟨.mk ⟨?_, rfl⟩ nofun, Nat.le_refl 0⟩
  intro value hvalue s hs
  simp only [List.mem_cons, List.not_mem_nil, or_false] at hvalue
  rcases hvalue with rfl | rfl | rfl | rfl
  · cases hs
    exact notMem_kindName kind
  · exact hname s hs
  · cases hs
    decide
  · cases hs
    exact ht

/-- A leaf for a text that has to be there. -/
theorem gives_nameLeaf {t : Option Text} {name : Option Text} (hname : IsOneLineName name) :
    Gives (nameLeaf t name) (Node.IsPlainTo 0) := by
  cases t with
  | none => exact .error _
  | some t => exact gives_leaf hname

theorem gives_optionLeaf {α : Type} {leaf : α → Option Text → Result Node} {value : Option α}
    {name : Text} (h : ∀ a, Gives (leaf a (some name)) (Node.IsPlainTo 0)) :
    Gives (optionLeaf leaf value name) (ArePlainTo 0) := by
  cases value with
  | none => exact .ok .nil
  | some a => exact (h a).bind fun n hn => .ok (.cons hn .nil)

theorem gives_optionText {t : Option Text} {name : Text} (hname : 0x0A ∉ name) :
    Gives (optionLeaf textLeaf t name) (ArePlainTo 0) :=
  gives_optionLeaf fun _ => gives_leaf (isOneLineName_some hname)

theorem gives_optionInt {i : Option Int} {name : Text} (hname : 0x0A ∉ name) :
    Gives (optionLeaf intLeaf i name) (ArePlainTo 0) :=
  gives_optionLeaf fun _ => gives_leaf (isOneLineName_some hname)

/-- A group of what there is some of. -/
theorem gives_groupOf {α : Type} {name : Text} {each : α → Result Node} {w : α → Nat}
    {parts : List α} (hname : 0x0A ∉ name)
    (h : ∀ a ∈ parts, Gives (each a) (Node.IsPlainTo (w a))) :
    Gives (groupOf name each parts) (ArePlainTo (1 + (parts.map w).sum)) := by
  unfold groupOf
  split
  · exact .ok (ArePlainTo.nil.mono (Nat.zero_le _))
  · exact (gives_mapM h).bind fun ns hns =>
      .ok (.one (plain_group (isOneLineName_some hname) hns))

/-- A group of leaves. -/
theorem gives_groupOf_leaves {α : Type} {name : Text} {each : α → Result Node} {parts : List α}
    (hname : 0x0A ∉ name) (h : ∀ a, Gives (each a) (Node.IsPlainTo 0)) :
    Gives (groupOf name each parts) (ArePlainTo 1) := by
  refine (gives_groupOf (w := fun _ => 0) hname fun a _ => h a).imp fun ns hns => hns.mono ?_
  simp

/-- A group of parts that have one node besides leaves each. -/
theorem gives_groupOf_ones {α : Type} {name : Text} {each : α → Result Node} {parts : List α}
    (hname : 0x0A ∉ name) (h : ∀ a ∈ parts, Gives (each a) (Node.IsPlainTo 1)) :
    Gives (groupOf name each parts) (ArePlainTo (1 + parts.length)) := by
  refine (gives_groupOf (w := fun _ => 1) hname h).imp fun ns hns => hns.mono ?_
  simp

/-! ## Annotations -/

mutual

theorem gives_ofElement : ∀ v : ElementValue, Gives (ofElement v) (Node.IsPlainTo v.entities)
  | .scalar tag v => by
    unfold ofElement ElementValue.entities
    split
    · next kind hkind =>
      refine gives_leaf (isOneLineName_some ?_)
      cases tag with
      | unknown letters => cases hkind
      | _ => decide
    · exact .error _
  | .enum descriptor name => by
    unfold ofElement ElementValue.entities
    refine (gives_leaf (isOneLineName_some (by decide))).bind fun d hd => ?_
    refine (gives_leaf (isOneLineName_some (by decide))).bind fun n hn => ?_
    exact .ok (plain_entity (by decide) isOneLineName_none (.cons hd (.cons hn .nil)))
  | .nested descriptor visible values => by
    unfold ofElement ElementValue.entities
    exact gives_ofParts descriptor visible values
  | .array elements => by
    unfold ofElement ElementValue.entities
    exact (gives_ofElements elements .nil).bind fun ns hns =>
      .ok ((plain_group (isOneLineName_some (by decide)) hns).mono (by omega))

theorem gives_ofParts (descriptor : Text) (visible : Bool) (values : List (Text × ElementValue)) :
    Gives (ofParts descriptor visible values)
      (Node.IsPlainTo (1 + ElementValue.entitiesNamed values)) := by
  unfold ofParts
  refine (gives_leaf (isOneLineName_some (by decide))).bind fun d hd => ?_
  refine (gives_leaf (isOneLineName_some (by decide))).bind fun v hv => ?_
  refine (gives_ofNamed values .nil).bind fun ns hns => ?_
  exact .ok ((plain_entity (by decide) isOneLineName_none (.cons hd (.cons hv hns))).mono (by omega))

theorem gives_ofElements : ∀ (vs : List ElementValue) {acc : List Node} {k : Nat}, ArePlainTo k acc →
    Gives (ofElements vs acc) (ArePlainTo (k + ElementValue.entitiesAll vs))
  | [], acc, k, hacc => by
    unfold ofElements
    exact .ok hacc.reverse
  | v :: rest, acc, k, hacc => by
    unfold ofElements ElementValue.entitiesAll
    exact (gives_ofElement v).bind fun n hn =>
      (gives_ofElements rest (.cons hn hacc)).imp fun ns hns => hns.mono (by omega)

theorem gives_ofNamed : ∀ (vs : List (Text × ElementValue)) {acc : List Node} {k : Nat},
    ArePlainTo k acc → Gives (ofNamed vs acc) (ArePlainTo (k + ElementValue.entitiesNamed vs))
  | [], acc, k, hacc => by
    unfold ofNamed
    exact .ok hacc.reverse
  | (name, v) :: rest, acc, k, hacc => by
    unfold ofNamed ElementValue.entitiesNamed
    refine (gives_leaf isOneLineName_none).bind fun n hn => ?_
    refine (gives_ofElement v).bind fun value hvalue => ?_
    refine (gives_ofNamed rest (.cons (plain_entity (by decide) isOneLineName_none
      (.cons hn (.cons hvalue .nil))) hacc)).imp fun ns hns => hns.mono ?_
    omega

end

theorem gives_ofAnnotationUses (as : List AnnotationUse) :
    Gives (ofAnnotationUses as) (ArePlainTo (1 + AnnotationUse.entitiesAll as)) :=
  gives_groupOf (by decide) fun a _ => gives_ofParts a.descriptor a.visible a.values

/-! ## Bodies -/

theorem gives_ofHandle (h : Handle) : Gives (ofHandle h) (Node.IsPlainTo 1) := by
  unfold ofHandle
  refine (gives_leaf isOneLineName_none).bind fun kind hkind => ?_
  refine (gives_nameLeaf isOneLineName_none).bind fun owner howner => ?_
  refine (gives_leaf isOneLineName_none).bind fun name hname => ?_
  refine (gives_leaf isOneLineName_none).bind fun descriptor hdescriptor => ?_
  refine (gives_leaf isOneLineName_none).bind fun interface hinterface => ?_
  exact .ok (plain_entity (by decide) isOneLineName_none (.cons hkind (.cons howner (.cons hname
    (.cons hdescriptor (.cons hinterface .nil))))))

theorem gives_ofConstant (kind : Text) (v : Constant) :
    Gives (ofConstant kind v) (Node.IsPlainTo 1) := by
  unfold ofConstant
  split
  · split
    · exact gives_ofHandle _
    · exact .error _
  · unfold Literal.encodeNamed
    split
    · next k hk =>
      have hname : k.name = kind := by simpa using List.find?_some hk
      subst hname
      exact (gives_leaf isOneLineName_none).imp fun n hn => hn.mono (Nat.zero_le 1)
    · exact .error _

theorem gives_leaves {α : Type} {kind : Literal.Kind} {value : α → Constant} (as : List α) :
    Gives (as.mapM fun a => Node.leaf kind (value a) none) (ArePlainTo 0) := by
  refine (gives_mapM (w := fun _ => 0) fun _ _ => gives_leaf isOneLineName_none).imp
    fun ns hns => hns.mono ?_
  simp

/-- An instruction has one node that is no leaf besides those of its operands. -/
theorem gives_ofOperands (i : Instruction Label) :
    Gives (ofOperands i) (ArePlainTo (i.entities - 1)) := by
  have hleaf {kind : Literal.Kind} {v : Constant} : Gives (Node.leaf kind v none) (Node.IsPlainTo 0) :=
    gives_leaf isOneLineName_none
  have hname {t : Option Text} : Gives (nameLeaf t none) (Node.IsPlainTo 0) :=
    gives_nameLeaf isOneLineName_none
  -- all but call sites have two nodes for their operands at most
  have htwo {ns : List Node} {k : Nat} (hns : ArePlainTo k ns) (hk : k ≤ 2) : ArePlainTo (3 - 1) ns :=
    hns.mono hk
  unfold ofOperands Instruction.entities
  split
  · exact .ok (htwo .nil (by omega))
  · exact hleaf.bind fun n hn => .ok (htwo (.cons hn .nil) (by omega))
  · exact hleaf.bind fun n hn => .ok (htwo (.cons hn .nil) (by omega))
  · exact hleaf.bind fun a ha => hleaf.bind fun b hb =>
      .ok (htwo (.cons ha (.cons hb .nil)) (by omega))
  · exact (gives_ofConstant _ _).bind fun n hn => .ok (htwo (.cons hn .nil) (by omega))
  · split
    · exact hleaf.bind fun n hn => .ok (htwo (.cons hn .nil) (by omega))
    · exact .error _
  · exact hname.bind fun a ha => hleaf.bind fun b hb => hleaf.bind fun c hc =>
      .ok (htwo (.cons ha (.cons hb (.cons hc .nil))) (by omega))
  · exact hname.bind fun a ha => hleaf.bind fun b hb => hleaf.bind fun c hc => hleaf.bind fun d hd =>
      .ok (htwo (.cons ha (.cons hb (.cons hc (.cons hd .nil)))) (by omega))
  · refine hleaf.bind fun a ha => hleaf.bind fun b hb => (gives_ofHandle _).bind fun c hc => ?_
    refine (gives_mapM (w := fun _ => 1) fun argument _ =>
      gives_ofConstant argument.1 argument.2).bind fun ds hds => ?_
    refine .ok ((ArePlainTo.cons ha (.cons hb (.cons hc
      (.cons (plain_group (isOneLineName_some (by decide)) hds) .nil)))).mono ?_)
    simp only [List.map_const', List.sum_replicate_nat]
    omega
  · exact hleaf.bind fun n hn => .ok (htwo (.cons hn .nil) (by omega))
  · refine hleaf.bind fun a ha => hleaf.bind fun b hb => hleaf.bind fun c hc => ?_
    refine (gives_leaves _).bind fun ds hds => ?_
    exact .ok (htwo (.cons ha (.cons hb (.cons hc
      (.cons (plain_group (isOneLineName_some (by decide)) hds) .nil)))) (by omega))
  · refine hleaf.bind fun a ha => (gives_leaves _).bind fun bs hbs => ?_
    refine (gives_leaves _).bind fun cs hcs => ?_
    exact .ok (htwo (.cons ha (.cons (plain_group (isOneLineName_some (by decide)) hbs)
      (.cons (plain_group (isOneLineName_some (by decide)) hcs) .nil))) (by omega))
  · exact hname.bind fun a ha => hleaf.bind fun b hb =>
      .ok (htwo (.cons ha (.cons hb .nil)) (by omega))

theorem notMem_of_mem_names : ∀ t ∈ VerificationType.names, (0x0A : CodePoint) ∉ t := by decide

theorem gives_nameAt (i : Nat) : Gives (match VerificationType.names[i]? with
    | some name => .ok name
    | none => .error (.undefined .index)) fun t => 0x0A ∉ t := by
  split
  · next name hfound => exact .ok (notMem_of_mem_names _ (List.mem_of_getElem? hfound))
  · exact .error _

theorem gives_ofType (v : VerificationType) : Gives (ofType v) (Node.IsPlainTo 1) := by
  have hleaf {kind : Literal.Kind} {v : Constant} :
      Gives (do return [← Node.leaf kind v none]) (ArePlainTo 0) :=
    (gives_leaf isOneLineName_none).bind fun n hn => .ok (.cons hn .nil)
  have hpayload : Gives (ofPayload v) (ArePlainTo 0) := by
    unfold ofPayload
    split
    · split
      · exact hleaf
      · exact .error _
    · split
      · split
        · exact hleaf
        · exact hleaf
        · exact .error _
      · exact .ok .nil
  have hname : Gives (typeName v.tag) fun t => 0x0A ∉ t := by
    unfold typeName
    dsimp only
    split
    · split
      · exact .error _
      · exact gives_nameAt _
    · exact gives_nameAt _
  unfold ofType
  exact hpayload.bind fun ns hns => hname.bind fun t ht =>
    .ok (plain_entity (by decide) (isOneLineName_some ht) hns)

theorem gives_ofFrame {f : Frame} (hf : f.kind ∈ FrameKind.all) :
    Gives (ofFrame f) (Node.IsPlainTo (Item.frame f).entities) := by
  have hkind : ∀ kind ∈ FrameKind.all, (0x0A : CodePoint) ∉ kind.name := by decide
  have htypes (vs : List VerificationType) : Gives (vs.mapM ofType) (ArePlainTo vs.length) := by
    refine (gives_mapM (w := fun _ => 1) fun v _ => gives_ofType v).imp
      fun ns hns => hns.mono ?_
    simp
  unfold ofFrame
  refine (htypes f.locals).bind fun locals hlocals => ?_
  refine (htypes f.stack).bind fun stack hstack => ?_
  have hgroups : ArePlainTo (1 + f.locals.length + (1 + f.stack.length))
      [group (some "locals") locals, group (some "stack") stack] :=
    .cons (plain_group (isOneLineName_some (by decide)) hlocals)
      (.one (plain_group (isOneLineName_some (by decide)) hstack))
  have hframe (chop : List Node) (hchop : ArePlainTo 0 chop) :
      (entity "frame" (some f.kind.name)
        ([group (some "locals") locals, group (some "stack") stack] ++ chop)).IsPlainTo
          (Item.frame f).entities := by
    refine (plain_entity (by decide) (isOneLineName_some (hkind _ hf))
      (.append hgroups hchop)).mono ?_
    rw [Item.entities]
    omega
  dsimp only
  split
  · exact .ok (hframe [] .nil)
  · exact (gives_leaf (isOneLineName_some (by decide))).bind fun n hn =>
      .ok (hframe [n] (.cons hn .nil))

theorem gives_ofItem {i : Item} (hi : i.IsSound) : Gives (ofItem i) (Node.IsPlainTo i.entities) := by
  cases i with
  | label l => exact gives_leaf isOneLineName_none
  | line n =>
    exact (gives_leaf isOneLineName_none).bind fun a ha =>
      .ok (plain_entity (by decide) isOneLineName_none (.cons ha .nil))
  | frame f => exact gives_ofFrame (Frame.IsSound.kind hi)
  | instruction i =>
    have hname : 0x0A ∉ opcodeName i.opcode := by
      have hmnemonic (op : Opcode) : 0x0A ∉ op.mnemonic := by cases op <;> decide
      unfold opcodeName
      rw [List.mem_append, List.mem_cons, not_or, not_or]
      exact ⟨hmnemonic _, by decide, Scan.notMem_ofInt (i.opcode.code : Int)⟩
    refine (gives_ofOperands i).bind fun ns hns =>
      .ok ((plain_entity (by decide) (isOneLineName_some hname) hns).mono ?_)
    have hpos : 3 ≤ i.entities := by
      unfold Instruction.entities
      split <;> omega
    show 1 + (i.entities - 1) ≤ i.entities
    omega

/-! ## Members -/

theorem gives_ofAttributes {as : List Attribute} {name : Text} (hname : 0x0A ∉ name)
    (h : ∀ a ∈ as, 0x0A ∉ a.name) :
    Gives (groupOf name ofAttribute as) (ArePlainTo (1 + as.length)) := by
  refine gives_groupOf_ones hname fun a ha => ?_
  exact (gives_leaf isOneLineName_none).bind fun n hn =>
    .ok (plain_entity (by decide) (isOneLineName_some (h a ha)) (.cons hn .nil))

theorem gives_ofField {f : Field} (h : f.HasOneLineNames) :
    Gives (ofField f) (Node.IsPlainTo f.entities) := by
  unfold ofField
  refine (gives_leaf (isOneLineName_some (by decide))).bind fun access haccess => ?_
  refine (gives_leaf (isOneLineName_some (by decide))).bind fun descriptor hdescriptor => ?_
  refine (gives_optionText (by decide)).bind fun signature hsignature => ?_
  have hvalue : Gives (ofFieldValue f) (ArePlainTo 0) :=
    gives_optionLeaf fun v => gives_leaf (isOneLineName_some (by decide))
  refine hvalue.bind fun value hvalue => ?_
  refine (gives_ofAnnotationUses _).bind fun annotations hannotations => ?_
  refine (gives_ofAttributes (by decide) h.attributes).bind fun attributes hattributes => ?_
  refine .ok ((plain_entity (by decide) (isOneLineName_some h.name) (.cons haccess (.cons hdescriptor
    (((hsignature.append hvalue).append hannotations).append hattributes)))).mono ?_)
  unfold Field.entities
  omega

theorem gives_ofParameter (p : Parameter) : Gives (ofParameter p) (Node.IsPlainTo p.entities) := by
  have hword : Gives (parameterName p.descriptor p.index) fun t => 0x0A ∉ t := by
    intro t ht
    unfold parameterName at ht
    split at ht
    · cases ht
      intro h
      rcases mem_of_mem_join h with h | ⟨part, hpart, h⟩
      · revert h
        decide
      · simp only [List.mem_cons, List.not_mem_nil, or_false] at hpart
        rcases hpart with rfl | rfl | rfl
        · revert h
          decide
        · exact notMem_base64 _ h
        · exact Scan.notMem_ofInt _ h
    · cases ht
  unfold ofParameter
  refine (gives_ofAnnotationUses _).bind fun annotations hannotations => ?_
  refine (gives_optionText (by decide)).bind fun name hname => ?_
  have hparameter (access : List Node) (haccess : ArePlainTo 0 access) :
      Gives (do
        let word ← parameterName p.descriptor p.index
        return entity "param" (some word) (annotations ++ name ++ access))
        (Node.IsPlainTo p.entities) := by
    refine hword.bind fun word hword => .ok ((plain_entity (by decide) (isOneLineName_some hword)
      ((hannotations.append hname).append haccess)).mono ?_)
    unfold Parameter.entities
    omega
  dsimp only
  split
  · exact hparameter [] .nil
  · exact (gives_leaf (isOneLineName_some (by decide))).bind fun n hn => hparameter [n] (.cons hn .nil)

theorem gives_ofMaxima (sizes : Maxima) : Gives (ofMaxima sizes) (Node.IsPlainTo 1) := by
  unfold ofMaxima
  refine (gives_leaf isOneLineName_none).bind fun stack hstack => ?_
  refine (gives_leaf isOneLineName_none).bind fun locals hlocals => ?_
  exact .ok (plain_group (isOneLineName_some (by decide)) (.cons hstack (.cons hlocals .nil)))

theorem gives_ofHandler (h : Handler) : Gives (ofHandler h) (Node.IsPlainTo 1) := by
  unfold ofHandler
  refine (gives_leaf isOneLineName_none).bind fun start hstart => ?_
  refine (gives_leaf isOneLineName_none).bind fun stop hstop => ?_
  refine (gives_leaf isOneLineName_none).bind fun target htarget => ?_
  have hhandler (type : List Node) (htype : ArePlainTo 0 type) :
      (entity "try-catch-entry" none ([start, stop, target] ++ type)).IsPlainTo 1 :=
    plain_entity (by decide) isOneLineName_none
      (.cons hstart (.cons hstop (.cons htarget htype)))
  dsimp only
  split
  · exact (gives_leaf isOneLineName_none).bind fun n hn => .ok (hhandler [n] (.cons hn .nil))
  · exact .ok (hhandler [] .nil)

theorem gives_ofLocalVariable (v : LocalVariable) :
    Gives (ofLocalVariable v) (Node.IsPlainTo 1) := by
  have hleaf {kind : Literal.Kind} {value : Constant} {name : Text} (hname : 0x0A ∉ name) :
      Gives (Node.leaf kind value (some name)) (Node.IsPlainTo 0) :=
    gives_leaf (isOneLineName_some hname)
  unfold ofLocalVariable
  refine (hleaf (by decide)).bind fun name hname => ?_
  refine (gives_optionText (by decide)).bind fun descriptor hdescriptor => ?_
  refine (hleaf (by decide)).bind fun start hstart => ?_
  refine (hleaf (by decide)).bind fun stop hstop => ?_
  refine (hleaf (by decide)).bind fun slot hslot => ?_
  refine (gives_optionText (by decide)).bind fun signature hsignature => ?_
  exact .ok (plain_entity (by decide) isOneLineName_none (.cons hname ((hdescriptor.append
    (.cons hstart (.cons hstop (.cons hslot .nil)))).append hsignature)))

theorem gives_ofBody {m : Method} (hm : m.IsSound) :
    Gives (ofBody m) (ArePlainTo (1 + (m.body.map Item.entities).sum)) := by
  unfold ofBody
  split
  · exact (gives_mapM fun i hi => gives_ofItem (hm.items i hi)).bind fun ns hns =>
      .ok (.one (plain_entity (by decide) (isOneLineName_some (by decide)) hns))
  · exact .ok (ArePlainTo.nil.mono (Nat.zero_le _))

theorem gives_ofDefault (v : Option ElementValue) :
    Gives (ofDefault v) (ArePlainTo (1 + (v.map ElementValue.entities).getD 0)) := by
  unfold ofDefault
  split
  · exact (gives_ofElement _).bind fun n hn =>
      .ok (.one (plain_entity (by decide) (isOneLineName_some (by decide)) (.one hn)))
  · exact .ok (ArePlainTo.nil.mono (Nat.zero_le _))

theorem gives_ofMethod {m : Method} (hm : m.IsSound) (h : m.HasOneLineNames) :
    Gives (ofMethod m) (Node.IsPlainTo m.entities) := by
  unfold ofMethod
  refine (gives_leaf (isOneLineName_some (by decide))).bind fun access haccess => ?_
  refine (gives_leaf (isOneLineName_some (by decide))).bind fun descriptor hdescriptor => ?_
  refine (gives_optionText (by decide)).bind fun signature hsignature => ?_
  refine (gives_groupOf_leaves (by decide) fun e => gives_nameLeaf isOneLineName_none).bind
    fun exceptions hexceptions => ?_
  refine (gives_groupOf (by decide) fun p _ => gives_ofParameter p).bind
    fun parameters hparameters => ?_
  refine (gives_optionInt (by decide)).bind fun visible hvisible => ?_
  refine (gives_optionInt (by decide)).bind fun invisible hinvisible => ?_
  refine (gives_optionInt (by decide)).bind fun count hcount => ?_
  extract_lets rest
  have hrest (maxima : List Node) (hmaxima : ArePlainTo 1 maxima) :
      Gives (rest maxima) (Node.IsPlainTo m.entities) := by
    refine (gives_ofBody hm).bind fun body hbody => ?_
    refine (gives_groupOf_ones (by decide) fun a _ => gives_ofHandler a).bind
      fun handlers hhandlers => ?_
    refine (gives_groupOf_ones (by decide) fun v _ => gives_ofLocalVariable v).bind
      fun locals hlocals => ?_
    refine (gives_ofAnnotationUses _).bind fun annotations hannotations => ?_
    refine (gives_ofDefault _).bind fun default hdefault => ?_
    refine (gives_ofAttributes (by decide) h.attributes).bind fun attributes hattributes => ?_
    refine (gives_ofAttributes (by decide) h.codeAttributes).bind fun codeAttributes hcode => ?_
    have hparts := ((((hsignature.append hexceptions).append hparameters).append hvisible).append
      hinvisible).append hcount
    have hall := (((((((hparts.append hmaxima).append hbody).append hhandlers).append hlocals).append
      hannotations).append hdefault).append hattributes).append hcode
    refine .ok ((plain_entity (by decide) (isOneLineName_some h.name)
      (.cons haccess (.cons hdescriptor hall))).mono ?_)
    unfold Method.entities
    omega
  split
  · exact (gives_ofMaxima _).bind fun n hn => hrest [n] (.cons hn .nil)
  · exact hrest [] (ArePlainTo.nil.mono (Nat.zero_le 1))

/-! ## Classes -/

theorem gives_ofInnerClass (i : InnerClass) : Gives (ofInnerClass i) (Node.IsPlainTo 1) := by
  unfold ofInnerClass
  refine (gives_optionText (by decide)).bind fun inner hinner => ?_
  refine (gives_optionText (by decide)).bind fun outer houter => ?_
  refine (gives_optionText (by decide)).bind fun name hname => ?_
  refine (gives_leaf (isOneLineName_some (by decide))).bind fun access haccess => ?_
  exact .ok (plain_entity (by decide) isOneLineName_none
    (((hinner.append houter).append hname).append (.cons haccess .nil)))

theorem gives_ofEnclosing (e : EnclosingMethod) : Gives (ofEnclosing e) (Node.IsPlainTo 1) := by
  unfold ofEnclosing
  refine (gives_optionText (by decide)).bind fun owner howner => ?_
  refine (gives_optionText (by decide)).bind fun name hname => ?_
  refine (gives_optionText (by decide)).bind fun descriptor hdescriptor => ?_
  exact .ok (plain_entity (by decide) (isOneLineName_some (by decide))
    ((howner.append hname).append hdescriptor))

theorem gives_ofSuper (super : Option Text) : Gives (ofSuper super) (Node.IsPlainTo 0) := by
  unfold ofSuper
  split
  · exact gives_leaf (isOneLineName_some (by decide))
  · exact gives_leaf (isOneLineName_some (by decide))

/-- The tree of a sound class has no line feed in its strings if the names of the class have none, and
no more nodes besides leaves than the class has entities. -/
theorem gives_ofClass {c : Class} (hc : c.IsSound) (h : c.HasOneLineNames) :
    Gives (ofClass c) (Node.IsPlainTo c.entities) := by
  have hname : (0x0A : CodePoint) ∉ Text.replace 0x2F 0x2E c.name := by
    intro hmem
    obtain ⟨x, hx, heq⟩ := List.mem_map.1 hmem
    split at heq
    · revert heq
      decide
    · exact h.name (heq ▸ hx)
  unfold ofClass
  refine (gives_leaf isOneLineName_none).bind fun major hmajor => ?_
  refine (gives_leaf isOneLineName_none).bind fun minor hminor => ?_
  refine (gives_leaf (isOneLineName_some (by decide))).bind fun access haccess => ?_
  refine (gives_optionText (by decide)).bind fun signature hsignature => ?_
  refine (gives_ofSuper _).bind fun super hsuper => ?_
  refine (gives_groupOf_leaves (by decide) fun i => gives_nameLeaf isOneLineName_none).bind
    fun interfaces hinterfaces => ?_
  refine (gives_optionText (by decide)).bind fun sourceFile hsourceFile => ?_
  refine (gives_ofAnnotationUses _).bind fun annotations hannotations => ?_
  refine (gives_groupOf_ones (by decide) fun i _ => gives_ofInnerClass i).bind fun inner hinner => ?_
  have hversion : (group (some "version") [major, minor]).IsPlainTo 1 :=
    plain_group (isOneLineName_some (by decide)) (.cons hmajor (.cons hminor .nil))
  extract_lets rest
  have hrest (enclosing : List Node) (henclosing : ArePlainTo 1 enclosing) :
      Gives (rest enclosing) (Node.IsPlainTo c.entities) := by
    refine (gives_ofAttributes (by decide) h.attributes).bind fun attributes hattributes => ?_
    refine (gives_mapM (w := Field.entities) fun f hf => gives_ofField (h.fields f hf)).bind
      fun fields hfields => ?_
    refine (gives_mapM (w := Method.entities) fun m hm =>
      gives_ofMethod (hc.methods m hm) (h.methods m hm)).bind fun methods hmethods => ?_
    have hparts := ((((hinterfaces.append hsourceFile).append hannotations).append hinner).append
      henclosing).append hattributes
    refine .ok ((plain_entity (by decide) (isOneLineName_some hname) (.cons hversion (.cons haccess
      (hsignature.append (.cons hsuper ((hparts.append hfields).append hmethods)))))).mono ?_)
    unfold Class.entities
    omega
  split
  · exact (gives_ofEnclosing _).bind fun n hn => hrest [n] (.cons hn .nil)
  · exact hrest [] (ArePlainTo.nil.mono (Nat.zero_le 1))

/-! ## Numbering -/

/-- The strings of the node stand in one line each, and its marker, if there is one, is between one
and `k`. -/
structure Node.IsMarkedTo (k : Nat) (n : Node) : Prop where
  strings : n.IsOneLine
  line : ∀ l ∈ n.line, 1 ≤ l ∧ l ≤ (k : Int)

theorem Node.All.isMarkedTo_mono {n : Node} {k k' : Nat} (hk : k ≤ k')
    (h : n.All (Node.IsMarkedTo k)) : n.All (Node.IsMarkedTo k') := by
  induction h with
  | mk h _ ih =>
    refine .mk ⟨h.strings, fun l hl => ?_⟩ ih
    obtain ⟨hone, hle⟩ := h.line l hl
    exact ⟨hone, by omega⟩

mutual

/-- The nodes of a plain tree that are no leaves get markers one after another. -/
theorem all_isMarkedTo_numberFrom (k : Nat) : ∀ {n : Node}, n.All Node.IsPlain →
    (n.numberFrom k).2 = k + n.entities ∧
      (n.numberFrom k).1.All (Node.IsMarkedTo (n.numberFrom k).2)
  | ⟨base, name, line, data, text, children⟩, h => by
    obtain ⟨⟨hstrings, hline⟩, hchildren⟩ := h
    obtain ⟨hcount, hmarked⟩ := forall_isMarkedTo_numberAllFrom k hchildren (List.forall_mem_nil _)
    unfold Node.numberFrom Node.entities
    generalize Node.numberAllFrom k children [] = row at hcount hmarked ⊢
    obtain ⟨children', k'⟩ := row
    dsimp only at hcount hmarked ⊢
    split
    · refine ⟨by omega, .mk ⟨hstrings, ?_⟩ hmarked⟩
      rintro l hl
      have hnone : line = none := hline
      rw [hnone] at hl
      cases hl
    · refine ⟨by dsimp only; omega, .mk ⟨hstrings, ?_⟩ fun c hc =>
        (hmarked c hc).isMarkedTo_mono (by omega)⟩
      rintro l ⟨rfl⟩
      omega

theorem forall_isMarkedTo_numberAllFrom (k : Nat) : ∀ {ns acc : List Node},
    (∀ n ∈ ns, n.All Node.IsPlain) → (∀ n ∈ acc, n.All (Node.IsMarkedTo k)) →
      (Node.numberAllFrom k ns acc).2 = k + Node.entitiesAll ns ∧
        ∀ n ∈ (Node.numberAllFrom k ns acc).1, n.All (Node.IsMarkedTo (Node.numberAllFrom k ns acc).2)
  | [], acc, _, hacc => by
    unfold Node.numberAllFrom
    exact ⟨rfl, fun n hn => hacc n (List.mem_reverse.1 hn)⟩
  | n :: rest, acc, hns, hacc => by
    obtain ⟨hcount, hmarked⟩ := all_isMarkedTo_numberFrom k (hns n (by simp))
    unfold Node.numberAllFrom Node.entitiesAll
    generalize n.numberFrom k = result at hcount hmarked ⊢
    obtain ⟨node, k'⟩ := result
    dsimp only at hcount hmarked ⊢
    have hacc' : ∀ n ∈ node :: acc, n.All (Node.IsMarkedTo k') :=
      List.forall_mem_cons.2 ⟨hmarked, fun n hn => (hacc n hn).isMarkedTo_mono (by omega)⟩
    obtain ⟨hcount', hall⟩ := forall_isMarkedTo_numberAllFrom k'
      (fun n hn => hns n (List.mem_cons_of_mem _ hn)) hacc'
    exact ⟨by omega, hall⟩

end

/-- The markers of a numbered tree are no greater than the number of its nodes that are no leaves. If
that number has a numeral, all of them do. -/
theorem all_hasNumeral_numbered {n : Node} {k : Nat} (h : n.IsPlainTo k)
    (hk : k < 10 ^ Text.maxNumeralLength) :
    n.numbered.All Node.IsOneLine ∧ n.numbered.All Node.HasNumeral := by
  obtain ⟨hcount, hmarked⟩ := all_isMarkedTo_numberFrom 0 h.plain
  have hbound : ((n.numberFrom 0).2 : Int) < 10 ^ Text.maxNumeralLength := by
    have hlt : (n.numberFrom 0).2 < 10 ^ Text.maxNumeralLength := by
      have := h.entities_le
      omega
    exact_mod_cast hlt
  have hboth {m : Node} (hm : m.All (Node.IsMarkedTo (n.numberFrom 0).2)) :
      m.All Node.IsOneLine ∧ m.All Node.HasNumeral := by
    induction hm with
    | mk h _ ih =>
      refine ⟨.mk h.strings fun c hc => (ih c hc).1, .mk (fun l hl => ?_) fun c hc => (ih c hc).2⟩
      obtain ⟨hone, hle⟩ := h.line l hl
      exact ⟨by omega, lt_of_le_of_lt hle hbound⟩
  exact hboth hmarked

end Tree

end ClassTree
