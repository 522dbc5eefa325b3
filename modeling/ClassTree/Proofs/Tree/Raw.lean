/-
# ClassTree.Proofs.Tree.Raw — raw attributes in trees

Some attributes are kept as their bytes. A tree may change what it says of a class — a name with a
dot, say — but it does not change those: wherever a class has a tree, and a class is read of that
tree, the attributes are the same, name by name and byte by byte. Nothing else is asked of the
class, so the proofs go back from what has been written to what it was written from.
-/
import ClassTree.Proofs.Decoding.Raw
import ClassTree.Proofs.Tree.RoundTrip

namespace ClassTree

namespace Tree

variable {α : Type} {path name : Text} {n : Node} {ns : List Node}

/-! ## Parts that have been written -/

/-- A leaf with a name is a part. -/
theorem isPiece_of_leaf {kind : Literal.Kind} {v : Constant}
    (h : Node.leaf kind v (some name) = .ok n) : IsPiece name [n] := by
  obtain ⟨text, -, h⟩ := Result.bind_eq_ok_iff.1 h
  have hnode := Except.ok.inj h
  have hbase : n.base = some kind.name := hnode ▸ rfl
  have hname : n.name = some name := hnode ▸ rfl
  exact .one hname (isMember_of_base hbase)

/-- A leaf that may be missing is a part. -/
theorem isPiece_of_optionLeaf {leaf : α → Option Text → Result Node} {a? : Option α}
    (hleaf : ∀ a n, leaf a (some name) = .ok n → IsPiece name [n])
    (h : optionLeaf leaf a? name = .ok ns) : IsPiece name ns := by
  cases a? with
  | none =>
    cases h
    exact .none
  | some a =>
    obtain ⟨n, hn, h⟩ := Result.bind_eq_ok_iff.1 h
    cases h
    exact hleaf a n hn

theorem isPiece_of_optionText {t? : Option Text} (h : optionLeaf textLeaf t? name = .ok ns) :
    IsPiece name ns :=
  isPiece_of_optionLeaf (fun _ _ h => isPiece_of_leaf h) h

theorem isPiece_of_optionInt {i? : Option Int} (h : optionLeaf intLeaf i? name = .ok ns) :
    IsPiece name ns :=
  isPiece_of_optionLeaf (fun _ _ h => isPiece_of_leaf h) h

/-- A group is a part, and what it holds has been written one by one. -/
theorem isPiece_of_groupOf {each : α → Result Node} {as : List α}
    (h : groupOf name each as = .ok ns) : IsPiece name ns ∧
      ∀ n : Node, n.part? name = ns.head? → as.mapM each = .ok (n.grouped name) := by
  unfold groupOf at h
  split at h
  · next hempty =>
    obtain rfl := List.isEmpty_iff.1 hempty
    cases h
    refine ⟨.none, fun n hpart => ?_⟩
    rw [Node.grouped, hpart]
    rfl
  · obtain ⟨children, hchildren, h⟩ := Result.bind_eq_ok_iff.1 h
    cases h
    refine ⟨isPiece_group _ _, fun n hpart => ?_⟩
    rw [grouped_of_part? hpart]
    exact hchildren

/-! ## Attributes -/

/-- An attribute that is read of its node is the one that was written. -/
theorem eq_of_readAttribute {group : Text} {a a' : Attribute} (h : ofAttribute a = .ok n)
    (hread : readAttribute path group n = .ok a') : a' = a := by
  obtain ⟨leaf, hleaf, h⟩ := Result.bind_eq_ok_iff.1 h
  cases h
  obtain ⟨leaf', hleaf', hdata, -⟩ := exists_leaf (.bytes a.data) trivial none
  obtain rfl : leaf' = leaf := Except.ok.inj (hleaf'.symm.trans hleaf)
  unfold readAttribute at hread
  simp only [entity] at hread
  split at hread
  · next c rest data _ hname hchildren =>
    cases hchildren
    rw [hdata.bytesOf, Result.ok_bind] at hread
    cases hread
    obtain ⟨_, _⟩ := a
    cases hname
    rfl
  · cases hread

/-- A node has the group that is written for some attributes, or none if there are none. -/
def Node.HoldsRaw (n : Node) (name : Text) (as : List Attribute) : Prop :=
  ∃ ns, groupOf name ofAttribute as = .ok ns ∧ n.part? name = ns.head?

/-- Attributes that are read of their group are those that were written. -/
theorem Node.HoldsRaw.eq_of_readAttributes {as as' : List Attribute} (h : n.HoldsRaw name as)
    (hread : readAttributes path n name = .ok as') : as' = as := by
  obtain ⟨ns, h, hpart⟩ := h
  have hwritten := Result.mapM_eq_ok_iff.1 ((isPiece_of_groupOf h).2 n hpart)
  have hfound := Result.mapM_eq_ok_iff.1 hread
  generalize n.grouped name = nodes at hwritten hfound
  clear h hpart hread
  induction hwritten generalizing as' with
  | nil =>
    cases hfound
    rfl
  | cons ha _ ih =>
    cases hfound with
    | cons ha' hrest => rw [eq_of_readAttribute ha ha', ih hrest]

/-! ## Members -/

/-- The node of a field holds its attributes. -/
theorem holdsRaw_of_ofField {f : Field} (h : ofField f = .ok n) :
    n.base = some ("field" : Text) ∧ n.HoldsRaw "attributes" f.attributes := by
  unfold ofField at h
  obtain ⟨access, haccess, h⟩ := Result.bind_eq_ok_iff.1 h
  obtain ⟨descriptor, hdescriptor, h⟩ := Result.bind_eq_ok_iff.1 h
  obtain ⟨signature, hsignature, h⟩ := Result.bind_eq_ok_iff.1 h
  obtain ⟨value, hvalue, h⟩ := Result.bind_eq_ok_iff.1 h
  obtain ⟨annotations, hannotations, h⟩ := Result.bind_eq_ok_iff.1 h
  obtain ⟨attributes, hattributes, h⟩ := Result.bind_eq_ok_iff.1 h
  have hn : n.HasParts
      ["access", "descriptor", "signature", "value", "annotations", "attributes"]
      [[access], [descriptor], signature, value, annotations, attributes] [] := by
    refine ⟨by decide, .cons (isPiece_of_leaf haccess) (.cons (isPiece_of_leaf hdescriptor)
      (.cons (isPiece_of_optionText hsignature) (.cons (isPiece_of_optionLeaf ?_ hvalue)
      (.cons (isPiece_of_groupOf hannotations).1 (.cons (isPiece_of_groupOf hattributes).1 .nil))))),
      List.forall_mem_nil _, ?_⟩
    · exact fun _ _ h => isPiece_of_leaf h
    · cases h
      simp [entity]
  have hbase : n.base = some ("field" : Text) := by
    cases h
    rfl
  exact ⟨hbase, attributes, hattributes, hn.part? 5 rfl rfl⟩

/-- A field that is read of the node of another one has its attributes. -/
theorem attributes_of_readField {f f' : Field} (h : ofField f = .ok n)
    (hread : readField path n = .ok f') : f'.attributes = f.attributes := by
  unfold readField at hread
  obtain ⟨name, -, hread⟩ := Result.bind_eq_ok_iff.1 hread
  obtain ⟨access', -, hread⟩ := Result.bind_eq_ok_iff.1 hread
  obtain ⟨descriptor', -, hread⟩ := Result.bind_eq_ok_iff.1 hread
  obtain ⟨signature', -, hread⟩ := Result.bind_eq_ok_iff.1 hread
  obtain ⟨value', -, hread⟩ := Result.bind_eq_ok_iff.1 hread
  obtain ⟨annotations', -, hread⟩ := Result.bind_eq_ok_iff.1 hread
  obtain ⟨attributes', hattributes, hread⟩ := Result.bind_eq_ok_iff.1 hread
  cases hread
  exact (holdsRaw_of_ofField h).2.eq_of_readAttributes hattributes

/-- The code that a method may have is a part. -/
theorem isPiece_of_ofBody {m : Method} (h : ofBody m = .ok ns) : IsPiece "body" ns := by
  unfold ofBody at h
  split at h
  · obtain ⟨items, -, h⟩ := Result.bind_eq_ok_iff.1 h
    cases h
    exact .one rfl (isMember_entity (by decide) _ _)
  · cases h
    exact .none

/-- The default value that a method may have is a part. -/
theorem isPiece_of_ofDefault {v? : Option ElementValue} (h : ofDefault v? = .ok ns) :
    IsPiece "annotation-default-value" ns := by
  cases v? with
  | none =>
    cases h
    exact .none
  | some v =>
    obtain ⟨node, -, h⟩ := Result.bind_eq_ok_iff.1 h
    cases h
    exact .one rfl (isMember_entity (by decide) _ _)

/-- What goes on from one node where something is there, and from none where it is missing, goes on
from what is written for it. -/
theorem exists_optionLeaf_and {each : α → Result Node} {a? : Option α} {Q : List Node → Prop}
    (hsome : ∀ a, a? = some a → ∃ n, each a = .ok n ∧ Q [n]) (hnone : a? = none → Q []) (name : Text) :
    ∃ ns, optionLeaf (fun a _ => each a) a? name = .ok ns ∧ Q ns := by
  cases a? with
  | none => exact ⟨[], rfl, hnone rfl⟩
  | some a =>
    obtain ⟨n, hn, hQ⟩ := hsome a rfl
    refine ⟨[n], ?_, hQ⟩
    simp only [optionLeaf, hn]
    rfl

/-- The sizes that a method may have are a part, which is there if they are. -/
theorem isPiece_of_maxima {maxima : Option Maxima}
    (h : optionLeaf (fun sizes _ => ofMaxima sizes) maxima "maxs" = .ok ns) :
    IsPiece "maxs" ns ∧ ns.head?.isSome = maxima.isSome := by
  rcases optionLeaf_eq_ok h with ⟨rfl, rfl⟩ | ⟨sizes, node, rfl, hnode, rfl⟩
  · exact ⟨.none, rfl⟩
  · obtain ⟨stack, -, hnode⟩ := Result.bind_eq_ok_iff.1 hnode
    obtain ⟨locals, -, hnode⟩ := Result.bind_eq_ok_iff.1 hnode
    cases hnode
    exact ⟨isPiece_group _ _, rfl⟩

/-- The node of a method holds its attributes and those of its code, and sizes if it has some. -/
theorem holdsRaw_of_ofMethod {m : Method} (h : ofMethod m = .ok n) :
    n.base = some ("method" : Text) ∧ n.HoldsRaw "attributes" m.attributes ∧
      n.HoldsRaw "code-attributes" m.codeAttributes ∧ (n.part? "maxs").isSome = m.maxima.isSome := by
  unfold ofMethod at h
  obtain ⟨access, haccess, h⟩ := Result.bind_eq_ok_iff.1 h
  obtain ⟨descriptor, hdescriptor, h⟩ := Result.bind_eq_ok_iff.1 h
  obtain ⟨signature, hsignature, h⟩ := Result.bind_eq_ok_iff.1 h
  obtain ⟨exceptions, hexceptions, h⟩ := Result.bind_eq_ok_iff.1 h
  obtain ⟨parameters, hparameters, h⟩ := Result.bind_eq_ok_iff.1 h
  obtain ⟨visible, hvisible, h⟩ := Result.bind_eq_ok_iff.1 h
  obtain ⟨invisible, hinvisible, h⟩ := Result.bind_eq_ok_iff.1 h
  obtain ⟨count, hcount, h⟩ := Result.bind_eq_ok_iff.1 h
  extract_lets rest at h
  obtain ⟨maxima, hmaxima, h⟩ : ∃ ns, optionLeaf (fun sizes _ => ofMaxima sizes) m.maxima "maxs" =
      .ok ns ∧
      rest ns = .ok n := by
    refine exists_optionLeaf_and (fun sizes hm => ?_) (fun hm => ?_) _
    · rw [hm] at h
      exact Result.bind_eq_ok_iff.1 h
    · rw [hm] at h
      exact h
  obtain ⟨body, hbody, h⟩ := Result.bind_eq_ok_iff.1 h
  obtain ⟨handlers, hhandlers, h⟩ := Result.bind_eq_ok_iff.1 h
  obtain ⟨locals, hlocals, h⟩ := Result.bind_eq_ok_iff.1 h
  obtain ⟨annotations, hannotations, h⟩ := Result.bind_eq_ok_iff.1 h
  obtain ⟨default, hdefault, h⟩ := Result.bind_eq_ok_iff.1 h
  obtain ⟨attributes, hattributes, h⟩ := Result.bind_eq_ok_iff.1 h
  obtain ⟨codeAttributes, hcodeAttributes, h⟩ := Result.bind_eq_ok_iff.1 h
  obtain ⟨hpieceMaxima, hsizes⟩ := isPiece_of_maxima hmaxima
  have hn : n.HasParts ["access", "descriptor", "signature", "exceptions", "params",
        "visible-parameter-count", "invisible-parameter-count", "parameter-count", "maxs", "body",
        "trycatchblocks", "local-variables", "annotations", "annotation-default-value", "attributes",
        "code-attributes"]
      [[access], [descriptor], signature, exceptions, parameters, visible, invisible, count, maxima,
        body, handlers, locals, annotations, default, attributes, codeAttributes] [] := by
    refine ⟨by decide, .cons (isPiece_of_leaf haccess) (.cons (isPiece_of_leaf hdescriptor)
      (.cons (isPiece_of_optionText hsignature) (.cons (isPiece_of_groupOf hexceptions).1
      (.cons (isPiece_of_groupOf hparameters).1 (.cons (isPiece_of_optionInt hvisible)
      (.cons (isPiece_of_optionInt hinvisible) (.cons (isPiece_of_optionInt hcount) (.cons hpieceMaxima
      (.cons (isPiece_of_ofBody hbody) (.cons (isPiece_of_groupOf hhandlers).1
      (.cons (isPiece_of_groupOf hlocals).1 (.cons (isPiece_of_groupOf hannotations).1
      (.cons (isPiece_of_ofDefault hdefault) (.cons (isPiece_of_groupOf hattributes).1
      (.cons (isPiece_of_groupOf hcodeAttributes).1 .nil))))))))))))))), List.forall_mem_nil _, ?_⟩
    cases h
    simp [entity]
  have hbase : n.base = some ("method" : Text) := by
    cases h
    rfl
  refine ⟨hbase, ⟨attributes, hattributes, hn.part? 14 rfl rfl⟩,
    ⟨codeAttributes, hcodeAttributes, hn.part? 15 rfl rfl⟩, ?_⟩
  rw [hn.part? 8 rfl rfl, hsizes]

/-- A method that is read of the node of another one has its attributes. -/
theorem sameRaw_of_readMethod {className : Text} {m m' : Method} (h : ofMethod m = .ok n)
    (hread : readMethod path className n = .ok m') : m.SameRaw m' := by
  obtain ⟨-, hholds, hholdsCode, hmaxima⟩ := holdsRaw_of_ofMethod h
  unfold readMethod at hread
  obtain ⟨name, -, hread⟩ := Result.bind_eq_ok_iff.1 hread
  obtain ⟨access', -, hread⟩ := Result.bind_eq_ok_iff.1 hread
  obtain ⟨descriptor', -, hread⟩ := Result.bind_eq_ok_iff.1 hread
  obtain ⟨maxima', hmaxima', hread⟩ := Result.bind_eq_ok_iff.1 hread
  obtain ⟨⟨code, _⟩, -, hread⟩ := Result.bind_eq_ok_iff.1 hread
  obtain ⟨default', -, hread⟩ := Result.bind_eq_ok_iff.1 hread
  obtain ⟨signature', -, hread⟩ := Result.bind_eq_ok_iff.1 hread
  obtain ⟨exceptions', -, hread⟩ := Result.bind_eq_ok_iff.1 hread
  obtain ⟨parameters', -, hread⟩ := Result.bind_eq_ok_iff.1 hread
  obtain ⟨annotations', -, hread⟩ := Result.bind_eq_ok_iff.1 hread
  obtain ⟨attributes', hattributes, hread⟩ := Result.bind_eq_ok_iff.1 hread
  obtain ⟨codeAttributes', hcodeAttributes, hread⟩ := Result.bind_eq_ok_iff.1 hread
  obtain ⟨visible', -, hread⟩ := Result.bind_eq_ok_iff.1 hread
  obtain ⟨invisible', -, hread⟩ := Result.bind_eq_ok_iff.1 hread
  obtain ⟨count', -, hread⟩ := Result.bind_eq_ok_iff.1 hread
  cases hread
  refine ⟨hholds.eq_of_readAttributes hattributes, hholdsCode.eq_of_readAttributes hcodeAttributes, ?_⟩
  rw [← hmaxima]
  rw [mapM_part?] at hmaxima'
  unfold optional at hmaxima'
  split at hmaxima'
  · next node hnode =>
    obtain ⟨sizes, -, hmaxima'⟩ := Result.bind_eq_ok_iff.1 hmaxima'
    cases hmaxima'
    rw [hnode]
    rfl
  · next hnode =>
    cases hmaxima'
    rw [hnode]
    rfl

/-! ## Classes -/

/-- The fields that are added for the nodes of fields have the attributes of those. -/
theorem exists_fields_of_foldlM {className : Text} {fields : List Field} {m m' : Members}
    (h : List.Forall₂ (fun f n => ofField f = .ok n) fields ns)
    (hread : ns.foldlM (readMember path className) m = .ok m') :
    ∃ found : List Field, m' = { m with fields := found.reverse ++ m.fields } ∧
      List.Forall₂ (fun f f' : Field => f'.attributes = f.attributes) fields found := by
  induction h generalizing m with
  | nil =>
    cases hread
    exact ⟨[], rfl, .nil⟩
  | cons hf _ ih =>
    rw [List.foldlM_cons] at hread
    obtain ⟨m₁, hstep, hread⟩ := Result.bind_eq_ok_iff.1 hread
    rw [readMember_of_field (holdsRaw_of_ofField hf).1] at hstep
    obtain ⟨f', hf', hstep⟩ := Result.bind_eq_ok_iff.1 hstep
    cases hstep
    obtain ⟨found, rfl, hfound⟩ := ih hread
    exact ⟨f' :: found, by simp, .cons (attributes_of_readField hf hf') hfound⟩

/-- The methods that are added for the nodes of methods have the attributes of those. -/
theorem exists_methods_of_foldlM {className : Text} {methods : List Method} {m m' : Members}
    (h : List.Forall₂ (fun method n => ofMethod method = .ok n) methods ns)
    (hread : ns.foldlM (readMember path className) m = .ok m') :
    ∃ found : List Method, m' = { m with methods := found.reverse ++ m.methods } ∧
      List.Forall₂ Method.SameRaw methods found := by
  induction h generalizing m with
  | nil =>
    cases hread
    exact ⟨[], rfl, .nil⟩
  | cons hmethod _ ih =>
    rw [List.foldlM_cons] at hread
    obtain ⟨m₁, hstep, hread⟩ := Result.bind_eq_ok_iff.1 hread
    rw [readMember_of_method (holdsRaw_of_ofMethod hmethod).1] at hstep
    obtain ⟨method', hmethod', hstep⟩ := Result.bind_eq_ok_iff.1 hstep
    cases hstep
    obtain ⟨found, rfl, hfound⟩ := ih hread
    exact ⟨method' :: found, by simp, .cons (sameRaw_of_readMethod hmethod hmethod') hfound⟩

/-- The node of a class: it holds the attributes of the class, and its children are parts and behind
them the nodes of the fields and of the methods. -/
structure Node.IsOfClass (n : Node) (c : Class) : Prop where
  holdsRaw : n.HoldsRaw "attributes" c.attributes
  children : ∃ names parts fields methods, List.Forall₂ IsPiece names parts ∧
    List.Forall₂ (fun f n => ofField f = .ok n) c.fields fields ∧
    List.Forall₂ (fun m n => ofMethod m = .ok n) c.methods methods ∧
    n.children = parts.flatten ++ (fields ++ methods)

/-- A class is written as a node whose parts hold its raw attributes, those of its members included,
under the names by which the reader looks for them. Nothing else about the node is said. -/
theorem isOfClass_of_ofClass {c : Class} (h : ofClass c = .ok n) : n.IsOfClass c := by
  unfold ofClass at h
  obtain ⟨major, hmajor, h⟩ := Result.bind_eq_ok_iff.1 h
  obtain ⟨minor, hminor, h⟩ := Result.bind_eq_ok_iff.1 h
  obtain ⟨access, haccess, h⟩ := Result.bind_eq_ok_iff.1 h
  obtain ⟨signature, hsignature, h⟩ := Result.bind_eq_ok_iff.1 h
  obtain ⟨super, hsuper, h⟩ := Result.bind_eq_ok_iff.1 h
  obtain ⟨interfaces, hinterfaces, h⟩ := Result.bind_eq_ok_iff.1 h
  obtain ⟨sourceFile, hsourceFile, h⟩ := Result.bind_eq_ok_iff.1 h
  obtain ⟨annotations, hannotations, h⟩ := Result.bind_eq_ok_iff.1 h
  obtain ⟨innerClasses, hinnerClasses, h⟩ := Result.bind_eq_ok_iff.1 h
  -- what comes behind an optional part is the same whether it is there or not
  extract_lets rest at h
  obtain ⟨enclosing, henclosing, h⟩ : ∃ ns, optionLeaf (fun e _ => ofEnclosing e) c.enclosing
      "enclosing-method" = .ok ns ∧ rest ns = .ok n := by
    refine exists_optionLeaf_and (fun e he => ?_) (fun he => ?_) _
    · rw [he] at h
      exact Result.bind_eq_ok_iff.1 h
    · rw [he] at h
      exact h
  obtain ⟨attributes, hattributes, h⟩ := Result.bind_eq_ok_iff.1 h
  obtain ⟨fields, hfields, h⟩ := Result.bind_eq_ok_iff.1 h
  obtain ⟨methods, hmethods, h⟩ := Result.bind_eq_ok_iff.1 h
  have hsuper : IsPiece "supername" [super] := by
    cases hname : c.super with
    | none =>
      rw [hname] at hsuper
      exact isPiece_of_leaf hsuper
    | some t =>
      rw [hname] at hsuper
      exact isPiece_of_leaf hsuper
  have henclosing : IsPiece "enclosing-method" enclosing := by
    rcases optionLeaf_eq_ok henclosing with ⟨-, rfl⟩ | ⟨e, node, -, hnode, rfl⟩
    · exact .none
    · obtain ⟨owner, -, hnode⟩ := Result.bind_eq_ok_iff.1 hnode
      obtain ⟨name, -, hnode⟩ := Result.bind_eq_ok_iff.1 hnode
      obtain ⟨descriptor, -, hnode⟩ := Result.bind_eq_ok_iff.1 hnode
      cases hnode
      exact .one rfl (isMember_entity (by decide) _ _)
  have hfields := Result.mapM_eq_ok_iff.1 hfields
  have hmethods := Result.mapM_eq_ok_iff.1 hmethods
  have hn : n.HasParts ["version", "access", "signature", "supername", "interfaces", "source-file",
        "annotations", "inner-classes", "enclosing-method", "attributes"]
      [[group (some "version") [major, minor]], [access], signature, [super], interfaces, sourceFile,
        annotations, innerClasses, enclosing, attributes] (fields ++ methods) := by
    refine ⟨by decide, .cons (isPiece_group _ _) (.cons (isPiece_of_leaf haccess)
      (.cons (isPiece_of_optionText hsignature) (.cons hsuper (.cons (isPiece_of_groupOf hinterfaces).1
      (.cons (isPiece_of_optionText hsourceFile) (.cons (isPiece_of_groupOf hannotations).1
      (.cons (isPiece_of_groupOf hinnerClasses).1 (.cons henclosing
      (.cons (isPiece_of_groupOf hattributes).1 .nil))))))))), fun m hm => .inl ?_, ?_⟩
    · rcases List.mem_append.1 hm with hm | hm
      · obtain ⟨f, -, hf⟩ := Result.exists_of_mem_right hfields hm
        simp [Node.isMember, (holdsRaw_of_ofField hf).1]
      · obtain ⟨method, -, hmethod⟩ := Result.exists_of_mem_right hmethods hm
        simp [Node.isMember, (holdsRaw_of_ofMethod hmethod).1]
    · cases h
      simp [entity]
  exact ⟨⟨attributes, hattributes, hn.part? 9 rfl rfl⟩, _, _, fields, methods, hn.pieces, hfields,
    hmethods, hn.children⟩

/-- What of a class comes from the members and the attributes of its node; it has no layout. -/
structure Node.Gives (n : Node) (c : Class) : Prop where
  members : ∃ path className members, n.children.foldlM (readMember path className) {} = .ok members ∧
    c.fields = members.fields.reverse ∧ c.methods = members.methods.reverse
  attributes : ∃ path, readAttributes path n "attributes" = .ok c.attributes
  layout : c.layout = {}

/-- A class is read of its members and its attributes. -/
theorem gives_of_ofTree {c : Class} (h : Class.ofTree n = .ok c) : n.Gives c := by
  unfold Class.ofTree at h
  split at h
  · split at h
    · unfold readNamed at h
      obtain ⟨version, -, h⟩ := Result.bind_eq_ok_iff.1 h
      obtain ⟨access, -, h⟩ := Result.bind_eq_ok_iff.1 h
      obtain ⟨super, -, h⟩ := Result.bind_eq_ok_iff.1 h
      obtain ⟨enclosing, -, h⟩ := Result.bind_eq_ok_iff.1 h
      obtain ⟨innerClasses, -, h⟩ := Result.bind_eq_ok_iff.1 h
      obtain ⟨members, hmembers, h⟩ := Result.bind_eq_ok_iff.1 h
      obtain ⟨signature, -, h⟩ := Result.bind_eq_ok_iff.1 h
      obtain ⟨interfaces, -, h⟩ := Result.bind_eq_ok_iff.1 h
      obtain ⟨annotations, -, h⟩ := Result.bind_eq_ok_iff.1 h
      obtain ⟨sourceFile, -, h⟩ := Result.bind_eq_ok_iff.1 h
      obtain ⟨attributes, hattributes, h⟩ := Result.bind_eq_ok_iff.1 h
      cases h
      exact ⟨⟨_, _, members, hmembers, rfl, rfl⟩, ⟨_, hattributes⟩, rfl⟩
    · cases h
  · cases h

/-- A class that is read of the node of another one keeps the same attributes as bytes. -/
theorem Node.Gives.sameRaw {c c' : Class} (hread : n.Gives c') (h : n.IsOfClass c) : c.SameRaw c' := by
  obtain ⟨names, parts, fields, methods, hpieces, hfields, hmethods, hchildren⟩ := h.children
  obtain ⟨path, className, members, hmembers, hreadFields, hreadMethods⟩ := hread.members
  obtain ⟨path', hattributes⟩ := hread.attributes
  rw [hchildren, List.foldlM_append, foldlM_readMember_parts hpieces, Result.ok_bind,
    List.foldlM_append] at hmembers
  obtain ⟨m₁, hmembers₁, hmembers⟩ := Result.bind_eq_ok_iff.1 hmembers
  obtain ⟨foundFields, rfl, hfoundFields⟩ := exists_fields_of_foldlM hfields hmembers₁
  obtain ⟨foundMethods, rfl, hfoundMethods⟩ := exists_methods_of_foldlM hmethods hmembers
  refine ⟨h.holdsRaw.eq_of_readAttributes hattributes, ?_, ?_⟩
  · rw [hreadFields]
    simpa using hfoundFields
  · rw [hreadMethods]
    simpa using hfoundMethods

end Tree

/-- A class that is read of the tree of another one keeps the same attributes as bytes. -/
theorem Class.sameRaw_of_ofTree {c c' : Class} {n : Tree.Node} (hwrite : c.toTree = .ok n)
    (hread : ofTree n = .ok c') : c.SameRaw c' := by
  obtain ⟨node, hnode, hwrite⟩ := Result.bind_eq_ok_iff.1 hwrite
  cases hwrite
  rw [ofTree_numbered] at hread
  exact (Tree.gives_of_ofTree hread).sameRaw (Tree.isOfClass_of_ofClass hnode)

end ClassTree
