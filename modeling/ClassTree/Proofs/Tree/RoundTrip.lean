/-
# ClassTree.Proofs.Tree.RoundTrip — classes read back from their trees

A class that has been read, be it of a class file or of a tree, is written as a tree and read back
as what it says; only its layout is lost. It has to be proper, its name must not have the dot that
trees write between packages, and the types of its parameters must be texts of characters.

A class file also comes back from the text of its tree, which is never so large that one of its line
markers has no numeral. Names may hold any code point that a class file can give them, with two
exceptions. The text of a tree has no way to write a line feed between quotes, and some names stand
there as they are; and the name of a parameter holds its type in the narrow form of UTF-8, which has
no surrogates.
-/
import ClassTree.Proofs.Decoding.Entities
import ClassTree.Proofs.Decoding.Sound
import ClassTree.Proofs.Decoding.Total
import ClassTree.Proofs.Tree.Entity
import ClassTree.Proofs.Tree.Plain
import ClassTree.Proofs.Tree.Sound
import Mathlib

namespace ClassTree.Class

/-- What a tree of a class needs to say the class: nothing that has to be there is missing, no name
is empty, the name of the class has no dot, and the types of parameters are texts of characters. -/
structure IsRenderable (c : Class) : Prop where
  proper : c.IsProper
  dotless : (0x2E : CodePoint) ∉ c.name
  scalar : ∀ m ∈ c.methods, ∀ p ∈ m.parameters, p.descriptor.isScalar = true

end ClassTree.Class

namespace ClassTree.Tree

variable {path place name : Text} {n : Node}

/-! ## Metadata -/

theorem exists_innerClass {i : InnerClass} (hs : IsInt i.access) (hp : ∃ s, i.inner = some s) :
    ∃ n, ofInnerClass i = .ok n ∧ ∀ path, readInnerClass path n = .ok i := by
  obtain ⟨s, hs'⟩ := hp
  obtain ⟨inner, hofInner, hpieceInner, hinner⟩ := exists_optionText i.inner "inner"
  obtain ⟨outer, hofOuter, hpieceOuter, houter⟩ := exists_optionText i.outer "outer"
  obtain ⟨name, hofName, hpieceName, hname⟩ := exists_optionText i.name "inner-name"
  obtain ⟨access, hofAccess, haccess, hnameAccess⟩ := exists_intLeaf hs (some "access")
  let n := entity "inner-class" none (inner ++ outer ++ name ++ [access])
  have hn : n.HasParts ["inner", "outer", "inner-name", "access"] [inner, outer, name, [access]] [] :=
    ⟨by decide, .cons hpieceInner (.cons hpieceOuter
      (.cons hpieceName (.cons (haccess.isPiece hnameAccess) .nil))),
      List.forall_mem_nil _, by simp [n, entity]⟩
  refine ⟨n, by simp [ofInnerClass, hofInner, hofOuter, hofName, hofAccess, n], fun path => ?_⟩
  have hinner := hinner n path (hn.part? 0 rfl rfl)
  rw [hs'] at hinner
  simp only [readInnerClass, required_of_optional hinner, houter n _ (hn.part? 1 rfl rfl),
    hname n _ (hn.part? 2 rfl rfl), required_of_part? (hn.part? 3 rfl rfl) haccess.intOf,
    Result.ok_bind, ← hs']
  rfl

/-- The method around a local class. -/
theorem exists_enclosing {e? : Option EnclosingMethod} (hp : ∀ e ∈ e?, ∃ s, e.owner = some s) :
    ∃ ns, optionLeaf (fun e _ => ofEnclosing e) e? "enclosing-method" = .ok ns ∧
      IsPiece "enclosing-method" ns ∧ ∀ (n : Node) (path : Text),
        n.part? "enclosing-method" = ns.head? →
          optional (readEnclosing path) n "enclosing-method" = .ok e? :=
  exists_optionLeaf fun e he => by
    obtain ⟨s, hs⟩ := hp e he
    obtain ⟨owner, hofOwner, hpieceOwner, howner⟩ := exists_optionText e.owner "owner"
    obtain ⟨name, hofName, hpieceName, hname⟩ := exists_optionText e.name "name"
    obtain ⟨descriptor, hofDescriptor, hpieceDescriptor, hdescriptor⟩ :=
      exists_optionText e.descriptor "descriptor"
    let n := entity "enclosing-method" (some "enclosing-method") (owner ++ name ++ descriptor)
    have hn : n.HasParts ["owner", "name", "descriptor"] [owner, name, descriptor] [] :=
      ⟨by decide, .cons hpieceOwner (.cons hpieceName (.cons hpieceDescriptor .nil)),
        List.forall_mem_nil _,
        by simp [n, entity]⟩
    refine ⟨n, by simp [ofEnclosing, hofOwner, hofName, hofDescriptor, n], rfl,
      isMember_entity (by decide) _ _,
      fun path => ?_⟩
    have howner := howner n path (hn.part? 0 rfl rfl)
    rw [hs] at howner
    simp only [readEnclosing, required_of_optional howner, hname n _ (hn.part? 1 rfl rfl),
      hdescriptor n _ (hn.part? 2 rfl rfl), Result.ok_bind, ← hs]
    rfl

theorem exists_super (super : Option Text) : ∃ n, ofSuper super = .ok n ∧ IsPiece "supername" [n] ∧
    ∀ path, readSuper path n = .ok super := by
  cases super with
  | none =>
    obtain ⟨n, hn, hholds, hname⟩ := exists_leaf .null trivial (some "supername")
    refine ⟨n, hn, hholds.isPiece hname, fun path => ?_⟩
    unfold readSuper
    rw [hholds.constantOf (by simp)]
    rfl
  | some t =>
    obtain ⟨n, hn, hholds, hname⟩ := exists_textLeaf t (some "supername")
    refine ⟨n, hn, hholds.isPiece hname, fun path => ?_⟩
    unfold readSuper
    rw [hholds.constantOf (by simp)]
    rfl

theorem exists_version {major minor : Int} (h : IsInt major ∧ IsInt minor) :
    ∃ a b, intLeaf major none = .ok a ∧ intLeaf minor none = .ok b ∧
      ∀ path, readVersion path (group (some "version") [a, b]) = .ok (major, minor) := by
  obtain ⟨a, ha, hmajor, -⟩ := exists_intLeaf h.1 none
  obtain ⟨b, hb, hminor, -⟩ := exists_intLeaf h.2 none
  refine ⟨a, b, ha, hb, fun path => ?_⟩
  simp only [readVersion, group, entity, hmajor.intOf, hminor.intOf, Result.ok_bind]
  rfl

/-! ## Members -/

theorem IsPiece.isMember {ns : List Node} (h : IsPiece name ns) : ∀ n ∈ ns, n.isMember = false := by
  cases h with
  | none => simp
  | one _ hmember => simpa using hmember

/-- The parts of an entity add no members. -/
theorem foldlM_readMember_parts {className : Text} {names : List Text} {parts : List (List Node)}
    (h : List.Forall₂ IsPiece names parts) (m : Members) :
    parts.flatten.foldlM (readMember path className) m = .ok m := by
  have hskip {n : Node} (hn : n.isMember = false) : readMember path className m n = .ok m := by
    simp only [Node.isMember, Bool.or_eq_false_iff, decide_eq_false_iff_not] at hn
    unfold readMember
    rw [if_neg hn.1, if_neg hn.2]
    rfl
  have hrow (ns : List Node) (hns : ∀ n ∈ ns, n.isMember = false) :
      ns.foldlM (readMember path className) m = .ok m := by
    induction ns with
    | nil => rfl
    | cons n ns ih =>
      rw [List.foldlM_cons, hskip (hns n (by simp))]
      exact ih fun n hn => hns n (by simp [hn])
  refine hrow _ fun n hn => ?_
  obtain ⟨ns, hns, hn⟩ := List.mem_flatten.1 hn
  obtain ⟨name, -, hpiece⟩ := Result.exists_of_mem_right h hns
  exact hpiece.isMember n hn

theorem readMember_of_field {className : Text} {m : Members} (h : n.base = some ("field" : Text)) :
    readMember path className m n = do
      return { m with fields := (← readField path n) :: m.fields } := if_pos h

/-- The node of a method adds a method. -/
theorem readMember_of_method {className : Text} {m : Members} (h : n.base = some ("method" : Text)) :
    readMember path className m n = do
      return { m with methods := (← readMethod path className n) :: m.methods } := by
  have hne : n.base ≠ some ("field" : Text) := by
    rw [h]
    decide
  exact (if_neg hne).trans (if_pos h)

theorem foldlM_readMember_fields {className : Text} {ns : List Node} {fields : List Field}
    (h : List.Forall₂ (fun n f => n.base = some ("field" : Text) ∧ readField path n = .ok f) ns fields)
    (m : Members) : ns.foldlM (readMember path className) m =
      .ok { m with fields := fields.reverse ++ m.fields } := by
  induction h generalizing m with
  | nil => rfl
  | @cons n f _ _ hf _ ih =>
    have hread : readMember path className m n = .ok { m with fields := f :: m.fields } := by
      rw [readMember_of_field hf.1, hf.2]
      rfl
    rw [List.foldlM_cons, hread, Result.ok_bind, ih]
    simp

theorem foldlM_readMember_methods {className : Text} {ns : List Node} {methods : List Method}
    (h : List.Forall₂ (fun n method => n.base = some ("method" : Text) ∧
      readMethod path className n = .ok method) ns methods) (m : Members) :
    ns.foldlM (readMember path className) m =
      .ok { m with methods := methods.reverse ++ m.methods } := by
  induction h generalizing m with
  | nil => rfl
  | @cons n method _ _ hmethod _ ih =>
    have hread : readMember path className m n = .ok { m with methods := method :: m.methods } := by
      rw [readMember_of_method hmethod.1, hmethod.2]
      rfl
    rw [List.foldlM_cons, hread, Result.ok_bind, ih]
    simp

/-! ## Classes -/

/-- Dots and slashes between packages are exchanged twice. -/
theorem replace_replace {t : Text} (h : (0x2E : CodePoint) ∉ t) :
    Text.replace 0x2E 0x2F (Text.replace 0x2F 0x2E t) = t := by
  unfold Text.replace
  rw [List.map_map]
  refine (List.map_congr_left fun c hc => ?_).trans (List.map_id t)
  have hdot : c ≠ 0x2E := fun heq => h (heq ▸ hc)
  by_cases hslash : c = 0x2F
  · simp [hslash]
  · simp [hslash, hdot]

/-- A class that can be rendered has a node of which it is read back, its layout aside. -/
theorem exists_class {c : Class} (hs : c.IsSound) (hc : c.IsRenderable) :
    ∃ n, ofClass c = .ok n ∧ Class.ofTree n = .ok c.bare := by
  obtain ⟨hp, hdotless, hscalar⟩ := hc
  obtain ⟨major, minor, hofMajor, hofMinor, hversion⟩ := exists_version hs.version
  obtain ⟨access, hofAccess, haccess, hnameAccess⟩ := exists_intLeaf hs.access (some "access")
  obtain ⟨signature, hofSignature, hpieceSignature, hsignature⟩ :=
    exists_optionText c.signature "signature"
  obtain ⟨super, hofSuper, hpieceSuper, hsuper⟩ := exists_super c.super
  obtain ⟨interfaces, names, hofInterfaces, hpieceInterfaces, hnames, hinterfaces⟩ :=
    exists_names hp.interfaces "interfaces"
  obtain ⟨sourceFile, hofSourceFile, hpieceSourceFile, hsourceFile⟩ :=
    exists_optionText c.sourceFile "source-file"
  obtain ⟨annotations, hofAnnotations, hpieceAnnotations, hannotations⟩ :=
    exists_annotationUses hp.annotations
  obtain ⟨innerClasses, hofInnerClasses, hpieceInnerClasses, hinnerClasses⟩ :=
    exists_groupOf "inner-classes"
    fun i hi => exists_innerClass (hs.innerClasses i hi) (hp.innerClasses i hi)
  obtain ⟨enclosing, hofEnclosing, hpieceEnclosing, henclosing⟩ := exists_enclosing hp.enclosing
  obtain ⟨attributes, hofAttributes, hpieceAttributes, hattributes⟩ :=
    exists_attributes hp.attributes "attributes"
  obtain ⟨fields, hofFields, hfields⟩ := exists_mapM
    fun f hf => exists_field (hs.fields f hf) (hp.fields f hf)
  obtain ⟨methods, hofMethods, hmethods⟩ := exists_mapM
    fun m hm => exists_method (hs.methods m hm) (hp.methods m hm) (hscalar m hm)
  let n := entity "class" (some (Text.replace 0x2F 0x2E c.name))
    (group (some "version") [major, minor] :: access :: (signature ++ super :: (interfaces
      ++ sourceFile ++ annotations ++ innerClasses ++ enclosing ++ attributes ++ fields ++ methods)))
  have hn : n.HasParts ["version", "access", "signature", "supername", "interfaces", "source-file",
        "annotations", "inner-classes", "enclosing-method", "attributes"]
      [[group (some "version") [major, minor]], [access], signature, [super], interfaces, sourceFile,
        annotations, innerClasses, enclosing, attributes] (fields ++ methods) := by
    refine ⟨by decide, .cons (isPiece_group _ _)
      (.cons (haccess.isPiece hnameAccess) (.cons hpieceSignature
      (.cons hpieceSuper (.cons hpieceInterfaces (.cons hpieceSourceFile
      (.cons hpieceAnnotations (.cons hpieceInnerClasses (.cons hpieceEnclosing
      (.cons hpieceAttributes .nil))))))))), fun m hm => .inl ?_, by simp [n, entity]⟩
    rcases List.mem_append.1 hm with hm | hm
    · obtain ⟨f, -, hbase, -⟩ := Result.exists_of_mem_right hfields hm
      simp [Node.isMember, hbase]
    · obtain ⟨method, -, hbase, -⟩ := Result.exists_of_mem_right hmethods hm
      simp [Node.isMember, hbase]
  have hwrite : ofClass c = .ok n := by
    unfold ofClass
    simp only [hofMajor, hofMinor, hofAccess, hofSignature, hofSuper, hofInterfaces, hofSourceFile,
      hofAnnotations, hofInnerClasses, hofAttributes, hofFields, hofMethods, Result.ok_bind, pure_bind, n]
    rcases optionLeaf_eq_ok hofEnclosing with ⟨he, hns⟩ | ⟨e, node, he, hnode, hns⟩
    · simp only [he, hns]
      rfl
    · simp only [he, hnode, hns, Result.ok_bind]
      rfl
  refine ⟨n, hwrite, ?_⟩
  have hmembers (path className : Text) : n.children.foldlM (readMember path className) {} =
      .ok { fields := (c.fields.map Field.bare).reverse,
            methods := (c.methods.map Method.bare).reverse } := by
    have hfields' : List.Forall₂ (fun n f => n.base = some ("field" : Text) ∧ readField path n = .ok f)
        fields (c.fields.map Field.bare) :=
      List.forall₂_map_right_iff.2 (hfields.flip.imp fun _ _ h => ⟨h.1, h.2 path⟩)
    have hmethods' : List.Forall₂ (fun n m => n.base = some ("method" : Text) ∧
        readMethod path className n = .ok m) methods (c.methods.map Method.bare) :=
      List.forall₂_map_right_iff.2 (hmethods.flip.imp fun _ _ h => ⟨h.1, h.2 path className⟩)
    rw [hn.children, List.foldlM_append, foldlM_readMember_parts hn.pieces, Result.ok_bind,
      List.foldlM_append, foldlM_readMember_fields hfields', Result.ok_bind,
      foldlM_readMember_methods hmethods']
    simp
  have hread : readNamed c.name n = .ok c.bare := by
    have hversion (path : Text) : optional (readVersion path) n "version" =
        .ok (some (c.major, c.minor)) :=
      optional_of_part? (hn.part? 0 rfl rfl) (hversion path)
    have hsuper (path : Text) : optional (readSuper path) n "supername" = .ok (some c.super) :=
      optional_of_part? (hn.part? 3 rfl rfl) (hsuper path)
    simp only [readNamed, hversion, required_of_part? (hn.part? 1 rfl rfl) haccess.intOf, hsuper,
      henclosing n _ (hn.part? 8 rfl rfl), hinnerClasses n _ (hn.part? 7 rfl rfl), hmembers,
      hsignature n _ (hn.part? 2 rfl rfl), hinterfaces n _ (hn.part? 4 rfl rfl),
      hannotations n _ (hn.part? 6 rfl rfl), hsourceFile n _ (hn.part? 5 rfl rfl),
      hattributes n _ (hn.part? 9 rfl rfl), Result.ok_bind, hnames, List.reverse_reverse]
    rfl
  obtain ⟨first, rest, hname⟩ := List.exists_cons_of_ne_nil
    (show Text.replace 0x2F 0x2E c.name ≠ [] by simp [Text.replace, hp.name])
  have hbase : n.base = some ("class" : Text) := rfl
  have hnamed : n.name = some (first :: rest) := congrArg some hname
  refine (if_pos hbase).trans ?_
  rw [hnamed]
  dsimp only
  rw [← hname, replace_replace hdotless, hread]

end ClassTree.Tree

namespace ClassTree.Class

/-- A class that has been read of a class file or of a tree is written as a tree, and the tree is
read back as a class that equals it. Equality is that of values: layouts are not compared, and
labels are the same names in both classes. Every part of an entity finds its node by the name of the
group it stands in, so reading does not depend on how many optional parts there are. -/
theorem exists_same_of_toTree {c : Class}
    (h : (∃ bytes, ofBytes bytes = .ok c) ∨ ∃ n, ofTree n = .ok c) (hc : c.IsRenderable) :
    ∃ n c', c.toTree = .ok n ∧ ofTree n = .ok c' ∧ c.same c' = true := by
  have hs : c.IsSound := by
    rcases h with ⟨bytes, hbytes⟩ | ⟨n, hn⟩
    · exact isSound_of_ofBytes hbytes
    · exact isSound_of_ofTree hn
  obtain ⟨n, hn, hread⟩ := Tree.exists_class hs hc
  refine ⟨n.numbered, c.bare, ?_, ?_, hc.proper.same_bare⟩
  · simp [toTree, hn]
  · rw [ofTree_numbered, hread]

/-- A class with an annotation, a constant and a method that never ends. -/
def endlessClass : Class where
  name := "a/Endless"
  annotations := [⟨"La/Level;", true, [("value", .scalar .int (.int 2))]⟩]
  fields := [{ access := 0x19, name := "LIMIT", descriptor := "J", value := some (.int 10) }]
  methods := [{
    access := 9, name := "run", descriptor := "()V", maxima := some ⟨0, 0⟩
    body := [.label ⟨"L0"⟩, .line 3, .frame ⟨.same, [], [], 0⟩, .instruction (.jump .goto ⟨"L0"⟩)] }]

/-- The endless class is as readers give classes. -/
theorem isSound_endlessClass : endlessClass.IsSound where
  access := ⟨by decide, by decide⟩
  version := ⟨⟨by decide, by decide⟩, by decide, by decide⟩
  fields := by
    simp only [endlessClass, List.forall_mem_singleton]
    exact ⟨by decide, by decide⟩
  methods := by
    simp only [endlessClass, List.forall_mem_singleton]
    refine ⟨⟨by decide, by decide⟩, by simp, ?_, ?_, by simp, ?_, by simp⟩
    · rintro _ ⟨⟩
      exact ⟨⟨by decide, by decide⟩, by decide, by decide⟩
    · simp only [List.forall_mem_cons]
      refine ⟨trivial, ⟨by decide, by decide⟩, ?_, rfl, by simp⟩
      exact ⟨by decide, by simp, by simp, by decide, by decide⟩
    · exact ⟨by decide, by decide, by simp, by simp⟩
  innerClasses := by simp [endlessClass]

theorem isRenderable_endlessClass : endlessClass.IsRenderable where
  proper := by
    refine ⟨by decide, by simp [endlessClass], ?_, ?_, ?_, by simp [endlessClass],
      by simp [endlessClass], by simp [endlessClass]⟩
    · simp only [endlessClass, List.forall_mem_singleton]
      refine ⟨by decide, ?_, by simp, by simp⟩
      rintro _ ⟨⟩
      exact ⟨.long ⟨by decide, by decide⟩, trivial⟩
    · simp only [endlessClass, List.forall_mem_singleton]
      refine ⟨by decide, by simp, by simp, ?_, by simp, by simp, by simp⟩
      simp only [List.forall_mem_cons]
      exact ⟨trivial, trivial, by simp [Item.IsProper], trivial, by simp⟩
    · simp only [endlessClass, List.forall_mem_singleton]
      exact ⟨⟨⟨.int, rfl, .int ⟨by decide, by decide⟩⟩, trivial⟩, trivial⟩
  dotless := by decide
  scalar := by
    simp [endlessClass]

/-- The endless class, which is read of its own tree, is read back as itself. -/
theorem exists_same_endlessClass : (∃ n, ofTree n = .ok endlessClass) ∧ endlessClass.IsRenderable ∧
    ∃ n c', endlessClass.toTree = .ok n ∧ ofTree n = .ok c' ∧ endlessClass.same c' = true := by
  have hread : ∃ n, ofTree n = .ok endlessClass := by
    obtain ⟨n, -, hn⟩ := Tree.exists_class isSound_endlessClass isRenderable_endlessClass
    exact ⟨n, hn⟩
  exact ⟨hread, isRenderable_endlessClass,
    exists_same_of_toTree (.inr hread) isRenderable_endlessClass⟩

end ClassTree.Class

namespace ClassTree.Class

open ClassTree.Tree

/-- A class of a class file that has a tree, and whose names are written as they are without a line
feed, comes back from the text of its tree as a class that equals it. The root of the tree has the
greatest line marker, and a class file is too small for one that has no numeral. -/
theorem exists_read_of_ofBytes {bytes : Bytes} {c : Class} (h : ofBytes bytes = .ok c)
    (hc : c.IsRenderable) (hnames : c.HasOneLineNames) :
    ∃ n c', c.toTree = .ok n ∧ Node.read n.render = .ok n ∧ ofTree n = .ok c' ∧ c.same c' = true := by
  obtain ⟨n, c', hn, hread, hsame⟩ := exists_same_of_toTree (.inl ⟨bytes, h⟩) hc
  refine ⟨n, c', hn, ?_, hread, hsame⟩
  obtain ⟨root, hroot, hnumbered⟩ := Result.bind_eq_ok_iff.1 hn
  cases hnumbered
  have hplain := gives_ofClass (isSound_of_ofBytes h) hnames root hroot
  obtain ⟨hlines, hnumerals⟩ := all_hasNumeral_numbered hplain (entities_lt_of_ofBytes h)
  exact (Node.read_eq_ok hlines hnumerals).2

/-- An entry of a constant pool for a short text. -/
def textEntry (bytes : Bytes) : Bytes := 1 :: 0 :: UInt8.ofNat bytes.length :: bytes

/-- A class file with a field of a name and an abstract method of a type. -/
def namedFile (name type : Bytes) : Bytes :=
  [0xCA, 0xFE, 0xBA, 0xBE, 0, 0, 0, 0x34, 0, 7, 7, 0, 2, 1, 0, 1, 0x41] ++ textEntry name ++
    [1, 0, 1, 0x49, 1, 0, 1, 0x66] ++ textEntry type ++
    [4, 0x21, 0, 1, 0, 0, 0, 0, 0, 1, 0, 1, 0, 3, 0, 4, 0, 0, 0, 1, 4, 1, 0, 5, 0, 6, 0, 0, 0, 0]

/-- What is read from the class file. -/
def namedClass (name type : Text) (parameters : List Parameter) (layout : ClassLayout) : Class where
  access := 0x421
  name := "A"
  major := 52
  minor := 0
  super := none
  fields := [{ access := 1, name, descriptor := "I" }]
  methods := [{ access := 0x401, name := "f", descriptor := type, parameters }]
  layout := layout

variable {name type : Text} {parameters : List Parameter} {layout : ClassLayout}

/-- The class is proper if the field has a name and the parameters have no annotations. -/
theorem isProper_namedClass (hname : name ≠ []) (hparameters : ∀ p ∈ parameters, p.annotations = []) :
    (namedClass name type parameters layout).IsProper where
  name := show ("A" : Text) ≠ [] by decide
  interfaces := nofun
  fields := by
    intro f hf
    obtain rfl := List.mem_singleton.1 hf
    exact ⟨hname, nofun, nofun, nofun⟩
  methods := by
    intro m hm
    obtain rfl := List.mem_singleton.1 hm
    refine ⟨show ("f" : Text) ≠ [] by decide, nofun, fun p hp a ha => ?_, by simp, nofun, nofun, nofun⟩
    rw [hparameters p hp] at ha
    cases ha
  annotations := nofun
  innerClasses := nofun
  enclosing := nofun
  attributes := nofun

theorem notMem_name_namedClass : (0x2E : CodePoint) ∉ (namedClass name type parameters layout).name :=
  show (0x2E : CodePoint) ∉ ("A" : Text) by decide

/-- The class has a tree if the types of the parameters have no surrogates. -/
theorem isRenderable_namedClass (hname : name ≠ [])
    (hparameters : ∀ p ∈ parameters, p.annotations = [] ∧ p.descriptor.isScalar = true) :
    (namedClass name type parameters layout).IsRenderable where
  proper := isProper_namedClass hname fun p hp => (hparameters p hp).1
  dotless := notMem_name_namedClass
  scalar := by
    intro m hm p hp
    obtain rfl := List.mem_singleton.1 hm
    exact (hparameters p hp).2

/-- The names of the class stand in one line if that of the field does. -/
theorem hasOneLineNames_namedClass (hname : 0x0A ∉ name) :
    (namedClass name type parameters layout).HasOneLineNames where
  name := show 0x0A ∉ ("A" : Text) by decide
  attributes := nofun
  fields := by
    intro f hf
    obtain rfl := List.mem_singleton.1 hf
    exact ⟨hname, nofun⟩
  methods := by
    intro m hm
    obtain rfl := List.mem_singleton.1 hm
    exact ⟨show 0x0A ∉ ("f" : Text) by decide, nofun, nofun⟩

/-- A tab, a quote, a backslash and a surrogate alone in the name of a field, and a control
character in the type of a parameter, come back from the text. -/
theorem exists_read_namedFile :
    ∃ c, ofBytes (namedFile [0x09, 0x22, 0x5C, 0xED, 0xA0, 0x80]
      [0x28, 0x4C, 1, 0x3B, 0x29, 0x56]) = .ok c ∧
      c.IsRenderable ∧ c.HasOneLineNames ∧
      ∃ n c', c.toTree = .ok n ∧ Node.read n.render = .ok n ∧ ofTree n = .ok c' ∧ c.same c' = true := by
  obtain ⟨c, h, hc⟩ :
      ∃ c, ofBytes (namedFile [0x09, 0x22, 0x5C, 0xED, 0xA0, 0x80]
        [0x28, 0x4C, 1, 0x3B, 0x29, 0x56]) = .ok c ∧
        c = namedClass [0x09, 0x22, 0x5C, 0xD800] [0x28, 0x4C, 1, 0x3B, 0x29, 0x56]
          [{ index := 0, descriptor := [0x4C, 1, 0x3B] }] c.layout := ⟨_, by cbv, rfl⟩
  have hrenderable : c.IsRenderable := by
    rw [hc]
    exact isRenderable_namedClass (by decide) (List.forall_mem_singleton.2 ⟨rfl, by decide⟩)
  have hnames : c.HasOneLineNames := by
    rw [hc]
    exact hasOneLineNames_namedClass (by decide)
  exact ⟨c, h, hrenderable, hnames, exists_read_of_ofBytes h hrenderable hnames⟩

set_option maxRecDepth 20000 in
/-- A line feed in the name of a field makes a text that is refused, and a surrogate in the type of
a parameter leaves the class without a tree. -/
theorem exists_error_namedFile :
    (∃ c n, ofBytes (namedFile [0x0A] [0x28, 0x29, 0x56]) = .ok c ∧ c.IsRenderable ∧ c.toTree = .ok n ∧
      ∃ e, Node.read n.render = .error e) ∧
    ∃ c, ofBytes (namedFile [0x41] [0x28, 0x4C, 0xED, 0xA0, 0x80, 0x3B, 0x29, 0x56]) = .ok c ∧
      c.IsProper ∧ (0x2E : CodePoint) ∉ c.name ∧ c.HasOneLineNames ∧ ∃ e, c.toTree = .error e := by
  constructor
  · obtain ⟨c, n, h, hc, hn, hread⟩ :
        ∃ c n, ofBytes (namedFile [0x0A] [0x28, 0x29, 0x56]) = .ok c ∧
          c = namedClass [0x0A] [0x28, 0x29, 0x56] [] c.layout ∧ c.toTree = .ok n ∧
          ∃ e, Node.read n.render = .error e := ⟨_, _, by cbv, rfl, by cbv, _, by cbv⟩
    refine ⟨c, n, h, ?_, hn, hread⟩
    rw [hc]
    exact isRenderable_namedClass (by decide) (List.forall_mem_nil _)
  · obtain ⟨c, h, hc, htree⟩ :
        ∃ c, ofBytes (namedFile [0x41] [0x28, 0x4C, 0xED, 0xA0, 0x80, 0x3B, 0x29, 0x56]) = .ok c ∧
          c = namedClass [0x41] [0x28, 0x4C, 0xD800, 0x3B, 0x29, 0x56]
            [{ index := 0, descriptor := [0x4C, 0xD800, 0x3B] }] c.layout ∧
          ∃ e, c.toTree = .error e := ⟨_, by cbv, rfl, _, by cbv⟩
    refine ⟨c, h, ?_, ?_, ?_, htree⟩
    all_goals rw [hc]
    · exact isProper_namedClass (by decide) (List.forall_mem_singleton.2 rfl)
    · exact notMem_name_namedClass
    · exact hasOneLineNames_namedClass (by decide)

end ClassTree.Class
