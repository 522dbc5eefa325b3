/-
# ClassTree.Proofs.Tree.Entity — annotations and members read back

What is written of an annotation, a field or a method is read back as what it was, however its node
is placed in the tree. The layout that a class file has given to a member is not written and is
lost.
-/
import ClassTree.Proofs.Tree.Body
import ClassTree.Proofs.Tree.Marker
import ClassTree.Proofs.Text.Base64

namespace ClassTree.Tree

open Literal (Kind IsOf)

variable {path place name : Text} {n : Node}

/-! ## Annotations -/

theorem exists_scalar {tag : ElementTag} {kind : Kind} {v : Constant}
    (htag : Literal.elementKind? tag = some kind) (h : IsOf kind v) (hv : v.IsNumber) :
    ∃ n, ofElement (.scalar tag v) = .ok n ∧ ∀ path, readElement path n = .ok (.scalar tag v) := by
  obtain ⟨n, hn, hholds, hname⟩ := exists_leaf h hv (some tag.letter)
  have hletter : ElementTag.ofLetter? tag.letter = some tag := by
    cases tag <;> first | decide | cases htag
  have hbase (base : Text) (hbase : ∀ kind : Kind, kind.name ≠ base) : n.base ≠ some base := by
    rw [hholds.base]
    exact fun heq => hbase kind (Option.some.inj heq)
  refine ⟨n, by rw [ofElement, htag]; exact hn, fun path => ?_⟩
  rw [readElement_eq, if_neg (hbase _ (by intro kind; cases kind <;> decide)),
    if_neg (hbase _ (by intro kind; cases kind <;> decide)),
    if_neg (hbase _ (by intro kind; cases kind <;> decide))]
  have htagOf : tagOf? n = some tag := by
    rw [tagOf?, hholds.isLeaf, hname]
    exact hletter
  rw [htagOf]
  show readScalar path tag n = _
  rw [readScalar, htag]
  simp only [hholds.constantOf (List.mem_singleton_self kind)]
  rfl

/-- The nodes of properties, and the values that are read of them. -/
structure ArePropertiesOf (ns : List Node) (values : List (Text × ElementValue)) : Prop where
  isNameless : ∀ n ∈ ns, n.name = none
  read : ∀ path descriptor acc,
    readProperties path descriptor ns acc = .ok (acc.reverse ++ values)

/-- An annotation whose values have nodes. -/
theorem exists_parts (descriptor : Text) (visible : Bool) {values : List (Text × ElementValue)}
    {ns : List Node}
    (hns : ofNamed values [] = .ok ns) (h : ArePropertiesOf ns values) :
    ∃ n, ofParts descriptor visible values = .ok n ∧ n.base = some ("annotation" : Text) ∧ ∀ path,
      readParts path n (fun descriptor => readProperties path descriptor n.children []) =
        .ok { descriptor, visible, values } := by
  obtain ⟨d, hd, hdescriptor, hdname⟩ := exists_textLeaf descriptor (some "descriptor")
  obtain ⟨b, hb, hvisible, hbname⟩ := exists_boolLeaf visible (some "visible")
  let n := entity "annotation" none (d :: b :: ns)
  have hn : n.HasParts ["descriptor", "visible"] [[d], [b]] ns :=
    ⟨by decide, .cons (hdescriptor.isPiece hdname) (.cons (hvisible.isPiece hbname) .nil),
      fun m hm => .inr (h.isNameless m hm), rfl⟩
  refine ⟨n, by simp [ofParts, hd, hb, hns, n], rfl, fun path => ?_⟩
  have hskip {m : Node} {kind : Kind} {v : Constant} (hm : m.Holds kind v) (rest : List Node)
      (acc : List (Text × ElementValue)) : readProperties path descriptor (m :: rest) acc =
        readProperties path descriptor rest acc := by
    have hproperty : readProperty path descriptor m = .ok none := by
      obtain ⟨base, _, _, _, _, children⟩ := m
      obtain rfl : base = some kind.name := hm.base
      have hne : some kind.name ≠ some ("property" : Text) := by cases kind <;> decide
      unfold readProperty
      exact if_neg hne
    rw [readProperties, hproperty]
    rfl
  have hread : readProperties path descriptor n.children [] = .ok values := by
    show readProperties path descriptor (d :: b :: ns) [] = .ok values
    rw [hskip hdescriptor, hskip hvisible, h.read]
    rfl
  have hdescriptor : required (textOf path) n "descriptor" "annotation" = .ok descriptor :=
    required_of_part? (hn.part? 0 rfl rfl) hdescriptor.textOf _
  have hvisible : required (boolOf path) n "visible" ("annotation " ++ descriptor) = .ok visible :=
    required_of_part? (hn.part? 1 rfl rfl) hvisible.boolOf _
  have hbase : n.base = some ("annotation" : Text) := rfl
  simp only [readParts, hbase, hdescriptor, Result.ok_bind, hread, hvisible]
  rfl

mutual

theorem exists_element : ∀ {v : ElementValue}, v.IsProper →
    ∃ n, ofElement v = .ok n ∧ ∀ path, readElement path n = .ok v
  | .scalar tag v, h => by
    obtain ⟨⟨kind, htag, hof⟩, hv⟩ := h
    exact exists_scalar htag hof hv
  | .enum descriptor name, _ => by
    obtain ⟨d, hd, hdescriptor, hdname⟩ := exists_textLeaf descriptor (some "descriptor")
    obtain ⟨m, hm, hname, hmname⟩ := exists_textLeaf name (some "name")
    let n := entity "enum" none [d, m]
    have hn : n.HasParts ["descriptor", "name"] [[d], [m]] [] :=
      ⟨by decide, .cons (hdescriptor.isPiece hdname) (.cons (hname.isPiece hmname) .nil), nofun, rfl⟩
    refine ⟨n, by simp [ofElement, hd, hm, n], fun path => ?_⟩
    have hdescriptor : required (textOf path) n "descriptor" "enum" = .ok descriptor :=
      required_of_part? (hn.part? 0 rfl rfl) hdescriptor.textOf _
    have hname : required (textOf path) n "name" "enum" = .ok name :=
      required_of_part? (hn.part? 1 rfl rfl) hname.textOf _
    have hbase : n.base = some ("enum" : Text) := rfl
    rw [readElement_eq, hbase, if_neg (by decide), if_pos rfl, hdescriptor, hname]
    rfl
  | .nested descriptor visible values, h => by
    obtain ⟨ns, hns, hread⟩ := exists_named h
    obtain ⟨n, hn, hbase, hparts⟩ := exists_parts descriptor visible (hns []) hread
    refine ⟨n, by rw [ofElement]; exact hn, fun path => ?_⟩
    rw [readElement_eq, hbase, if_pos rfl, hparts]
    rfl
  | .array elements, h => by
    obtain ⟨ns, hns, hread⟩ := exists_elements h
    refine ⟨group (some "array") ns, by simp [ofElement, hns], fun path => ?_⟩
    have hbase : (group (some "array") ns).base = some ("tuple" : Text) := rfl
    have hchildren : (group (some "array") ns).children = ns := rfl
    rw [readElement_eq, hbase, if_neg (by decide), if_neg (by decide), if_pos rfl, hchildren,
      hread]
    rfl

theorem exists_elements : ∀ {vs : List ElementValue}, ElementValue.AreProper vs →
    ∃ ns, (∀ acc, ofElements vs acc = .ok (acc.reverse ++ ns)) ∧
      ∀ path acc, readElements path ns acc = .ok (acc.reverse ++ vs)
  | [], _ => ⟨[], fun acc => by simp [ofElements], fun path acc => by simp [readElements]⟩
  | v :: rest, h => by
    obtain ⟨n, hn, hread⟩ := exists_element h.1
    obtain ⟨ns, hns, hreads⟩ := exists_elements h.2
    refine ⟨n :: ns, fun acc => ?_, fun path acc => ?_⟩
    · simp [ofElements, hn, hns]
    · simp [readElements, hread, hreads]

theorem exists_named : ∀ {vs : List (Text × ElementValue)}, ElementValue.AreProperNamed vs →
    ∃ ns, (∀ acc, ofNamed vs acc = .ok (acc.reverse ++ ns)) ∧ ArePropertiesOf ns vs
  | [], _ => ⟨[], fun acc => by simp [ofNamed], nofun, fun path descriptor acc => by
    simp [readProperties]⟩
  | (name, v) :: rest, h => by
    obtain ⟨m, hm, hname, -⟩ := exists_textLeaf name none
    obtain ⟨n, hn, hread⟩ := exists_element h.1
    obtain ⟨ns, hns, hnameless, hreads⟩ := exists_named h.2
    refine ⟨entity "property" none [m, n] :: ns, fun acc => ?_,
      List.forall_mem_cons.2 ⟨rfl, hnameless⟩, fun path descriptor acc => ?_⟩
    · simp [ofNamed, hm, hn, hns]
    · have hproperty : readProperty path descriptor (entity "property" none [m, n]) =
          .ok (some (name, v)) := by
        rw [entity, readProperty]
        simp only [hname.textOf, Result.ok_bind, hread]
        rfl
      simp [readProperties, hproperty, hreads]

end

theorem exists_annotationUse {a : AnnotationUse} (h : a.IsProper) :
    ∃ n, ofAnnotationUse a = .ok n ∧ ∀ path, readAnnotationUse path n = .ok a := by
  obtain ⟨ns, hns, hread⟩ := exists_named h
  obtain ⟨n, hn, -, hparts⟩ := exists_parts a.descriptor a.visible (hns []) hread
  exact ⟨n, hn, hparts⟩

theorem exists_annotationUses {as : List AnnotationUse} (h : ∀ a ∈ as, a.IsProper) :
    ∃ ns, ofAnnotationUses as = .ok ns ∧ IsPiece "annotations" ns ∧ ∀ (n : Node) (path : Text),
      n.part? "annotations" = ns.head? → readAnnotationUses path n = .ok as :=
  exists_groupOf _ fun a ha => exists_annotationUse (h a ha)

/-! ## Fields -/

theorem exists_attributes {as : List Attribute} (h : ∀ a ∈ as, a.name ≠ []) (name : Text) :
    ∃ ns, groupOf name ofAttribute as = .ok ns ∧ IsPiece name ns ∧ ∀ (n : Node) (path : Text),
      n.part? name = ns.head? → readAttributes path n name = .ok as := by
  refine exists_groupOf name fun a ha => ?_
  obtain ⟨n, hn, hdata, -⟩ := exists_leaf (.bytes a.data) trivial none
  refine ⟨entity "attribute" (some a.name) [n], by simp [ofAttribute, hn], fun path => ?_⟩
  obtain ⟨c, rest, hname⟩ := List.exists_cons_of_ne_nil (h a ha)
  simp only [readAttribute, entity, hname, hdata.bytesOf, Result.ok_bind]
  rw [← hname]
  rfl

theorem exists_fieldValue {f : Field} (h : ∀ v ∈ f.value, IsOf (Literal.fieldKind f.descriptor v) v ∧
    v.IsNumber) : ∃ ns, ofFieldValue f = .ok ns ∧ IsPiece "value" ns ∧ ∀ (n : Node) (path : Text),
      n.part? "value" = ns.head? →
        optional (constantOf path [.int, .long, .float, .double, .string]) n "value" = .ok f.value := by
  refine exists_optionLeaf fun v hv => ?_
  obtain ⟨n, hn, hholds, hname⟩ := exists_leaf (h v hv).1 (h v hv).2 (some "value")
  refine ⟨n, hn, hname, hholds.isMember, fun path => hholds.constantOf ?_⟩
  unfold Literal.fieldKind
  split_ifs
  · simp
  · simp
  · simp
  · split <;> simp

theorem memberName_eq {kind : Text} (hname : n.name = some name) (hne : name ≠ []) :
    memberName n kind = .ok name := by
  obtain ⟨c, rest, rfl⟩ := List.exists_cons_of_ne_nil hne
  simp only [memberName, hname]

theorem exists_field {f : Field} (hs : IsInt f.access) (hp : f.IsProper) :
    ∃ n, ofField f = .ok n ∧ n.base = some ("field" : Text) ∧ ∀ path, readField path n = .ok f.bare := by
  obtain ⟨access, hofAccess, haccess, hnameAccess⟩ := exists_intLeaf hs (some "access")
  obtain ⟨descriptor, hofDescriptor, hdescriptor, hnameDescriptor⟩ :=
    exists_textLeaf f.descriptor (some "descriptor")
  obtain ⟨signature, hofSignature, hpieceSignature, hsignature⟩ :=
    exists_optionText f.signature "signature"
  obtain ⟨value, hofValue, hpieceValue, hvalue⟩ := exists_fieldValue hp.value
  obtain ⟨annotations, hofAnnotations, hpieceAnnotations, hannotations⟩ :=
    exists_annotationUses hp.annotations
  obtain ⟨attributes, hofAttributes, hpieceAttributes, hattributes⟩ :=
    exists_attributes hp.attributes "attributes"
  let n := entity "field" (some f.name)
    (access :: descriptor :: (signature ++ value ++ annotations ++ attributes))
  have hn : n.HasParts
      ["access", "descriptor", "signature", "value", "annotations", "attributes"]
      [[access], [descriptor], signature, value, annotations, attributes] [] :=
    ⟨by decide, .cons (haccess.isPiece hnameAccess) (.cons (hdescriptor.isPiece hnameDescriptor)
      (.cons hpieceSignature (.cons hpieceValue
        (.cons hpieceAnnotations (.cons hpieceAttributes .nil))))), nofun, by simp [n, entity]⟩
  refine ⟨n, by simp [ofField, hofAccess, hofDescriptor, hofSignature, hofValue, hofAnnotations,
    hofAttributes, n], rfl, fun path => ?_⟩
  simp only [readField, memberName_eq (n := n) rfl hp.name, Result.ok_bind,
    required_of_part? (hn.part? 0 rfl rfl) haccess.intOf,
    required_of_part? (hn.part? 1 rfl rfl) hdescriptor.textOf,
    hsignature n _ (hn.part? 2 rfl rfl), hvalue n _ (hn.part? 3 rfl rfl),
    hannotations n _ (hn.part? 4 rfl rfl), hattributes n _ (hn.part? 5 rfl rfl)]
  rfl

/-! ## Parameters -/

/-- A text without surrogates is read back from the name of a parameter. -/
theorem parameterType_render {t : Text} (h : t.isScalar = true) :
    parameterType path (Base64.render (Utf8.encode t)) = .ok t := by
  have hascii : (Base64.render (Utf8.encode t)).all (fun c => c.val < 0x80) = true :=
    List.all_eq_true.2 fun c hc => decide_eq_true (Base64.of_mem_render hc).1
  unfold parameterType
  rw [if_pos hascii, Base64.read?_render, Option.bind_some, Utf8.decode_encode h]
  rfl

/-- The name of a parameter falls apart into its word, its type and its place. -/
theorem splitOn_join (bytes : Bytes) (k : Nat) :
    Text.splitOn hyphen (Text.join [hyphen] [parameterWord, Base64.render bytes, Text.ofNat k]) =
      [parameterWord, Base64.render bytes, Text.ofNat k] := by
  have hrender : hyphen ∉ Base64.render bytes := fun h => (Base64.of_mem_render h).2 rfl
  have hjoin : Text.join [hyphen] [parameterWord, Base64.render bytes, Text.ofNat k] =
      parameterWord ++ hyphen :: (Base64.render bytes ++ hyphen :: Text.ofNat k) := by
    simp [Text.join]
  rw [hjoin, Text.splitOn_append_cons (by decide),
    Text.splitOn_append_cons hrender, Text.splitOn_of_notMem (hyphen_notMem_ofNat k)]

/-- A parameter whose type has no surrogates has a node, and the node is read back as the parameter.
The type stands in the name of the node, in base 64 of its strict UTF-8, which is where surrogates
are refused. -/
theorem exists_parameter {p : Parameter} (hs : p.IsSound) (hp : ∀ a ∈ p.annotations, a.IsProper)
    (hscalar : p.descriptor.isScalar = true) :
    ∃ n, ofParameter p = .ok n ∧ ∀ path, readParameter path n = .ok p := by
  obtain ⟨annotations, hofAnnotations, hpieceAnnotations, hannotations⟩ := exists_annotationUses hp
  obtain ⟨name, hofName, hpieceName, hname⟩ := exists_optionText p.name "name"
  obtain ⟨access, hofAccess, hpieceAccess, haccess⟩ := exists_intUnlessZero hs.access "access"
  obtain ⟨k, hk⟩ := Int.eq_ofNat_of_zero_le hs.index.1
  let word := Text.join [hyphen]
    [parameterWord, Base64.render (Utf8.encode p.descriptor), Text.ofNat k]
  have hword : parameterName p.descriptor p.index = .ok word := by
    rw [parameterName, if_pos hscalar, hk]
    rfl
  let n := entity "param" (some word) (annotations ++ name ++ access)
  have hn : n.HasParts ["annotations", "name", "access"] [annotations, name, access] [] :=
    ⟨by decide, .cons hpieceAnnotations (.cons hpieceName (.cons hpieceAccess .nil)),
      nofun, by simp [n, entity]⟩
  have hwrite : ofParameter p = .ok n := by
    unfold ofParameter
    rw [hofAnnotations, Result.ok_bind, hofName, Result.ok_bind]
    refine (hofAccess fun access => do
      let word ← parameterName p.descriptor p.index
      return entity "param" (some word) (annotations ++ name ++ access)).trans ?_
    rw [hword]
    rfl
  refine ⟨n, hwrite, fun path => ?_⟩
  obtain ⟨access?, haccess?, hgetD⟩ := haccess n path (hn.part? 2 rfl rfl)
  have hlength : k < 10 ^ Text.maxNumeralLength := by simpa [hk] using hs.index.2
  have hreadName : readParameterName path n = .ok (p.descriptor, p.index) := by
    have hname : n.name.getD [] = word := rfl
    unfold readParameterName
    simp only [hname, word, splitOn_join]
    rw [if_pos ⟨rfl, trivial, Text.isNumeric_ofNat k⟩, parameterType_render hscalar,
      Text.toNat?_ofNat hlength, hk]
    rfl
  simp only [readParameter, hreadName, Result.ok_bind, hannotations n _ (hn.part? 0 rfl rfl),
    hname n _ (hn.part? 1 rfl rfl), haccess?, hgetD]
  rfl

/-! ## Code -/

/-- The sizes of the stack and of the locals. -/
theorem exists_maxima {m? : Option Maxima} (h : ∀ m ∈ m?, IsInt m.stack ∧ IsInt m.locals) :
    ∃ ns, optionLeaf (fun sizes _ => ofMaxima sizes) m? "maxs" = .ok ns ∧ IsPiece "maxs" ns ∧
      ∀ (n : Node) (path : Text), n.part? "maxs" = ns.head? →
        optional (readMaxima path) n "maxs" = .ok m? :=
  exists_optionLeaf fun m hm => by
    obtain ⟨stack, hofStack, hstack, -⟩ := exists_intLeaf (h m hm).1 none
    obtain ⟨locals, hofLocals, hlocals, -⟩ := exists_intLeaf (h m hm).2 none
    refine ⟨group (some "maxs") [stack, locals], by simp [ofMaxima, hofStack, hofLocals], rfl,
      isMember_entity (by decide) _ _, fun path => ?_⟩
    simp only [readMaxima, group, entity, hstack.intOf, hlocals.intOf, Result.ok_bind]
    rfl

theorem exists_handler (h : Handler) : ∃ n, ofHandler h = .ok n ∧
    ∀ at_, Reaches (readHandler at_ n) h [] h.references := by
  obtain ⟨start, hofStart, hstart, -⟩ := exists_labelLeaf h.start none
  obtain ⟨stop, hofStop, hstop, -⟩ := exists_labelLeaf h.stop none
  obtain ⟨target, hofTarget, htarget, -⟩ := exists_labelLeaf h.target none
  have hlabel {m : Node} {l : Label} (h : m.Holds .label (.label l)) : m.base = some ("label" : Text) :=
    h.base
  have hne : ("label" : Text) ≠ "string" := by decide
  obtain ⟨first, last, goal, type?⟩ := h
  cases type? with
  | none =>
    let n := entity "try-catch-entry" none [start, stop, target]
    have hlabels : n.childrenOf "label" = [start, stop, target] := by
      simp [n, Node.childrenOf, entity, hlabel hstart, hlabel hstop, hlabel htarget]
    have htypes : n.childrenOf "string" = [] := by
      simp [n, Node.childrenOf, entity, hlabel hstart, hlabel hstop, hlabel htarget, hne]
    refine ⟨n, by simp [ofHandler, hofStart, hofStop, hofTarget, n], fun at_ => ?_⟩
    unfold readHandler
    simp only [hlabels, htypes]
    exact (reaches_readReference hstart.labelOf).bind
      ((reaches_readReference hstop.labelOf).bind ((reaches_readReference htarget.labelOf).bind_pure _))
  | some t =>
    obtain ⟨type, hofType, htype, -⟩ := exists_textLeaf t none
    have hstring : type.base = some ("string" : Text) := htype.base
    let n := entity "try-catch-entry" none [start, stop, target, type]
    have hlabels : n.childrenOf "label" = [start, stop, target] := by
      simp [n, Node.childrenOf, entity, hlabel hstart, hlabel hstop, hlabel htarget, hstring, hne.symm]
    have htypes : n.childrenOf "string" = [type] := by
      simp [n, Node.childrenOf, entity, hlabel hstart, hlabel hstop, hlabel htarget, hstring, hne]
    refine ⟨n, by simp [ofHandler, hofStart, hofStop, hofTarget, hofType, n], fun at_ => ?_⟩
    unfold readHandler
    simp only [hlabels, htypes]
    exact (reaches_readReference hstart.labelOf).bind
      ((reaches_readReference hstop.labelOf).bind ((reaches_readReference htarget.labelOf).bind
        (.lift_bind htype.textOf (.pure _))))

theorem exists_localVariable {v : LocalVariable} (hs : v.IsSound) : ∃ n, ofLocalVariable v = .ok n ∧
    ∀ at_, Reaches (readLocalVariable at_ n) v [] v.references := by
  obtain ⟨name, hofName, hname, hnameName⟩ := exists_textLeaf v.name (some "name")
  obtain ⟨descriptor, hofDescriptor, hpieceDescriptor, hdescriptor⟩ :=
    exists_optionText v.descriptor "descriptor"
  obtain ⟨start, hofStart, hstart, hnameStart⟩ := exists_labelLeaf v.start (some "start")
  obtain ⟨stop, hofStop, hstop, hnameStop⟩ := exists_labelLeaf v.stop (some "end")
  obtain ⟨slot, hofSlot, hslot, hnameSlot⟩ := exists_intLeaf hs.slot (some "index")
  obtain ⟨signature, hofSignature, hpieceSignature, hsignature⟩ :=
    exists_optionText v.signature "signature"
  let n := entity "local-variable" none
    (name :: (descriptor ++ [start, stop, slot] ++ signature))
  have hn : n.HasParts ["name", "descriptor", "start", "end", "index", "signature"]
      [[name], descriptor, [start], [stop], [slot], signature] [] :=
    ⟨by decide, .cons (hname.isPiece hnameName) (.cons hpieceDescriptor (.cons (hstart.isPiece hnameStart)
      (.cons (hstop.isPiece hnameStop) (.cons (hslot.isPiece hnameSlot)
        (.cons hpieceSignature .nil))))), nofun,
      by simp [n, entity]⟩
  refine ⟨n, by simp [ofLocalVariable, hofName, hofDescriptor, hofStart, hofStop, hofSlot,
    hofSignature, n], fun at_ => ?_⟩
  have hread := hsignature n at_.path (hn.part? 5 rfl rfl)
  have htyped : ¬(v.descriptor.isNone && (n.part? "signature").isNone) = true := by
    rcases hs.typed with h | h
    · simp [Option.isSome_iff_ne_none.1 h]
    · cases hpart : n.part? "signature" with
      | none =>
        rw [optional_of_part?_none hpart] at hread
        rw [← Except.ok.inj hread] at h
        cases h
      | some p => simp
  exact .of_eq (.lift_bind (required_of_part? (hn.part? 0 rfl rfl) hname.textOf _)
    (.lift_bind (hdescriptor n _ (hn.part? 1 rfl rfl)) (.of_neg htyped
      (.lift_bind (part_of_part? (hn.part? 2 rfl rfl) _) ((reaches_readReference hstart.labelOf).bind
        (.lift_bind (part_of_part? (hn.part? 3 rfl rfl) _) ((reaches_readReference hstop.labelOf).bind
          (.lift_bind (required_of_part? (hn.part? 4 rfl rfl) hslot.intOf _)
            (.lift_bind hread (.pure _)))))))))) rfl rfl

/-- What refers to labels is written as a group where there is some of it. -/
theorem exists_labelledGroup {α : Type} (name : Text) {each : α → Result Node}
    {read : Location → Node → Labelled α}
    {R : α → List Label} {as : List α}
    (h : ∀ a ∈ as, ∃ n, each a = .ok n ∧ ∀ at_, Reaches (read at_ n) a [] (R a)) :
    ∃ ns, groupOf name each as = .ok ns ∧ IsPiece name ns ∧ ∀ (n : Node) (at_ : Location),
      n.part? name = ns.head? → Reaches ((n.grouped name).mapM (read at_)) as [] (as.flatMap R) := by
  obtain ⟨ns, hns, hpiece, hread⟩ := exists_group name h
  refine ⟨ns, hns, hpiece, fun n at_ hpart => .of_eq (.mapM (D := fun _ => [])
    ((hread n hpart).flip.imp fun _ _ h => h at_)) ?_ rfl⟩
  exact List.flatMap_eq_nil_iff.2 fun _ _ => rfl

theorem exists_body {m : Method} (hs : ∀ i ∈ m.body, i.IsSound) (hp : ∀ i ∈ m.body, i.IsProper) :
    ∃ ns, ofBody m = .ok ns ∧ IsPiece "body" ns ∧ ∀ (n : Node) (at_ : Location),
      n.part? "body" = ns.head? → Reaches (collectBody at_ n) m.body (definitions m.body)
        (m.body.flatMap Item.references) := by
  by_cases hcode : m.hasCode = true
  · obtain ⟨items, hitems, hread⟩ := exists_items hs hp
    refine ⟨[entity "seq" (some "body") items], ?_, .one rfl (isMember_entity (by decide) _ _),
      fun n at_ hpart => ?_⟩
    · simp [ofBody, hcode, hitems]
    · unfold collectBody
      rw [hpart]
      exact hread at_ _ rfl
  · have hempty : m.body = [] := by simp_all [Method.hasCode]
    refine ⟨[], by simp [ofBody, hcode], .none, fun n at_ hpart => ?_⟩
    unfold collectBody
    rw [hpart, hempty]
    exact .pure _

/-- The labels of code are closed where those that it refers to are the ones that it defines. -/
theorem exists_readCode {at_ : Location} {code : CodeParts} {labels references : List Label}
    (h : Reaches (collectCode at_ n) code labels references) (hnodup : labels.Nodup)
    (hclosed : references ⊆ labels) (place : Text) :
    ∃ r, (readCode at_ n).run { place } = .ok (code, r) := by
  obtain ⟨r, hr, hextends⟩ := h _ (isConsistent_new place) hnodup (by simp)
  have hclose : r.close = .ok () := Label.Registry.close_eq_ok_iff.2 fun l hl => by
    rcases (hextends.targets l).1 hl with hl | hl
    · simp [Label.Registry.targets] at hl
    · exact (hextends.defined l).2 (.inr (hclosed hl))
  refine ⟨r, ?_⟩
  show readCode at_ n _ = _
  rw [readCode_apply, hr, Result.ok_bind]
  dsimp only
  rw [hclose]
  rfl

/-! ## Methods -/

theorem exists_names {names : List (Option Text)} (h : ∀ t? ∈ names, ∃ t, t? = some t) (name : Text) :
    ∃ ns ts, groupOf name (fun t? => nameLeaf t? none) names = .ok ns ∧ IsPiece name ns ∧
      ts.map some = names ∧ ∀ (n : Node) (path : Text), n.part? name = ns.head? →
        (n.grouped name).mapM (textOf path) = .ok ts := by
  have hleaf (t? : Option Text) (ht? : t? ∈ names) : ∃ n, nameLeaf t? none = .ok n ∧
      ∀ path, textOf path n = .ok (t?.getD []) := by
    obtain ⟨t, n, rfl, hn, hholds, -⟩ := exists_nameLeaf (h t? ht?) none
    exact ⟨n, hn, fun path => hholds.textOf⟩
  obtain ⟨ns, hns, hpiece, hread⟩ := exists_group name hleaf
  refine ⟨ns, names.map (·.getD []), hns, hpiece, ?_, fun n path hpart => ?_⟩
  · refine (List.map_map ..).trans ((List.map_congr_left fun t? ht? => ?_).trans (List.map_id _))
    obtain ⟨t, rfl⟩ := h t? ht?
    rfl
  · refine Result.mapM_eq_ok_iff.2 (List.forall₂_map_right_iff.2 ?_)
    exact (hread n hpart).flip.imp fun _ _ h => h path

theorem exists_default {v? : Option ElementValue} (h : ∀ v ∈ v?, v.IsProper) :
    ∃ ns, ofDefault v? = .ok ns ∧ IsPiece "annotation-default-value" ns ∧
      ∀ (n : Node) (path place : Text), n.part? "annotation-default-value" = ns.head? →
        readDefault path place n = .ok v? := by
  cases v? with
  | none =>
    refine ⟨[], rfl, .none, fun n path place hpart => ?_⟩
    unfold readDefault
    rw [hpart]
    rfl
  | some v =>
    obtain ⟨m, hm, hread⟩ := exists_element (h v rfl)
    refine ⟨[entity "annotation-default-value" (some "annotation-default-value") [m]],
      by simp [ofDefault, hm], .one rfl (isMember_entity (by decide) _ _), fun n path place hpart => ?_⟩
    unfold readDefault
    rw [hpart]
    simp only [List.head?_cons, entity, hread, Result.ok_bind]
    rfl

/-- A method is rendered as a node that is read back as the method without its layout, wherever the
node stands. -/
theorem exists_method {m : Method} (hs : m.IsSound) (hp : m.IsProper)
    (hscalar : ∀ p ∈ m.parameters, p.descriptor.isScalar = true) :
    ∃ n, ofMethod m = .ok n ∧ n.base = some ("method" : Text) ∧
      ∀ path className, readMethod path className n = .ok m.bare := by
  obtain ⟨access, hofAccess, haccess, hnameAccess⟩ := exists_intLeaf hs.access (some "access")
  obtain ⟨descriptor, hofDescriptor, hdescriptor, hnameDescriptor⟩ :=
    exists_textLeaf m.descriptor (some "descriptor")
  obtain ⟨signature, hofSignature, hpieceSignature, hsignature⟩ :=
    exists_optionText m.signature "signature"
  obtain ⟨exceptions, names, hofExceptions, hpieceExceptions, hnames, hexceptions⟩ :=
    exists_names hp.exceptions "exceptions"
  obtain ⟨parameters, hofParameters, hpieceParameters, hparameters⟩ := exists_groupOf "params"
    fun p hparameter => exists_parameter (hs.parameters p hparameter) (hp.parameters p hparameter)
      (hscalar p hparameter)
  obtain ⟨visible, hofVisible, hpieceVisible, hvisible⟩ :=
    exists_optionInt hs.counts.1 "visible-parameter-count"
  obtain ⟨invisible, hofInvisible, hpieceInvisible, hinvisible⟩ :=
    exists_optionInt hs.counts.2.1 "invisible-parameter-count"
  obtain ⟨count, hofCount, hpieceCount, hcount⟩ := exists_optionInt hs.counts.2.2 "parameter-count"
  obtain ⟨maxima, hofMaxima, hpieceMaxima, hmaxima⟩ := exists_maxima hs.maxima
  obtain ⟨body, hofBody, hpieceBody, hbody⟩ := exists_body hs.items hp.items
  obtain ⟨handlers, hofHandlers, hpieceHandlers, hhandlers⟩ := exists_labelledGroup "trycatchblocks"
    fun h (_ : h ∈ m.handlers) => exists_handler h
  obtain ⟨locals, hofLocals, hpieceLocals, hlocals⟩ := exists_labelledGroup "local-variables"
    fun v hv => exists_localVariable (hs.locals v hv)
  obtain ⟨annotations, hofAnnotations, hpieceAnnotations, hannotations⟩ :=
    exists_annotationUses hp.annotations
  obtain ⟨default, hofDefault, hpieceDefault, hdefault⟩ := exists_default hp.default
  obtain ⟨attributes, hofAttributes, hpieceAttributes, hattributes⟩ :=
    exists_attributes (fun a ha => hp.attributes a (List.mem_append_left _ ha)) "attributes"
  obtain ⟨codeAttributes, hofCodeAttributes, hpieceCodeAttributes, hcodeAttributes⟩ :=
    exists_attributes (fun a ha => hp.attributes a (List.mem_append_right _ ha)) "code-attributes"
  let n := entity "method" (some m.name)
    (access :: descriptor :: (signature ++ exceptions ++ parameters ++ visible ++ invisible ++ count
      ++ maxima ++ body ++ handlers ++ locals ++ annotations ++ default ++ attributes
      ++ codeAttributes))
  have hn : n.HasParts ["access", "descriptor", "signature", "exceptions", "params",
        "visible-parameter-count", "invisible-parameter-count", "parameter-count", "maxs", "body",
        "trycatchblocks", "local-variables", "annotations", "annotation-default-value", "attributes",
        "code-attributes"]
      [[access], [descriptor], signature, exceptions, parameters, visible, invisible, count, maxima,
        body, handlers, locals, annotations, default, attributes, codeAttributes] [] :=
    ⟨by decide, .cons (haccess.isPiece hnameAccess) (.cons (hdescriptor.isPiece hnameDescriptor)
      (.cons hpieceSignature (.cons hpieceExceptions (.cons hpieceParameters
      (.cons hpieceVisible (.cons hpieceInvisible (.cons hpieceCount
      (.cons hpieceMaxima (.cons hpieceBody (.cons hpieceHandlers
      (.cons hpieceLocals (.cons hpieceAnnotations (.cons hpieceDefault
      (.cons hpieceAttributes (.cons hpieceCodeAttributes .nil))))))))))))))),
      nofun, by simp [n, entity]⟩
  have hwrite : ofMethod m = .ok n := by
    unfold ofMethod
    simp only [hofAccess, hofDescriptor, hofSignature, hofExceptions, hofParameters, hofVisible,
      hofInvisible, hofCount, hofBody, hofHandlers, hofLocals, hofAnnotations, hofDefault,
      hofAttributes, hofCodeAttributes, Result.ok_bind,
      pure_bind, n]
    rcases optionLeaf_eq_ok hofMaxima with ⟨hm, hns⟩ | ⟨sizes, node, hm, hnode, hns⟩
    · simp only [hm, hns]
      rfl
    · simp only [hm, hnode, hns, Result.ok_bind]
      rfl
  refine ⟨n, hwrite, rfl, fun path className => ?_⟩
  -- labels are bound all over the code, so it is read as a whole before its labels are closed
  let code : CodeParts := ⟨m.body, m.handlers, m.localVariables⟩
  have hcollect (at_ : Location) :
      Reaches (collectCode at_ n) code (definitions m.body) code.references := by
    refine .of_eq ((hbody n at_ (hn.part? 9 rfl rfl)).bind
      ((hhandlers n at_ (hn.part? 10 rfl rfl)).bind
        ((hlocals n at_ (hn.part? 11 rfl rfl)).bind_pure _))) (by simp) ?_
    simp [CodeParts.references, code]
  have hclosed : code.references ⊆ definitions m.body := by
    intro l hl
    simp only [code, CodeParts.references, List.mem_append, List.mem_flatMap] at hl
    rcases hl with (⟨i, hi, hl⟩ | ⟨h, hh, hl⟩) | ⟨v, hv, hl⟩
    · exact hs.closed.items i hi hl
    · exact hs.closed.handlers h hh hl
    · exact hs.closed.locals v hv hl
  have hcode (at_ : Location) : ∃ r, (readCode at_ n).run { place := at_.place } = .ok (code, r) :=
    exists_readCode (hcollect at_) hs.closed.nodup hclosed at_.place
  obtain ⟨r, hcode⟩ := hcode ⟨step path ("method " ++ m.name),
    Text.concat [className, ".", m.name, m.descriptor]⟩
  simp only [readMethod, memberName_eq (n := n) rfl hp.name, Result.ok_bind,
    required_of_part? (hn.part? 0 rfl rfl) haccess.intOf,
    required_of_part? (hn.part? 1 rfl rfl) hdescriptor.textOf,
    mapM_part?, hmaxima n _ (hn.part? 8 rfl rfl), hcode, hdefault n _ _ (hn.part? 13 rfl rfl),
    hsignature n _ (hn.part? 2 rfl rfl), hexceptions n _ (hn.part? 3 rfl rfl),
    hparameters n _ (hn.part? 4 rfl rfl), hannotations n _ (hn.part? 12 rfl rfl),
    hattributes n _ (hn.part? 14 rfl rfl), hcodeAttributes n _ (hn.part? 15 rfl rfl),
    hvisible n _ (hn.part? 5 rfl rfl), hinvisible n _ (hn.part? 6 rfl rfl),
    hcount n _ (hn.part? 7 rfl rfl), hnames]
  rfl

end ClassTree.Tree
