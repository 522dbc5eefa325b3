/-
# ClassTree.Proofs.Tree.Marker — line markers are decoration

No reader looks at the line markers of a tree. Each of them gives the same on a node and on the node
without markers, so trees that are the same up to their markers stand for the same class, and
numbering a tree does not change what it stands for.
-/
import ClassTree.Proofs.Result
import ClassTree.Tree.Node
import ClassTree.Tree.ToClass

namespace ClassTree.Tree

namespace Node

/-! ## Trees without markers -/

mutual

/-- The tree without its line markers. -/
def erase : Node → Node
  | ⟨base, name, _, data, text, children⟩ => ⟨base, name, none, data, text, eraseAll children⟩

/-- The trees without their line markers. -/
def eraseAll : List Node → List Node
  | [] => []
  | n :: rest => n.erase :: eraseAll rest

end

theorem eraseAll_eq_map (ns : List Node) : eraseAll ns = ns.map erase := by
  induction ns with
  | nil => rfl
  | cons n ns ih => rw [eraseAll, ih, List.map_cons]

section

variable (n : Node)

@[simp] theorem base_erase : n.erase.base = n.base := by cases n; rfl

@[simp] theorem name_erase : n.erase.name = n.name := by cases n; rfl

@[simp] theorem data_erase : n.erase.data = n.data := by cases n; rfl

@[simp] theorem text_erase : n.erase.text = n.text := by cases n; rfl

@[simp] theorem children_erase : n.erase.children = n.children.map erase := by
  cases n
  rw [erase, eraseAll_eq_map]

@[simp] theorem isLeaf_erase : n.erase.isLeaf = n.isLeaf := by simp [isLeaf]

@[simp] theorem literal_erase : n.erase.literal = n.literal := by simp [literal]

@[simp] theorem isMember_erase : n.erase.isMember = n.isMember := by simp [isMember]

@[simp] theorem title_erase : n.erase.title = n.title := by simp [title]

@[simp] theorem part?_erase (name : Text) : n.erase.part? name = (n.part? name).map erase := by
  unfold part?
  rw [children_erase, List.find?_map]
  congr 2
  funext c
  simp

@[simp] theorem grouped_erase (name : Text) : n.erase.grouped name = (n.grouped name).map erase := by
  unfold grouped
  rw [part?_erase]
  cases n.part? name <;> simp

@[simp] theorem part_erase (name place : Text) :
    n.erase.part name place = (n.part name place).map erase := by
  unfold part
  rw [part?_erase]
  cases n.part? name <;> rfl

@[simp] theorem operand_erase (i : Nat) (place : Text) :
    n.erase.operand i place = (n.operand i place).map erase := by
  unfold operand
  rw [children_erase, List.getElem?_map]
  cases n.children[i]? <;> rfl

@[simp] theorem childrenOf_erase (base : Text) :
    n.erase.childrenOf base = (n.childrenOf base).map erase := by
  unfold childrenOf
  rw [children_erase, List.filter_map]
  congr 2
  funext c
  simp

end

/-! ## Numbering -/

mutual

theorem erase_numberFrom (k : Nat) : ∀ n : Node, (n.numberFrom k).1.erase = n.erase
  | ⟨base, name, line, data, text, children⟩ => by
    have hchildren := map_erase_numberAllFrom k children []
    rw [numberFrom]
    generalize numberAllFrom k children [] = row at hchildren ⊢
    obtain ⟨children', m⟩ := row
    simp only [List.reverse_nil, List.map_nil, List.nil_append] at hchildren
    dsimp only
    split <;> simp only [erase, eraseAll_eq_map, hchildren]

theorem map_erase_numberAllFrom (k : Nat) : ∀ ns acc : List Node,
    (numberAllFrom k ns acc).1.map erase = acc.reverse.map erase ++ ns.map erase
  | [], acc => by simp [numberAllFrom]
  | n :: rest, acc => by
    have hfirst := erase_numberFrom k n
    have hrest := map_erase_numberAllFrom (n.numberFrom k).2 rest ((n.numberFrom k).1 :: acc)
    rw [numberAllFrom]
    simpa [hfirst] using hrest

end

theorem erase_numbered (n : Node) : n.numbered.erase = n.erase := erase_numberFrom 0 n

mutual

/-- Trees are the same if they are equal without their markers. -/
theorem same_iff : ∀ n n' : Node, n.same n' = true ↔ n.erase = n'.erase
  | ⟨base, name, line, data, text, children⟩, ⟨base', name', line', data', text', children'⟩ => by
    have hchildren := sameAll_iff children children'
    simp [same, erase, hchildren, eraseAll_eq_map, and_assoc]

/-- Rows of trees are the same if they are equal without their markers. -/
theorem sameAll_iff : ∀ ns ns' : List Node, sameAll ns ns' = true ↔ ns.map erase = ns'.map erase
  | [], [] => by simp [sameAll]
  | [], _ :: _ => by simp [sameAll]
  | _ :: _, [] => by simp [sameAll]
  | n :: rest, n' :: rest' => by
    have hfirst := same_iff n n'
    have hrest := sameAll_iff rest rest'
    simp only [sameAll, List.map_cons, List.cons.injEq, ← hfirst, ← hrest]
    by_cases h : n.same n' = true
    · simp [h]
    · simp [h]

end

end Node

/-! ## Leaves -/

section

variable (path : Text) (n : Node)

@[simp] theorem constantOf_erase (kinds : List Literal.Kind) :
    constantOf path kinds n.erase = constantOf path kinds n := by simp [constantOf]

@[simp] theorem intOf_erase : intOf path n.erase = intOf path n := by simp [intOf]

@[simp] theorem textOf_erase : textOf path n.erase = textOf path n := by simp [textOf]

@[simp] theorem boolOf_erase : boolOf path n.erase = boolOf path n := by simp [boolOf]

@[simp] theorem bytesOf_erase : bytesOf path n.erase = bytesOf path n := by simp [bytesOf]

@[simp] theorem labelOf_erase : labelOf path n.erase = labelOf path n := by simp [labelOf]

@[simp] theorem referenceOf_erase : referenceOf path n.erase = referenceOf path n := by
  simp [referenceOf]

end

section

variable {α : Type} {read : Node → Result α} (hread : ∀ n, read n.erase = read n)
include hread

theorem optional_erase (n : Node) (name : Text) :
    optional read n.erase name = optional read n name := by
  unfold optional
  rw [Node.part?_erase]
  cases n.part? name with
  | none => rfl
  | some p => simp [hread]

theorem required_erase (n : Node) (name place : Text) :
    required read n.erase name place = required read n name place := by
  unfold required
  rw [Node.part_erase]
  cases n.part name place with
  | error e => rfl
  | ok p => exact hread p

end

theorem mapM_erase {m : Type → Type} [Monad m] [LawfulMonad m] {β : Type} {read : Node → m β}
    (hread : ∀ n, read n.erase = read n) (ns : List Node) :
    (ns.map Node.erase).mapM read = ns.mapM read := by
  rw [List.mapM_map]
  exact congrArg (fun f => ns.mapM f) (funext hread)

theorem map_bind {α β γ : Type} (x : Result α) (f : α → β) (k : β → Result γ) :
    (x.map f >>= k) = x >>= fun a => k (f a) := by cases x <;> rfl

theorem liftM_map_bind {α β γ : Type} (x : Result α) (f : α → β) (k : β → Labelled γ) :
    ((liftM (x.map f) : Labelled β) >>= k) = (liftM x : Labelled α) >>= fun a => k (f a) := by
  cases x <;> rfl

/-! ## Bodies -/

section

variable (at_ : Location) (n : Node)

@[simp] theorem readReference_erase : readReference at_ n.erase = readReference at_ n := by
  simp [readReference]

@[simp] theorem readDefinition_erase : readDefinition at_ n.erase = readDefinition at_ n := by
  simp [readDefinition]

@[simp] theorem readHandle_erase : readHandle at_ n.erase = readHandle at_ n := by
  simp [readHandle, map_bind]

@[simp] theorem readLoaded_erase (kinds : List Literal.Kind) :
    readLoaded at_ kinds n.erase = readLoaded at_ kinds n := by simp [readLoaded]

@[simp] theorem readArgument_erase : readArgument at_ n.erase = readArgument at_ n := by
  simp [readArgument]

@[simp] theorem readCallSite_erase : readCallSite at_ n.erase = readCallSite at_ n := by
  simp [readCallSite, map_bind, mapM_erase (readArgument_erase at_)]

@[simp] theorem readTableSwitch_erase : readTableSwitch at_ n.erase = readTableSwitch at_ n := by
  simp [readTableSwitch, liftM_map_bind, mapM_erase (readReference_erase at_)]

@[simp] theorem readLookupSwitch_erase : readLookupSwitch at_ n.erase = readLookupSwitch at_ n := by
  have hkeys (ns : List Node) : (ns.map Node.erase).mapM (fun k => (intOf at_.path k : Labelled Int)) =
      ns.mapM fun k => (intOf at_.path k : Labelled Int) := mapM_erase (fun k => by rw [intOf_erase]) ns
  simp only [List.mapM_map] at hkeys
  simp [readLookupSwitch, liftM_map_bind, mapM_erase (readReference_erase at_), hkeys]

@[simp] theorem readOperands_erase (op : Opcode) :
    readOperands at_ op n.erase = readOperands at_ op n := by
  simp [readOperands, liftM_map_bind, map_bind]

@[simp] theorem readType_erase : readType at_ n.erase = readType at_ n := by
  simp [readType, liftM_map_bind]

@[simp] theorem readFrame_erase : readFrame at_ n.erase = readFrame at_ n := by
  simp [readFrame, mapM_erase (readType_erase at_), optional_erase (intOf_erase _)]

@[simp] theorem readItem_erase : readItem at_ n.erase = readItem at_ n := by
  simp [readItem, liftM_map_bind]

@[simp] theorem readItems_erase : readItems at_ n.erase = readItems at_ n := by
  unfold readItems
  rw [Node.children_erase, List.zipIdx_map, List.mapM_map]
  exact congrArg (fun f => List.mapM f n.children.zipIdx) (funext fun _ => readItem_erase _ _)

end

/-! ## Annotations -/

section

variable (path : Text) (n : Node)

@[simp] theorem tagOf?_erase : tagOf? n.erase = tagOf? n := by simp [tagOf?]

@[simp] theorem readScalar_erase (tag : ElementTag) :
    readScalar path tag n.erase = readScalar path tag n := by simp [readScalar]

theorem readParts_erase (values : Text → Result (List (Text × ElementValue))) :
    readParts path n.erase values = readParts path n values := by
  simp [readParts, required_erase (textOf_erase path), required_erase (boolOf_erase path)]

/-- A value is an annotation, a constant of an enumeration, a row of values or a scalar. -/
theorem readElement_eq : readElement path n =
    if n.base = some ("annotation" : Text) then do
      let a ← readParts path n fun descriptor => readProperties path descriptor n.children []
      return .nested a.descriptor a.visible a.values
    else if n.base = some ("enum" : Text) then do
      let descriptor ← required (textOf path) n "descriptor" "enum"
      return .enum descriptor (← required (textOf path) n "name" "enum")
    else if n.base = some ("tuple" : Text) then do
      return .array (← readElements path n.children [])
    else
      match tagOf? n with
      | some tag => readScalar path tag n
      | none => .error (.misformatted (.elementNode n.base) (some path)) := by
  cases n
  rw [readElement]
  rfl

end

mutual

/-- A value is that of the tree without markers. -/
theorem readElement_erase (path : Text) : ∀ n : Node, readElement path n.erase = readElement path n
  | ⟨base, name, line, data, text, children⟩ => by
    have hproperties (descriptor : Text) := readProperties_erase path descriptor children []
    have helements := readElements_erase path children []
    rw [readElement_eq, readElement_eq]
    simp only [Node.base_erase, Node.children_erase, hproperties, helements, readParts_erase,
      required_erase (textOf_erase path), tagOf?_erase, readScalar_erase]

theorem readElements_erase (path : Text) : ∀ (ns : List Node) (acc : List ElementValue),
    readElements path (ns.map Node.erase) acc = readElements path ns acc
  | [], acc => rfl
  | n :: rest, acc => by
    simp only [List.map_cons, readElements, readElement_erase path n,
      readElements_erase path rest]

/-- Properties are those of the trees without markers. -/
theorem readProperties_erase (path descriptor : Text) :
    ∀ (ns : List Node) (acc : List (Text × ElementValue)),
      readProperties path descriptor (ns.map Node.erase) acc = readProperties path descriptor ns acc
  | [], acc => rfl
  | n :: rest, acc => by
    simp only [List.map_cons, readProperties, readProperty_erase path descriptor n,
      readProperties_erase path descriptor rest]

/-- A property is that of the tree without markers. -/
theorem readProperty_erase (path descriptor : Text) : ∀ n : Node,
    readProperty path descriptor n.erase = readProperty path descriptor n
  | ⟨base, name, line, data, text, [name', value]⟩ => by
    simp [Node.erase, Node.eraseAll, readProperty, readElement_erase path value]
  | ⟨base, name, line, data, text, []⟩ => by simp [Node.erase, Node.eraseAll, readProperty]
  | ⟨base, name, line, data, text, [_]⟩ => by simp [Node.erase, Node.eraseAll, readProperty]
  | ⟨base, name, line, data, text, _ :: _ :: _ :: _⟩ => by
    simp [Node.erase, Node.eraseAll, readProperty]

end

section

variable (path : Text) (n : Node)

theorem readAnnotationUse_erase : readAnnotationUse path n.erase = readAnnotationUse path n := by
  simp only [readAnnotationUse, Node.children_erase, readProperties_erase, readParts_erase]

@[simp] theorem readAnnotationUses_erase :
    readAnnotationUses path n.erase = readAnnotationUses path n := by
  simp [readAnnotationUses, mapM_erase (readAnnotationUse_erase path)]

/-! ## Members -/

theorem readAttribute_erase (name : Text) :
    readAttribute path name n.erase = readAttribute path name n := by
  unfold readAttribute
  rw [Node.name_erase, Node.children_erase]
  rcases n.name with _ | _ | ⟨c, rest⟩ <;> cases n.children <;> simp

@[simp] theorem readAttributes_erase (name : Text) :
    readAttributes path n.erase name = readAttributes path n name := by
  simp [readAttributes, mapM_erase fun n => readAttribute_erase path n name]

@[simp] theorem memberName_erase (kind : Text) : memberName n.erase kind = memberName n kind := by
  simp [memberName]

@[simp] theorem readField_erase : readField path n.erase = readField path n := by
  simp [readField, required_erase (intOf_erase _), required_erase (textOf_erase _),
    optional_erase (textOf_erase _), optional_erase fun n => constantOf_erase _ n _]

theorem readMaxima_erase : readMaxima path n.erase = readMaxima path n := by
  unfold readMaxima
  rw [Node.children_erase]
  rcases n.children with _ | ⟨stack, _ | ⟨locals, _ | ⟨_, _⟩⟩⟩ <;> simp

theorem readHandler_erase (at_ : Location) : readHandler at_ n.erase = readHandler at_ n := by
  unfold readHandler
  rw [Node.childrenOf_erase, Node.childrenOf_erase]
  rcases n.childrenOf "label" with _ | ⟨start, _ | ⟨stop, _ | ⟨target, _ | ⟨_, _⟩⟩⟩⟩ <;>
    cases n.childrenOf "string" <;> simp

theorem readLocalVariable_erase (at_ : Location) :
    readLocalVariable at_ n.erase = readLocalVariable at_ n := by
  simp [readLocalVariable, required_erase (intOf_erase _), required_erase (textOf_erase _),
    optional_erase (textOf_erase _), liftM_map_bind]

@[simp] theorem readCode_erase (at_ : Location) : readCode at_ n.erase = readCode at_ n := by
  unfold readCode
  rw [Node.part?_erase, Node.grouped_erase, Node.grouped_erase, mapM_erase (readHandler_erase · at_),
    mapM_erase (readLocalVariable_erase · at_)]
  cases n.part? "body" <;> simp

@[simp] theorem readDefault_erase (place : Text) :
    readDefault path place n.erase = readDefault path place n := by
  unfold readDefault
  rw [Node.part?_erase]
  cases n.part? "annotation-default-value" with
  | none => rfl
  | some d =>
    rcases hd : d.children with _ | ⟨v, rest⟩ <;> simp [hd, readElement_erase]

theorem readParameter_erase : readParameter path n.erase = readParameter path n := by
  simp [readParameter, readParameterName, optional_erase (intOf_erase _),
    optional_erase (textOf_erase _)]

@[simp] theorem readMethod_erase (className : Text) :
    readMethod path className n.erase = readMethod path className n := by
  have hmaxima (path : Text) : ((n.part? "maxs").map Node.erase).mapM (readMaxima path) =
      (n.part? "maxs").mapM (readMaxima path) := by
    cases n.part? "maxs" <;> simp [readMaxima_erase]
  simp [readMethod, required_erase (intOf_erase _), required_erase (textOf_erase _),
    optional_erase (intOf_erase _), optional_erase (textOf_erase _), hmaxima,
    mapM_erase (textOf_erase _), mapM_erase (readParameter_erase _)]

/-! ## Classes -/

theorem readVersion_erase : readVersion path n.erase = readVersion path n := by
  unfold readVersion
  rw [Node.children_erase]
  rcases n.children with _ | ⟨major, _ | ⟨minor, _ | ⟨_, _⟩⟩⟩ <;> simp

theorem readSuper_erase : readSuper path n.erase = readSuper path n := by simp [readSuper]

theorem readInnerClass_erase : readInnerClass path n.erase = readInnerClass path n := by
  simp [readInnerClass, required_erase (intOf_erase _), required_erase (textOf_erase _),
    optional_erase (textOf_erase _)]

theorem readEnclosing_erase : readEnclosing path n.erase = readEnclosing path n := by
  simp [readEnclosing, required_erase (textOf_erase _), optional_erase (textOf_erase _)]

theorem readMember_erase (className : Text) (m : Members) :
    readMember path className m n.erase = readMember path className m n := by simp [readMember]

@[simp] theorem readNamed_erase (name : Text) : readNamed name n.erase = readNamed name n := by
  have hmembers (path : Text) : (n.children.map Node.erase).foldlM (readMember path name) {} =
      n.children.foldlM (readMember path name) {} := by
    rw [List.foldlM_map]
    exact congrArg (fun f => n.children.foldlM f {})
      (funext fun m => funext fun c => readMember_erase path c name m)
  simp only [readNamed, optional_erase (readVersion_erase _), required_erase (intOf_erase _),
    optional_erase (readSuper_erase _), optional_erase (readEnclosing_erase _), Node.grouped_erase,
    mapM_erase (readInnerClass_erase _), Node.children_erase, hmembers,
    optional_erase (textOf_erase _), mapM_erase (textOf_erase _), readAnnotationUses_erase,
    readAttributes_erase]

end

end ClassTree.Tree

namespace ClassTree.Class

open ClassTree.Tree

/-- A tree and the tree without its markers stand for the same class. -/
theorem ofTree_erase (n : Node) : ofTree n.erase = ofTree n := by
  simp [ofTree]

/-- Trees that are the same up to their markers stand for the same class. -/
theorem ofTree_eq_of_same {n n' : Node} (h : n.same n' = true) : ofTree n = ofTree n' := by
  rw [← ofTree_erase n, (Node.same_iff n n').1 h, ofTree_erase]

/-- Numbering a tree does not change what it stands for. -/
theorem ofTree_numbered (n : Node) : ofTree n.numbered = ofTree n := by
  rw [← ofTree_erase, Node.erase_numbered, ofTree_erase]

end ClassTree.Class
