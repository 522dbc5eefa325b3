/-
# ClassTree.Proofs.Tree.Refusal — texts that are no class

A text that is not the tree of a class is refused, with a failure that says what is wrong with the
tree: the form of the text or of a node, a part that is missing, or a label. Two things escape this.
A line marker and the place of a parameter are taken for numbers by their digits, and some digits
make no numeral; and the type of a parameter is looked up in an alphabet that has no letters outside
ASCII.
-/
import ClassTree.Form
import ClassTree.Proofs.Tree.Marker
import ClassTree.Proofs.Tree.Reading
import ClassTree.Proofs.Tree.Sound
import Mathlib.Control.Traversable.Instances
import Mathlib.Data.List.Permutation

namespace ClassTree

/-- A failure that says what is wrong with a tree. -/
def Error.isAboutTree : Error → Bool
  | .misformatted _ _ | .missingElement _ _ | .danglingLabel _ _ | .duplicateLabel _ _ => true
  | _ => false

namespace Tree

open Literal (Kind)

variable {α β : Type} {Q : Error → Prop}

/-! ## Failures -/

/-- A step fails by saying what is wrong with a tree, or in some other ways that are known. -/
class Explains (Q : Error → Prop) (x : Result α) : Prop where
  explains : ∀ {e : Error}, x = .error e → e.isAboutTree = true ∨ Q e

instance explains_ok (a : α) : Explains Q (.ok a : Result α) := ⟨nofun⟩

instance explains_pure (a : α) : Explains Q (pure a : Result α) := explains_ok a

instance explains_misformatted (cause : Misformatted) (path : Option Text) :
    Explains Q (.error (.misformatted cause path) : Result α) := ⟨by rintro _ ⟨⟩; exact .inl rfl⟩

instance explains_missing (element entity : Text) :
    Explains Q (.error (.missingElement element entity) : Result α) := ⟨by rintro _ ⟨⟩; exact .inl rfl⟩

instance explains_throw_misformatted (cause : Misformatted) (path : Option Text) :
    Explains Q (throw (.misformatted cause path) : Result α) := explains_misformatted cause path

/-- Steps in a row, the second of which may use what the first one has given. -/
theorem Explains.bind_of {x : Result α} {f : α → Result β} (hx : Explains Q x)
    (hf : ∀ a, x = .ok a → Explains Q (f a)) : Explains Q (x >>= f) where
  explains := by
    intro e h
    rcases Result.bind_eq_error_iff.1 h with h | ⟨a, ha, h⟩
    · exact hx.explains h
    · exact (hf a ha).explains h

instance explains_bind (x : Result α) (f : α → Result β) [hx : Explains Q x]
    [hf : ∀ a, Explains Q (f a)] : Explains Q (x >>= f) := hx.bind_of fun a _ => hf a

instance explains_ite (c : Prop) [Decidable c] (x y : Result α) [hx : Explains Q x]
    [hy : Explains Q y] : Explains Q (if c then x else y) := by
  split
  · exact hx
  · exact hy

theorem explains_mapM_of_mem {f : α → Result β} {l : List α} (h : ∀ a ∈ l, Explains Q (f a)) :
    Explains Q (l.mapM f) where
  explains := by
    intro e he
    obtain ⟨a, ha, he⟩ := Result.exists_of_mapM_eq_error he
    exact (h a ha).explains he

instance explains_mapM (f : α → Result β) (l : List α) [h : ∀ a, Explains Q (f a)] :
    Explains Q (l.mapM f) := explains_mapM_of_mem fun a _ => h a

/-- A step for the element of an option. -/
theorem explains_option_mapM {f : α → Result β} {a? : Option α} (h : ∀ a ∈ a?, Explains Q (f a)) :
    Explains Q (a?.mapM f) := by
  cases a? with
  | none => exact explains_pure none
  | some a =>
    have hf := h a rfl
    show Explains Q (some <$> f a)
    rw [map_eq_pure_bind]
    infer_instance

theorem explains_foldlM_of_mem {f : β → α → Result β} {l : List α}
    (h : ∀ a ∈ l, ∀ b, Explains Q (f b a)) (b : β) : Explains Q (l.foldlM f b) := by
  induction l generalizing b with
  | nil => exact explains_pure b
  | cons a l ih =>
    rw [List.foldlM_cons]
    refine (h a (List.mem_cons_self ..) b).bind_of fun b' _ => ?_
    exact ih (fun a ha => h a (List.mem_cons_of_mem _ ha)) b'

theorem Explains.imp {R : Error → Prop} {x : Result α} (h : Explains Q x) (himp : ∀ e, Q e → R e) :
    Explains R x :=
  ⟨fun he => (h.explains he).imp_right (himp _)⟩

/-! ## Leaves -/

variable (path : Text) (n : Node)

/-- Bytes are refused by what is wrong with them. -/
instance explains_unpack (kind : Kind) (bytes : Bytes) (source : Option Text) :
    Explains Q (Literal.unpack kind bytes source) := by
  have hutf8 (make : Text → Constant) : Explains Q (match Utf8.decodeWide bytes with
      | .ok text => .ok (make text)
      | .error _ => .error (.misformatted (.utf8 source) none) : Result Constant) := by
    split <;> infer_instance
  unfold Literal.unpack
  cases kind <;> dsimp only <;> first | exact hutf8 _ | infer_instance

instance explains_decode (kind : Text) (source : Option Text) :
    Explains Q (Literal.decode kind source) := by
  have hbytes {e : Error} (h : Literal.readBytes source = .error e) :
      Explains Q (.error e : Result Constant) := by
    unfold Literal.readBytes at h
    dsimp only at h
    split at h
    · cases h
    · cases h
      infer_instance
  unfold Literal.decode
  split
  · infer_instance
  · split
    · next h => exact hbytes h
    · split <;> infer_instance

instance explains_literal : Explains Q n.literal := by
  unfold Node.literal
  split <;> infer_instance

instance explains_constantOf (kinds : List Kind) : Explains Q (constantOf path kinds n) := by
  unfold constantOf
  dsimp only
  split
  · split
    · split
      · infer_instance
      · exact explains_literal n
    · infer_instance
  · infer_instance

/-- What is read of a leaf of one kind is a constant of that kind, so it can be taken for one. -/
theorem explains_leafOf {kind : Kind} {take : Constant → Result α}
    (h : ∀ v, Literal.IsOf kind v → Explains Q (take v)) :
    Explains Q (constantOf path [kind] n >>= take) := by
  refine (explains_constantOf path n [kind]).bind_of fun v hv => h v ?_
  obtain ⟨found, hfound, -, hof⟩ := isOf_of_constantOf hv
  rwa [List.mem_singleton.1 hfound] at hof

instance explains_intOf : Explains Q (intOf path n) :=
  explains_leafOf path n fun _ hv => by cases hv; exact explains_pure _

instance explains_textOf : Explains Q (textOf path n) :=
  explains_leafOf path n fun _ hv => by cases hv; exact explains_pure _

instance explains_boolOf : Explains Q (boolOf path n) :=
  explains_leafOf path n fun _ hv => by cases hv; exact explains_pure _

instance explains_bytesOf : Explains Q (bytesOf path n) :=
  explains_leafOf path n fun _ hv => by cases hv; exact explains_pure _

instance explains_labelOf : Explains Q (labelOf path n) :=
  explains_leafOf path n fun _ hv => by cases hv; exact explains_pure _

instance explains_referenceOf : Explains Q (referenceOf path n) :=
  explains_leafOf path n fun _ hv => by cases hv; exact explains_pure _

/-! ## Parts -/

instance explains_part (name place : Text) : Explains Q (n.part name place) := by
  unfold Node.part
  split <;> infer_instance

instance explains_operand (index : Nat) (place : Text) : Explains Q (n.operand index place) := by
  unfold Node.operand
  split <;> infer_instance

instance explains_optional (read : Node → Result α) [∀ p, Explains Q (read p)] (name : Text) :
    Explains Q (optional read n name) := by
  unfold optional
  split <;> infer_instance

instance explains_required (read : Node → Result α) [∀ p, Explains Q (read p)] (name place : Text) :
    Explains Q (required read n name place) := by
  unfold required
  infer_instance

/-! ## Annotations -/

/-- A letter that has a tag stands for scalars of some kind. -/
theorem isSome_elementKind?_of_ofLetter? {letter : Text} {tag : ElementTag}
    (h : ElementTag.ofLetter? letter = some tag) : (Literal.elementKind? tag).isSome = true := by
  have hall : ∀ tag ∈ ElementTag.all, (Literal.elementKind? tag).isSome = true := by decide
  exact hall tag (List.mem_of_find?_eq_some h)

theorem explains_readScalar {tag : ElementTag} (h : (Literal.elementKind? tag).isSome = true) :
    Explains Q (readScalar path tag n) := by
  unfold readScalar
  split
  · infer_instance
  · next hnone => simp [hnone] at h

instance explains_readParts (values : Text → Result (List (Text × ElementValue)))
    [∀ descriptor, Explains Q (values descriptor)] : Explains Q (readParts path n values) := by
  unfold readParts
  dsimp only
  infer_instance

mutual

/-- The cases are those of a value: an annotation, a constant of an enumeration, a row or a scalar.
-/
theorem explains_readElement (path : Text) : ∀ n : Node, Explains Q (readElement path n)
  | ⟨base, name, line, data, text, children⟩ => by
    have hproperties (descriptor : Text) := explains_readProperties path descriptor children []
    have helements := explains_readElements path children []
    rw [readElement_eq]
    split
    · infer_instance
    · split
      · infer_instance
      · split
        · infer_instance
        · split
          · next tag htag =>
            refine explains_readScalar path _ ?_
            unfold tagOf? at htag
            split at htag
            · obtain ⟨letter, -, hletter⟩ := Option.bind_eq_some_iff.1 htag
              exact isSome_elementKind?_of_ofLetter? hletter
            · cases htag
          · infer_instance

theorem explains_readElements (path : Text) :
    ∀ (ns : List Node) (acc : List ElementValue), Explains Q (readElements path ns acc)
  | [], acc => by
    rw [readElements]
    infer_instance
  | n :: rest, acc => by
    have hn := explains_readElement path n
    have hrest (v : ElementValue) := explains_readElements path rest (v :: acc)
    rw [readElements]
    infer_instance

theorem explains_readProperties (path descriptor : Text) :
    ∀ (ns : List Node) (acc : List (Text × ElementValue)),
      Explains Q (readProperties path descriptor ns acc)
  | [], acc => by
    rw [readProperties]
    infer_instance
  | n :: rest, acc => by
    have hn := explains_readProperty path descriptor n
    rw [readProperties]
    refine hn.bind_of fun property? _ => ?_
    cases property? with
    | none => exact explains_readProperties path descriptor rest acc
    | some property => exact explains_readProperties path descriptor rest (property :: acc)

theorem explains_readProperty (path descriptor : Text) :
    ∀ n : Node, Explains Q (readProperty path descriptor n)
  | ⟨base, name, line, data, text, [name', value]⟩ => by
    have hvalue := explains_readElement path value
    rw [readProperty]
    infer_instance
  | ⟨base, name, line, data, text, []⟩ => by
    simp only [readProperty]
    infer_instance
  | ⟨base, name, line, data, text, [_]⟩ => by
    simp only [readProperty]
    infer_instance
  | ⟨base, name, line, data, text, _ :: _ :: _ :: _⟩ => by
    simp only [readProperty]
    infer_instance

end

instance explains_readAnnotationUses : Explains Q (readAnnotationUses path n) := by
  have hproperties (descriptor : Text) (ns : List Node) :=
    explains_readProperties (Q := Q) path descriptor ns []
  unfold readAnnotationUses readAnnotationUse
  infer_instance

/-! ## Labels -/

/-- Whatever labels there are, a step fails by saying what is wrong with a tree, or in some other
ways. -/
class ExplainsLabelled (Q : Error → Prop) (x : Labelled α) : Prop where
  explains : ∀ r, Explains Q (x r)

instance explainsLabelled_pure (a : α) : ExplainsLabelled Q (pure a : Labelled α) :=
  ⟨fun _ => explains_ok _⟩

instance explainsLabelled_lift (x : Result α) [h : Explains Q x] :
    ExplainsLabelled Q (liftM x : Labelled α) where
  explains r := by
    show Explains Q (x >>= fun a => pure (a, r))
    infer_instance

instance explainsLabelled_throw_missing (element entity : Text) :
    ExplainsLabelled Q (throw (.missingElement element entity) : Labelled α) :=
  ⟨fun _ => explains_missing element entity⟩

instance explainsLabelled_bind (x : Labelled α) (f : α → Labelled β) [hx : ExplainsLabelled Q x]
    [hf : ∀ a, ExplainsLabelled Q (f a)] : ExplainsLabelled Q (x >>= f) where
  explains r := (hx.explains r).bind_of fun p _ => (hf p.1).explains p.2

instance explainsLabelled_ite (c : Prop) [Decidable c] (x y : Labelled α) [hx : ExplainsLabelled Q x]
    [hy : ExplainsLabelled Q y] : ExplainsLabelled Q (if c then x else y) := by
  split
  · exact hx
  · exact hy

instance explainsLabelled_mapM (f : α → Labelled β) (l : List α) [h : ∀ a, ExplainsLabelled Q (f a)] :
    ExplainsLabelled Q (l.mapM f) := by
  induction l with
  | nil =>
    rw [List.mapM_nil]
    infer_instance
  | cons a l ih =>
    rw [List.mapM_cons]
    infer_instance

variable (at_ : Location)

instance explains_refuse (cause : Misformatted) : Explains Q (at_.refuse cause : Result α) :=
  explains_misformatted _ _

instance explains_define (r : Label.Registry) (l : Label) : Explains Q (r.define l) := by
  unfold Label.Registry.define
  split
  · exact ⟨by rintro _ ⟨⟩; exact .inl rfl⟩
  · infer_instance

instance explains_close (r : Label.Registry) : Explains Q r.close := by
  unfold Label.Registry.close
  split
  · exact ⟨by rintro _ ⟨⟩; exact .inl rfl⟩
  · infer_instance

instance explainsLabelled_get : ExplainsLabelled Q (get : Labelled Label.Registry) :=
  ⟨fun _ => explains_ok _⟩

instance explainsLabelled_set (r : Label.Registry) : ExplainsLabelled Q (set r : Labelled PUnit) :=
  ⟨fun _ => explains_ok _⟩

instance explainsLabelled_modify (f : Label.Registry → Label.Registry) :
    ExplainsLabelled Q (modify f : Labelled PUnit) := ⟨fun _ => explains_ok _⟩

instance explainsLabelled_resolve (l : Label) : ExplainsLabelled Q (resolve l) := ⟨fun _ => explains_ok _⟩

instance explainsLabelled_readReference : ExplainsLabelled Q (readReference at_ n) := by
  unfold readReference
  infer_instance

instance explainsLabelled_readDefinition : ExplainsLabelled Q (readDefinition at_ n) := by
  unfold readDefinition
  infer_instance

/-! ## Instructions -/

section
set_option synthInstance.maxSize 1000

instance explains_readHandle : Explains Q (readHandle at_ n) := by
  unfold readHandle
  dsimp only
  infer_instance

instance explains_readLoaded (kinds : List Kind) : Explains Q (readLoaded at_ kinds n) := by
  unfold readLoaded
  infer_instance

instance explains_readArgument : Explains Q (readArgument at_ n) := by
  unfold readArgument
  infer_instance

instance explains_readCallSite : Explains Q (readCallSite at_ n) := by
  unfold readCallSite
  infer_instance

instance explainsLabelled_readTableSwitch : ExplainsLabelled Q (readTableSwitch at_ n) := by
  unfold readTableSwitch
  infer_instance

instance explainsLabelled_readLookupSwitch : ExplainsLabelled Q (readLookupSwitch at_ n) := by
  unfold readLookupSwitch
  dsimp only
  infer_instance

instance explainsLabelled_readOperands (op : Opcode) : ExplainsLabelled Q (readOperands at_ op n) := by
  unfold readOperands
  dsimp only
  split <;> infer_instance

instance explainsLabelled_readType : ExplainsLabelled Q (readType at_ n) := by
  unfold readType
  split <;> infer_instance

instance explainsLabelled_readFrame : ExplainsLabelled Q (readFrame at_ n) := by
  unfold readFrame
  split <;> infer_instance

instance explainsLabelled_readItem : ExplainsLabelled Q (readItem at_ n) := by
  unfold readItem
  cases opcodeOf? n.name <;> infer_instance

instance explainsLabelled_readItems : ExplainsLabelled Q (readItems at_ n) := by
  unfold readItems
  infer_instance

/-! ## Members -/

instance explains_readAttributes (name : Text) : Explains Q (readAttributes path n name) := by
  have hattribute (m : Node) : Explains Q (readAttribute path name m) := by
    unfold readAttribute
    split <;> infer_instance
  unfold readAttributes
  infer_instance

instance explains_memberName (kind : Text) : Explains Q (memberName n kind) := by
  unfold memberName
  split <;> infer_instance

instance explains_readField : Explains Q (readField path n) := by
  unfold readField
  infer_instance

instance explains_readMaxima : Explains Q (readMaxima path n) := by
  unfold readMaxima
  split <;> infer_instance

instance explainsLabelled_readHandler : ExplainsLabelled Q (readHandler at_ n) := by
  unfold readHandler
  dsimp only
  split
  · refine @explainsLabelled_bind _ _ _ _ _ _ fun start => ?_
    refine @explainsLabelled_bind _ _ _ _ _ _ fun stop => ?_
    refine @explainsLabelled_bind _ _ _ _ _ _ fun target => ?_
    split <;> infer_instance
  · infer_instance

instance explainsLabelled_readLocalVariable : ExplainsLabelled Q (readLocalVariable at_ n) := by
  unfold readLocalVariable
  dsimp only
  infer_instance

instance explainsLabelled_readCode : ExplainsLabelled Q (readCode at_ n) := by
  unfold readCode
  cases n.part? "body" <;> infer_instance

instance explains_readDefault (place : Text) : Explains Q (readDefault path place n) := by
  have helement (m : Node) := explains_readElement (Q := Q) path m
  unfold readDefault
  split
  · infer_instance
  · split <;> infer_instance

/-! ## Parameters -/

/-- The name of a parameter node fails in a way of its own: it has the form of such a name, but its
type has a letter outside the alphabet, or its digits make no numeral. -/
def Node.Misleads (p : Node) (e : Error) : Prop :=
  ∃ tag index, p.base = some parameterWord ∧
    Text.splitOn hyphen (p.name.getD []) = [parameterWord, tag, index] ∧ Text.isNumeric index ∧
      (e = .undefined .alphabet ∧ (∃ c ∈ tag, 0x80 ≤ c.val) ∨
        e = .undefined .numeral ∧ Text.toNat? index = none)

/-- The type of a parameter is refused by what is wrong with it, if its letters are of the alphabet.
-/
theorem explains_parameterType (tag : Text) :
    Explains (fun e => e = .undefined .alphabet ∧ ∃ c ∈ tag, 0x80 ≤ c.val) (parameterType path tag) := by
  unfold parameterType
  split
  · split <;> infer_instance
  · next hletters =>
    refine ⟨?_⟩
    rintro _ ⟨⟩
    obtain ⟨c, hc, hbig⟩ := List.all_eq_false.1 (Bool.eq_false_of_not_eq_true hletters)
    exact .inr ⟨rfl, c, hc, by simpa using hbig⟩

theorem explains_readParameterName : Explains n.Misleads (readParameterName path n) := by
  unfold readParameterName
  dsimp only
  split
  · next word tag index hname =>
    split
    · next hform =>
      obtain ⟨hbase, rfl, hindex⟩ := hform
      refine Explains.bind_of ⟨fun {e} he => ?_⟩ fun descriptor _ => ?_
      · exact ((explains_parameterType path tag).explains he).imp_right fun h =>
          ⟨tag, index, hbase, hname, hindex, .inl h⟩
      · split
        · infer_instance
        · next hnone =>
          refine ⟨?_⟩
          rintro _ ⟨⟩
          exact .inr ⟨tag, index, hbase, hname, hindex, .inr ⟨rfl, hnone⟩⟩
    · infer_instance
  · infer_instance

example : readParameterName path { base := some "param", name := some "param-é-0" } =
    .error (.undefined .alphabet) := by cbv

theorem explains_readParameter : Explains n.Misleads (readParameter path n) := by
  have hname := explains_readParameterName path n
  unfold readParameter
  infer_instance

/-! ## Methods -/

/-- A part of a tree fails in a way of its own if the name of one of its parameters does. -/
def Node.HasMisleading (m : Node) (e : Error) : Prop := ∃ p ∈ m.grouped "params", p.Misleads e

theorem explains_readMethod (className : Text) :
    Explains n.HasMisleading (readMethod path className n) := by
  have hparameters (path : Text) :
      Explains n.HasMisleading ((n.grouped "params").mapM (readParameter path)) :=
    explains_mapM_of_mem fun p hp => (explains_readParameter path p).imp fun _ h => ⟨p, hp, h⟩
  have hmaxima (path : Text) : Explains n.HasMisleading ((n.part? "maxs").mapM (readMaxima path)) :=
    explains_option_mapM fun _ _ => inferInstance
  have hcode (at_ : Location) (r : Label.Registry) :
      Explains n.HasMisleading ((readCode at_ n).run r) := (explainsLabelled_readCode n at_).explains r
  unfold readMethod
  infer_instance

/-! ## Classes -/

/-- A tree fails in a way of its own if one of its methods does. -/
def Node.HasMisleadingMethod (n : Node) (e : Error) : Prop :=
  ∃ m ∈ n.children, m.base = some ("method" : Text) ∧ m.HasMisleading e

instance explains_readVersion : Explains Q (readVersion path n) := by
  unfold readVersion
  split <;> infer_instance

instance explains_readSuper : Explains Q (readSuper path n) := by
  unfold readSuper
  refine (explains_constantOf path n _).bind_of fun v _ => ?_
  split <;> infer_instance

instance explains_readInnerClass : Explains Q (readInnerClass path n) := by
  unfold readInnerClass
  infer_instance

instance explains_readEnclosing : Explains Q (readEnclosing path n) := by
  unfold readEnclosing
  infer_instance

theorem explains_readMember (className : Text) (members : Members) :
    Explains (fun e => n.base = some ("method" : Text) ∧ n.HasMisleading e)
      (readMember path className members n) := by
  unfold readMember
  split
  · infer_instance
  · split
    · next hbase =>
      have hmethod := (explains_readMethod path n className).imp fun e h =>
        (⟨hbase, h⟩ : n.base = some ("method" : Text) ∧ n.HasMisleading e)
      infer_instance
    · infer_instance

theorem explains_readNamed (name : Text) : Explains n.HasMisleadingMethod (readNamed name n) := by
  have hmembers (path : Text) (members : Members) :
      Explains n.HasMisleadingMethod (n.children.foldlM (readMember path name) members) := by
    refine explains_foldlM_of_mem (fun m hm members => ?_) members
    exact (explains_readMember path m name members).imp fun _ h => ⟨m, hm, h⟩
  unfold readNamed
  infer_instance

end

/-- A tree is refused by what is wrong with it, the names of parameters aside. -/
theorem explains_ofTree : Explains n.HasMisleadingMethod (Class.ofTree n) := by
  have hnamed (name : Text) := explains_readNamed n name
  unfold Class.ofTree
  split
  · split <;> infer_instance
  · infer_instance

/-! ## Texts -/

/-- A line marker among some events has digits only, but they make no numeral. -/
def HasMisleadingMarker (events : List Event) (e : Error) : Prop :=
  e = .undefined .numeral ∧
    ∃ value, .attribute_ "line" value ∈ events ∧ Text.isNumeric value ∧ Text.toNat? value = none

variable {events : List Event}

/-- Every attribute of an open node has been told of. -/
def OpenNode.IsTold (events : List Event) (o : OpenNode) : Prop :=
  ∀ a ∈ o.attributes, .attribute_ a.1 a.2 ∈ events

instance explains_checkAttributes (attributes : List (Text × Text)) (given : List Text) :
    Explains Q (checkAttributes attributes given) := by
  induction attributes generalizing given with
  | nil => exact explains_ok ()
  | cons a attributes ih =>
    unfold checkAttributes
    split
    · infer_instance
    · split
      · infer_instance
      · exact ih _

theorem explains_lineNumber {value : Text} (h : .attribute_ "line" value ∈ events) :
    Explains (HasMisleadingMarker events) (lineNumber value) := by
  unfold lineNumber
  split
  · next hnumeric =>
    split
    · infer_instance
    · next hnone =>
      refine ⟨?_⟩
      rintro _ ⟨⟩
      exact .inr ⟨rfl, value, h, hnumeric, hnone⟩
  · infer_instance

theorem explains_close_of_isTold {o : OpenNode} (h : o.IsTold events) :
    Explains (HasMisleadingMarker events) o.close := by
  have hline : Explains (HasMisleadingMarker events)
      (((o.attributes.reverse.find? fun a => a.1 = ("line" : Text)).map Prod.snd).mapM lineNumber) := by
    refine explains_option_mapM fun value hvalue => explains_lineNumber ?_
    obtain ⟨⟨name, _⟩, ha, rfl⟩ := Option.map_eq_some_iff.1 hvalue
    have hname := List.find?_some ha
    obtain rfl : name = ("line" : Text) := of_decide_eq_true hname
    exact h _ (List.mem_reverse.1 (List.mem_of_find?_eq_some ha))
  unfold OpenNode.close
  infer_instance

theorem isTold_modifyTop {a : Assembly} {f : OpenNode → OpenNode} (h : ∀ o ∈ a.stack, o.IsTold events)
    (hf : ∀ o, o.IsTold events → (f o).IsTold events) : ∀ o ∈ (a.modifyTop f).stack, o.IsTold events := by
  unfold Assembly.modifyTop
  split
  · next top rest hstack =>
    rw [hstack, List.forall_mem_cons] at h
    exact List.forall_mem_cons.2 ⟨hf top h.1, h.2⟩
  · exact h

/-- What is open after one more event has been told of, if what was open before has. -/
theorem isTold_of_step {a a' : Assembly} {event : Event} (hevent : event ∈ events)
    (h : ∀ o ∈ a.stack, o.IsTold events) (hstep : a.step event = .ok a') :
    ∀ o ∈ a'.stack, o.IsTold events := by
  cases event with
  | opening =>
    cases hstep
    exact List.forall_mem_cons.2 ⟨nofun, h⟩
  | attribute_ name value =>
    cases hstep
    exact isTold_modifyTop h fun o ho => List.forall_mem_cons.2 ⟨hevent, ho⟩
  | text value =>
    cases hstep
    exact isTold_modifyTop h fun o ho => ho
  | closing =>
    unfold Assembly.step at hstep
    dsimp only at hstep
    split at hstep
    · cases hstep
      exact h
    · next top rest hstack =>
      rw [hstack, List.forall_mem_cons] at h
      obtain ⟨node, -, hstep⟩ := Result.bind_eq_ok_iff.1 hstep
      split at hstep
      · cases hstep
        exact h.2
      · cases hstep
        exact isTold_modifyTop h.2 fun o ho => ho

theorem explains_step {a : Assembly} (event : Event) (h : ∀ o ∈ a.stack, o.IsTold events) :
    Explains (HasMisleadingMarker events) (a.step event) := by
  cases event with
  | closing =>
    unfold Assembly.step
    dsimp only
    split
    · infer_instance
    · next top rest hstack =>
      have hclose := explains_close_of_isTold (h top (by simp [hstack]))
      infer_instance
  | _ => exact explains_ok _

/-- The induction is on the events that are left. -/
theorem explains_foldlM_step {rest : List Event} (hrest : ∀ event ∈ rest, event ∈ events)
    (a : Assembly) (h : ∀ o ∈ a.stack, o.IsTold events) :
    Explains (HasMisleadingMarker events) (rest.foldlM Assembly.step a) := by
  induction rest generalizing a with
  | nil => exact explains_pure a
  | cons event rest ih =>
    rw [List.foldlM_cons]
    refine (explains_step event h).bind_of fun a' hstep => ?_
    exact ih (fun e he => hrest e (List.mem_cons_of_mem _ he)) a'
      (isTold_of_step (hrest event (List.mem_cons_self ..)) h hstep)

/-- The events of a document are refused by what is wrong with them, line markers aside. -/
theorem explains_ofEvents : Explains (HasMisleadingMarker events) (Node.ofEvents events) := by
  have hfold : Explains (HasMisleadingMarker events) (events.foldlM Assembly.step {}) :=
    explains_foldlM_step (fun _ => id) {} nofun
  unfold Node.ofEvents
  refine hfold.bind_of fun a _ => ?_
  split <;> infer_instance

end Tree

/-- A text has a line marker or the name of a parameter that fails in a way of its own. -/
def Text.Misleads (t : Text) (e : Error) : Prop :=
  ∃ events, Tree.scan t = .ok events ∧ (Tree.HasMisleadingMarker events e ∨
    ∃ n, Tree.Node.ofEvents events = .ok n ∧ n.HasMisleadingMethod e)

/-- Every text is the tree of a class, or it is refused. The refusal says what is wrong with the
tree, unless the text has a line marker whose digits make no numeral, or a parameter whose name has
such digits or a letter outside ASCII in its type. -/
theorem Class.exists_or_isAboutTree_of_ofText (t : Text) :
    (∃ c, Class.ofText t = .ok c) ∨
      ∃ e, Class.ofText t = .error e ∧ (e.isAboutTree = true ∨ t.Misleads e) := by
  cases h : Class.ofText t with
  | ok c => exact .inl ⟨c, rfl⟩
  | error e =>
    refine .inr ⟨e, rfl, ?_⟩
    unfold Class.ofText Tree.Node.read at h
    cases hscan : Tree.scan t with
    | error p =>
      rw [hscan] at h
      cases h
      exact .inl rfl
    | ok events =>
      rw [hscan] at h
      rcases Result.bind_eq_error_iff.1 h with h | ⟨n, hn, h⟩
      · exact (Tree.explains_ofEvents.explains h).imp_right fun h => ⟨events, hscan, .inl h⟩
      · exact ((Tree.explains_ofTree n).explains h).imp_right fun h => ⟨events, hscan, .inr ⟨n, hn, h⟩⟩

/-- A node whose line marker is a superscript two, which is a digit but no numeral. -/
def superscriptText : Text := "(o line=\"²\")"

set_option maxRecDepth 2000 in
/-- The numeral of this line marker is refused by an error that is not about the tree. -/
theorem Class.exists_error_superscriptText :
    ∃ e, Class.ofText superscriptText = .error e ∧ e.isAboutTree = false :=
  ⟨.undefined .numeral, by cbv, rfl⟩

end ClassTree
