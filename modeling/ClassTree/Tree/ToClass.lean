/-
# ClassTree.Tree.ToClass — classes from trees

Metadata is found by name, so its order among the children of a node is free; only members,
instructions and the values of annotations count in order. What a tree leaves out is filled in: the
version, the superclass, and everything that may be empty.
-/
import ClassTree.Tree.ToBody

namespace ClassTree.Tree

/-! ## Annotations -/

/-- The scalar tag of an annotation value node. -/
def tagOf? (n : Node) : Option ElementTag :=
  if n.isLeaf then n.name.bind ElementTag.ofLetter? else none

/-- A scalar annotation value. -/
def readScalar (path : Text) (tag : ElementTag) (n : Node) : Result ElementValue :=
  match Literal.elementKind? tag with
  | some kind => do return .scalar tag (← constantOf path [kind] n)
  | none => .error (.undefined .kind)

/-- The descriptor and the visibility of an annotation are read around its values. -/
def readParts (path : Text) (n : Node) (values : Text → Result (List (Text × ElementValue))) :
    Result AnnotationUse := do
  unless n.base = some "annotation" do throw (.misformatted (.expectedAnnotated n.base) (some path))
  let descriptor ← required (textOf path) n "descriptor" "annotation"
  let values ← values descriptor
  let visible ← required (boolOf path) n "visible" ("annotation " ++ descriptor)
  return { descriptor, visible, values }

mutual

/-- An annotation value. -/
def readElement (path : Text) (n : Node) : Result ElementValue :=
  match n with
  | ⟨base, name, line, data, text, children⟩ =>
    let n : Node := ⟨base, name, line, data, text, children⟩
    if base = some "annotation" then do
      let a ← readParts path n fun descriptor => readProperties path descriptor children []
      return .nested a.descriptor a.visible a.values
    else if base = some "enum" then do
      let descriptor ← required (textOf path) n "descriptor" "enum"
      return .enum descriptor (← required (textOf path) n "name" "enum")
    else if base = some "tuple" then do
      return .array (← readElements path children [])
    else
      match tagOf? n with
      | some tag => readScalar path tag n
      | none => .error (.misformatted (.elementNode base) (some path))

/-- Annotation values, onto the reversed values `acc`. -/
def readElements (path : Text) (ns : List Node) (acc : List ElementValue) :
    Result (List ElementValue) :=
  match ns with
  | [] => .ok acc.reverse
  | n :: rest => do
    let v ← readElement path n
    readElements path rest (v :: acc)

/-- The properties among the children of an annotation, onto the reversed properties `acc`. -/
def readProperties (path descriptor : Text) (ns : List Node) (acc : List (Text × ElementValue)) :
    Result (List (Text × ElementValue)) :=
  match ns with
  | [] => .ok acc.reverse
  | n :: rest => do
    match ← readProperty path descriptor n with
    | some property => readProperties path descriptor rest (property :: acc)
    | none => readProperties path descriptor rest acc

/-- A property: a name and a value. A node of another kind is none. -/
def readProperty (path descriptor : Text) (n : Node) : Result (Option (Text × ElementValue)) :=
  match n with
  | ⟨base, _, _, _, _, children⟩ =>
    if base = some "property" then
      match children with
      | [name, value] => do
        let name ← textOf path name
        return some (name, ← readElement path value)
      | _ => .error (.missingElement "name and value"
          (Text.concat ["annotation ", descriptor, " property"]))
    else .ok none

end

/-- An annotation. -/
def readAnnotationUse (path : Text) (n : Node) : Result AnnotationUse :=
  readParts path n fun descriptor => readProperties path descriptor n.children []

/-- The annotations of an entity. -/
def readAnnotationUses (path : Text) (n : Node) : Result (List AnnotationUse) :=
  (n.grouped "annotations").mapM (readAnnotationUse path)

/-! ## Fields -/

/-- An attribute kept as its bytes; `name` is that of the group it is in. -/
def readAttribute (path name : Text) (n : Node) : Result Attribute :=
  match n.name, n.children with
  | some (c :: rest), data :: _ => do return ⟨c :: rest, ← bytesOf path data⟩
  | _, _ => .error (.missingElement "name and data" (step path name))

/-- The attributes in a group. -/
def readAttributes (path : Text) (n : Node) (name : Text) : Result (List Attribute) :=
  (n.grouped name).mapM (readAttribute path name)

/-- The name of a member. -/
def memberName (n : Node) (kind : Text) : Result Text :=
  match n.name with
  | some (c :: rest) => .ok (c :: rest)
  | _ => .error (.missingElement "name" kind)

/-- A field of the class at a path. -/
def readField (path : Text) (n : Node) : Result Field := do
  let name ← memberName n "field"
  let place := "field " ++ name
  let path := step path place
  let access ← required (intOf path) n "access" place
  let descriptor ← required (textOf path) n "descriptor" place
  let signature ← optional (textOf path) n "signature"
  let value ← optional (constantOf path [.int, .long, .float, .double, .string]) n "value"
  let annotations ← readAnnotationUses path n
  let attributes ← readAttributes path n "attributes"
  return { access, name, descriptor, signature, value, annotations, attributes }

/-! ## Methods -/

/-- The sizes of the stack and of the locals. -/
def readMaxima (path : Text) (n : Node) : Result Maxima :=
  match n.children with
  | [stack, locals] => do
    let stack ← intOf path stack
    return ⟨stack, ← intOf path locals⟩
  | _ => .error (.misformatted .maxima (some (step path "maxs")))

/-- An exception handler. -/
def readHandler (at_ : Location) (n : Node) : Labelled Handler := do
  let at_ := { at_ with place := at_.place ++ " try-catch-entry" }
  match n.childrenOf "label" with
  | [start, stop, target] =>
    let start ← readReference at_ start
    let stop ← readReference at_ stop
    let target ← readReference at_ target
    let type ← match n.childrenOf "string" with
      | t :: _ => do pure (some (← textOf at_.path t))
      | [] => pure none
    return { start, stop, target, type }
  | _ => throw (.missingElement "start, end and handler labels" at_.place)

/-- A local variable. -/
def readLocalVariable (at_ : Location) (n : Node) : Labelled LocalVariable := do
  let name ← required (textOf at_.path) n "name" "local-variable"
  let place := "local " ++ name
  let at_ := { at_ with place := Text.concat [at_.place, " ", place] }
  let descriptor ← optional (textOf at_.path) n "descriptor"
  if descriptor.isNone && (n.part? "signature").isNone then
    throw (.missingElement "descriptor" place)
  let start ← readReference at_ (← n.part "start" place)
  let stop ← readReference at_ (← n.part "end" place)
  let slot ← required (intOf at_.path) n "index" place
  return { name, descriptor, start, stop, slot, signature := ← optional (textOf at_.path) n "signature" }

/-- What the code of a method is made of. -/
structure CodeParts where
  body : List Item
  handlers : List Handler
  localVariables : List LocalVariable

/-- The code of a method; every label it refers to must be defined in it. -/
def readCode (at_ : Location) (n : Node) : Labelled CodeParts := do
  let body ← match n.part? "body" with
    | some b => readItems at_ b
    | none => pure []
  let handlers ← (n.grouped "trycatchblocks").mapM (readHandler at_)
  let localVariables ← (n.grouped "local-variables").mapM (readLocalVariable at_)
  (← get).close
  return { body, handlers, localVariables }

/-- The default value of an annotation property. -/
def readDefault (path place : Text) (n : Node) : Result (Option ElementValue) :=
  match n.part? "annotation-default-value" with
  | none => .ok none
  | some d =>
    match d.children with
    | v :: _ => do return some (← readElement path v)
    | [] => .error (.missingElement "value" (place ++ " annotation-default-value"))

/-- The type in the name of a parameter. -/
def parameterType (path tag : Text) : Result Text :=
  if tag.all fun c => c.val < 0x80 then
    match (Base64.read? tag).bind fun bytes => (Utf8.decode bytes).toOption with
    | some t => .ok t
    | none => .error (.misformatted (.parameterTag tag) (some path))
  else .error (.undefined .alphabet)

/-- The type and the place in the name of a parameter. -/
def readParameterName (path : Text) (n : Node) : Result (Text × Int) := do
  let refuse : Result (Text × Int) := .error (.misformatted (.parameterNode n.name) (some path))
  match Text.splitOn hyphen (n.name.getD []) with
  | [word, tag, index] =>
    if n.base = some parameterWord ∧ word = parameterWord ∧ Text.isNumeric index then
      let descriptor ← parameterType path tag
      match Text.toNat? index with
      | some i => return (descriptor, (i : Int))
      | none => throw (.undefined .numeral)
    else refuse
  | _ => refuse

/-- A parameter. -/
def readParameter (path : Text) (n : Node) : Result Parameter := do
  let (descriptor, index) ← readParameterName path n
  let annotations ← readAnnotationUses path n
  let name ← optional (textOf path) n "name"
  let access ← optional (intOf path) n "access"
  return { index, descriptor, annotations, name, access := access.getD 0 }

/-- A method of the class of a given name and path. -/
def readMethod (path className : Text) (n : Node) : Result Method := do
  let name ← memberName n "method"
  let entity := "method " ++ name
  let path := step path entity
  let access ← required (intOf path) n "access" entity
  let descriptor ← required (textOf path) n "descriptor" entity
  let place := Text.concat [className, ".", name, descriptor]
  let maxima ← (n.part? "maxs").mapM (readMaxima path)
  let (code, _) ← (readCode ⟨path, place⟩ n).run { place }
  let default ← readDefault path entity n
  let signature ← optional (textOf path) n "signature"
  let exceptions ← (n.grouped "exceptions").mapM (textOf path)
  let parameters ← (n.grouped "params").mapM (readParameter path)
  let annotations ← readAnnotationUses path n
  let attributes ← readAttributes path n "attributes"
  let codeAttributes ← readAttributes path n "code-attributes"
  let visibleCount ← optional (intOf path) n "visible-parameter-count"
  let invisibleCount ← optional (intOf path) n "invisible-parameter-count"
  let parameterCount ← optional (intOf path) n "parameter-count"
  return {
    access, name, descriptor, signature, exceptions := exceptions.map some, parameters, maxima
    body := code.body, handlers := code.handlers, localVariables := code.localVariables
    annotations, default, attributes, codeAttributes, visibleCount, invisibleCount, parameterCount }

/-! ## Classes -/

/-- The version, major number first. -/
def readVersion (path : Text) (n : Node) : Result (Int × Int) :=
  match n.children with
  | [major, minor] => do
    let major ← intOf path major
    return (major, ← intOf path minor)
  | _ => .error (.misformatted .version (some (step path "version")))

/-- The superclass; a null leaf stands for none. -/
def readSuper (path : Text) (n : Node) : Result (Option Text) := do
  match ← constantOf path [.string, .null] n with
  | .text name => return some name
  | _ => return none

/-- A member class. -/
def readInnerClass (path : Text) (n : Node) : Result InnerClass := do
  let inner ← required (textOf path) n "inner" "inner-class"
  let outer ← optional (textOf path) n "outer"
  let name ← optional (textOf path) n "inner-name"
  let access ← required (intOf path) n "access" "inner-class"
  return { inner := some inner, outer, name, access }

/-- The method around a local class. -/
def readEnclosing (path : Text) (n : Node) : Result EnclosingMethod := do
  let owner ← required (textOf path) n "owner" "enclosing-method"
  let name ← optional (textOf path) n "name"
  let descriptor ← optional (textOf path) n "descriptor"
  return { owner := some owner, name, descriptor }

/-- The fields and the methods, each list reversed. -/
structure Members where
  fields : List Field := []
  methods : List Method := []

/-- Adds the member of a node; a node of another kind adds nothing. -/
def readMember (path className : Text) (m : Members) (n : Node) : Result Members := do
  if n.base = some "field" then return { m with fields := (← readField path n) :: m.fields }
  else if n.base = some "method" then
    return { m with methods := (← readMethod path className n) :: m.methods }
  else return m

/-- The class of a given name whose tree this is. -/
def readNamed (name : Text) (n : Node) : Result Class := do
  let entity := "class " ++ name
  let version ← optional (readVersion entity) n "version"
  let access ← required (intOf entity) n "access" entity
  let super ← optional (readSuper entity) n "supername"
  let enclosing ← optional (readEnclosing entity) n "enclosing-method"
  let innerClasses ← (n.grouped "inner-classes").mapM (readInnerClass entity)
  let members ← n.children.foldlM (readMember entity name) {}
  let signature ← optional (textOf entity) n "signature"
  let interfaces ← (n.grouped "interfaces").mapM (textOf entity)
  let annotations ← readAnnotationUses entity n
  let sourceFile ← optional (textOf entity) n "source-file"
  let attributes ← readAttributes entity n "attributes"
  let c : Class := { name }
  return {
    name, access, major := (version.map Prod.fst).getD c.major
    minor := (version.map Prod.snd).getD c.minor, signature, super := super.getD c.super
    interfaces := interfaces.map some, fields := members.fields.reverse
    methods := members.methods.reverse, annotations, sourceFile, innerClasses, enclosing
    attributes }

end ClassTree.Tree

namespace ClassTree.Class

/-- The class of a tree. Dots in its name separate packages as slashes do. -/
def ofTree (n : Tree.Node) : Result Class :=
  if n.base = some "class" then
    match n.name with
    | some (c :: rest) => Tree.readNamed (Text.replace 0x2E 0x2F (c :: rest)) n
    | _ => .error (.missingElement "name" "class")
  else .error (.misformatted (.root n.base) none)

end ClassTree.Class
