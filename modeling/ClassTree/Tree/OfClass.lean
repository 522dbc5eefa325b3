/-
# ClassTree.Tree.OfClass — classes as trees

The tree of a class says everything that the class says and nothing about its layout. Parts that are
empty or missing have no node. Rendering fails where a part has no literal: a number outside its
kind, or a name that is missing where there has to be one.
-/
import ClassTree.Tree.Node
import ClassTree.Tree.OfBody

namespace ClassTree.Tree

/-! ## Annotations -/

mutual

/-- An annotation value; `name` is that of the tag for a scalar. -/
def ofElement : ElementValue → Result Node
  | .scalar tag value =>
    match Literal.elementKind? tag with
    | some kind => Node.leaf kind value (some tag.letter)
    | none => .error (.undefined .kind)
  | .enum descriptor name => do
    return entity "enum" none
      [← textLeaf descriptor (some "descriptor"), ← textLeaf name (some "name")]
  | .nested descriptor visible values => ofParts descriptor visible values
  | .array elements => do return group (some "array") (← ofElements elements [])

/-- An annotation by its parts. -/
def ofParts (descriptor : Text) (visible : Bool) (values : List (Text × ElementValue)) :
    Result Node := do
  let descriptor ← textLeaf descriptor (some "descriptor")
  let visible ← boolLeaf visible (some "visible")
  return entity "annotation" none (descriptor :: visible :: (← ofNamed values []))

/-- Annotation values, onto the reversed nodes `acc`. -/
def ofElements : List ElementValue → List Node → Result (List Node)
  | [], acc => .ok acc.reverse
  | v :: rest, acc => do
    let node ← ofElement v
    ofElements rest (node :: acc)

/-- Named annotation values, onto the reversed nodes `acc`. -/
def ofNamed : List (Text × ElementValue) → List Node → Result (List Node)
  | [], acc => .ok acc.reverse
  | (name, v) :: rest, acc => do
    let name ← textLeaf name none
    let value ← ofElement v
    ofNamed rest (entity "property" none [name, value] :: acc)

end

/-- An annotation. -/
def ofAnnotationUse (a : AnnotationUse) : Result Node := ofParts a.descriptor a.visible a.values

/-- A group of what there is some of. -/
def groupOf {α : Type} (name : Text) (each : α → Result Node) (parts : List α) :
    Result (List Node) :=
  if parts.isEmpty then .ok []
  else do return [group (some name) (← parts.mapM each)]

/-- The annotations of an entity. -/
def ofAnnotationUses (as : List AnnotationUse) : Result (List Node) :=
  groupOf "annotations" ofAnnotationUse as

/-! ## Members -/

/-- An attribute kept as its bytes. -/
def ofAttribute (a : Attribute) : Result Node := do
  return entity "attribute" (some a.name) [← Node.leaf .bytes (.bytes a.data) none]

/-- The constant of a field. -/
def ofFieldValue (f : Field) : Result (List Node) :=
  optionLeaf (fun value => Node.leaf (Literal.fieldKind f.descriptor value) value) f.value "value"

/-- A field. -/
def ofField (f : Field) : Result Node := do
  let access ← intLeaf f.access (some "access")
  let descriptor ← textLeaf f.descriptor (some "descriptor")
  let signature ← optionLeaf textLeaf f.signature "signature"
  let value ← ofFieldValue f
  let annotations ← ofAnnotationUses f.annotations
  let attributes ← groupOf "attributes" ofAttribute f.attributes
  return entity "field" (some f.name)
    (access :: descriptor :: (signature ++ value ++ annotations ++ attributes))

/-- A parameter. -/
def ofParameter (p : Parameter) : Result Node := do
  let annotations ← ofAnnotationUses p.annotations
  let name ← optionLeaf textLeaf p.name "name"
  let access ← if p.access = 0 then pure [] else do pure [← intLeaf p.access (some "access")]
  let word ← parameterName p.descriptor p.index
  return entity "param" (some word) (annotations ++ name ++ access)

/-- The sizes of the stack and of the locals. -/
def ofMaxima (m : Maxima) : Result Node := do
  return group (some "maxs") [← intLeaf m.stack none, ← intLeaf m.locals none]

/-- An exception handler. -/
def ofHandler (h : Handler) : Result Node := do
  let start ← labelLeaf h.start none
  let stop ← labelLeaf h.stop none
  let target ← labelLeaf h.target none
  let type ← match h.type with
    | some t => do pure [← textLeaf t none]
    | none => pure []
  return entity "try-catch-entry" none ([start, stop, target] ++ type)

/-- A local variable. -/
def ofLocalVariable (v : LocalVariable) : Result Node := do
  let name ← textLeaf v.name (some "name")
  let descriptor ← optionLeaf textLeaf v.descriptor "descriptor"
  let start ← labelLeaf v.start (some "start")
  let stop ← labelLeaf v.stop (some "end")
  let slot ← intLeaf v.slot (some "index")
  let signature ← optionLeaf textLeaf v.signature "signature"
  return entity "local-variable" none
    (name :: (descriptor ++ [start, stop, slot] ++ signature))

/-- The body of a method that carries code. -/
def ofBody (m : Method) : Result (List Node) :=
  if m.hasCode then do return [entity "seq" (some "body") (← m.body.mapM ofItem)]
  else .ok []

/-- The default value of an annotation property. -/
def ofDefault : Option ElementValue → Result (List Node)
  | some v => do
    return [entity "annotation-default-value" (some "annotation-default-value") [← ofElement v]]
  | none => .ok []

/-- A method. -/
def ofMethod (m : Method) : Result Node := do
  let access ← intLeaf m.access (some "access")
  let descriptor ← textLeaf m.descriptor (some "descriptor")
  let signature ← optionLeaf textLeaf m.signature "signature"
  let exceptions ← groupOf "exceptions" (fun e => nameLeaf e none) m.exceptions
  let parameters ← groupOf "params" ofParameter m.parameters
  let visible ← optionLeaf intLeaf m.visibleCount "visible-parameter-count"
  let invisible ← optionLeaf intLeaf m.invisibleCount "invisible-parameter-count"
  let count ← optionLeaf intLeaf m.parameterCount "parameter-count"
  let maxima ← match m.maxima with
    | some sizes => do pure [← ofMaxima sizes]
    | none => pure []
  let body ← ofBody m
  let handlers ← groupOf "trycatchblocks" ofHandler m.handlers
  let locals ← groupOf "local-variables" ofLocalVariable m.localVariables
  let annotations ← ofAnnotationUses m.annotations
  let default ← ofDefault m.default
  let attributes ← groupOf "attributes" ofAttribute m.attributes
  let codeAttributes ← groupOf "code-attributes" ofAttribute m.codeAttributes
  return entity "method" (some m.name)
    (access :: descriptor :: (signature ++ exceptions ++ parameters ++ visible ++ invisible ++ count
      ++ maxima ++ body ++ handlers ++ locals ++ annotations ++ default ++ attributes
      ++ codeAttributes))

/-! ## Classes -/

/-- A member class. -/
def ofInnerClass (i : InnerClass) : Result Node := do
  let inner ← optionLeaf textLeaf i.inner "inner"
  let outer ← optionLeaf textLeaf i.outer "outer"
  let name ← optionLeaf textLeaf i.name "inner-name"
  let access ← intLeaf i.access (some "access")
  return entity "inner-class" none (inner ++ outer ++ name ++ [access])

/-- The method around a local class. -/
def ofEnclosing (e : EnclosingMethod) : Result Node := do
  let owner ← optionLeaf textLeaf e.owner "owner"
  let name ← optionLeaf textLeaf e.name "name"
  let descriptor ← optionLeaf textLeaf e.descriptor "descriptor"
  return entity "enclosing-method" (some "enclosing-method") (owner ++ name ++ descriptor)

/-- The superclass, a null leaf where there is none. -/
def ofSuper : Option Text → Result Node
  | some name => textLeaf name (some "supername")
  | none => Node.leaf .null .null (some "supername")

/-- A class, before its nodes are numbered. -/
def ofClass (c : Class) : Result Node := do
  let major ← intLeaf c.major none
  let minor ← intLeaf c.minor none
  let access ← intLeaf c.access (some "access")
  let signature ← optionLeaf textLeaf c.signature "signature"
  let super ← ofSuper c.super
  let interfaces ← groupOf "interfaces" (fun i => nameLeaf i none) c.interfaces
  let sourceFile ← optionLeaf textLeaf c.sourceFile "source-file"
  let annotations ← ofAnnotationUses c.annotations
  let innerClasses ← groupOf "inner-classes" ofInnerClass c.innerClasses
  let enclosing ← match c.enclosing with
    | some e => do pure [← ofEnclosing e]
    | none => pure []
  let attributes ← groupOf "attributes" ofAttribute c.attributes
  let fields ← c.fields.mapM ofField
  let methods ← c.methods.mapM ofMethod
  return entity "class" (some (Text.replace 0x2F 0x2E c.name))
    (group (some "version") [major, minor] :: access :: (signature ++ super :: (interfaces
      ++ sourceFile ++ annotations ++ innerClasses ++ enclosing ++ attributes ++ fields ++ methods)))

end ClassTree.Tree

namespace ClassTree.Class

/-- The tree of a class. -/
def toTree (c : Class) : Result Tree.Node := do return (← Tree.ofClass c).numbered

end ClassTree.Class
