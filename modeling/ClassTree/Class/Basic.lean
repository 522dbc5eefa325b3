/-
# ClassTree.Class.Basic — classes, fields and methods

A class as a value: everything that its class file says, and beside it the `layout`, which records
choices of the file that carry no meaning — indices in the constant pool and the order of
attributes. Two classes are `same` when they agree in everything but the layout.

An attribute is known by its name and by the entity that carries it. Attributes without a meaning
here are kept as their bytes.
-/
import ClassTree.Class.Element
import ClassTree.Class.Instruction
import ClassTree.Pool.Entry

namespace ClassTree

/-! ## Parts -/

/-- An attribute kept as its bytes. -/
structure Attribute where
  name : Text
  data : Bytes
  deriving DecidableEq, Repr

/-- The range `[start, stop)` of an exception handler. Without a type it catches everything. -/
structure Handler where
  start : Label
  stop : Label
  target : Label
  type : Option Text
  deriving DecidableEq, Repr

/-- The range of a local variable. Without a descriptor it stands in the table of generic
signatures only. -/
structure LocalVariable where
  name : Text
  descriptor : Option Text
  start : Label
  stop : Label
  slot : Int
  signature : Option Text
  deriving DecidableEq, Repr

/-- The sizes of the operand stack and of the locals. -/
structure Maxima where
  stack : Int
  locals : Int
  deriving DecidableEq, Repr

/-- A parameter of a method. -/
structure Parameter where
  index : Int
  descriptor : Text
  annotations : List AnnotationUse := []
  name : Option Text := none
  access : Int := 0

/-! ## Members -/

/-- A field. The order of its attributes is a matter of layout. -/
structure Field where
  access : Int
  name : Text
  descriptor : Text
  signature : Option Text := none
  value : Option Constant := none
  annotations : List AnnotationUse := []
  attributes : List Attribute := []
  attributeOrder : List Text := []

/-- Choices of a class file about one method that carry no meaning. -/
structure MethodLayout where
  attributeOrder : List Text := []
  codeOrder : List Text := []
  /-- For each line number table, the places of its entries among the line markers. -/
  lineTables : List (List Int) := []
  deriving DecidableEq, Repr

/-- A method. -/
structure Method where
  access : Int
  name : Text
  descriptor : Text
  signature : Option Text := none
  exceptions : List (Option Text) := []
  parameters : List Parameter := []
  maxima : Option Maxima := none
  body : List Item := []
  handlers : List Handler := []
  localVariables : List LocalVariable := []
  annotations : List AnnotationUse := []
  default : Option ElementValue := none
  attributes : List Attribute := []
  codeAttributes : List Attribute := []
  /-- How many parameters the visible parameter annotations cover, if not all. -/
  visibleCount : Option Int := none
  /-- How many parameters the invisible parameter annotations cover, if not all. -/
  invisibleCount : Option Int := none
  /-- How many parameters the table of parameter names covers, if not all. -/
  parameterCount : Option Int := none
  layout : MethodLayout := {}

/-- A class that is listed as a member of another one. -/
structure InnerClass where
  inner : Option Text
  outer : Option Text
  name : Option Text
  access : Int
  deriving DecidableEq, Repr

/-- The method that a local class is declared in. -/
structure EnclosingMethod where
  owner : Option Text
  name : Option Text
  descriptor : Option Text
  deriving DecidableEq, Repr

/-- A bootstrap method: the index of its handle and those of its arguments. -/
structure Bootstrap where
  handle : Nat
  arguments : List Nat
  deriving DecidableEq, Hashable, Repr

/-! ## Classes -/

/-- Choices of a class file that carry no meaning: its constant pool and bootstrap table, which
seed those of the file written next, and the order of the class attributes. -/
structure ClassLayout where
  pool : List (Option Pool.Entry) := []
  bootstrap : List Bootstrap := []
  attributeOrder : List Text := []
  deriving DecidableEq, Repr

/-- The root of all classes. -/
def objectName : Text := "java/lang/Object"

/-- A class. -/
structure Class where
  name : Text
  access : Int := 0x21
  major : Int := 52
  minor : Int := 0
  signature : Option Text := none
  super : Option Text := some objectName
  interfaces : List (Option Text) := []
  fields : List Field := []
  methods : List Method := []
  annotations : List AnnotationUse := []
  sourceFile : Option Text := none
  innerClasses : List InnerClass := []
  enclosing : Option EnclosingMethod := none
  attributes : List Attribute := []
  layout : ClassLayout := {}

/-! ## Simple questions -/

/-- The bit of static methods. -/
def staticBit : Nat := 0x8

/-- The bits of methods without a body: abstract and native. -/
def bodilessBits : Nat := 0x500

/-- Some bit of `mask` is set in a two's complement number; every mask in use is below `2 ^ 16`. -/
def hasBits (flags : Int) (mask : Nat) : Bool := (flags % 0x10000).toNat &&& mask ≠ 0

namespace Method

/-- The method carries code. -/
def hasCode (m : Method) : Bool := !m.body.isEmpty || m.maxima.isSome

/-- The labels defined in the body, in order. -/
def labels (m : Method) : List Label := m.body.filterMap Item.label?

/-- A method without a receiver. -/
def isStatic (m : Method) : Bool := hasBits m.access staticBit

/-- A method that is declared without a body. -/
def isAbstract (m : Method) : Bool := hasBits m.access bodilessBits

end Method

/-! ## Equality by value -/

/-- Lists of equal length that agree place by place. -/
def sameList {α : Type} (same : α → α → Bool) (a b : List α) : Bool :=
  a.length = b.length && (a.zip b).all fun (x, y) => same x y

/-- Options that agree. -/
def sameOption {α : Type} (same : α → α → Bool) : Option α → Option α → Bool
  | some x, some y => same x y
  | none, none => true
  | _, _ => false

/-- Parameters that agree. -/
def Parameter.same (a b : Parameter) : Bool :=
  a.index = b.index && a.descriptor = b.descriptor
    && sameList AnnotationUse.same a.annotations b.annotations
    && a.name = b.name && a.access = b.access

/-- Fields that agree in everything but the layout. -/
def Field.same (a b : Field) : Bool :=
  a.access = b.access && a.name = b.name && a.descriptor = b.descriptor
    && a.signature = b.signature && sameOption Constant.same a.value b.value
    && sameList AnnotationUse.same a.annotations b.annotations && a.attributes = b.attributes

/-- Methods that agree in everything but the layout. -/
def Method.same (a b : Method) : Bool :=
  a.access = b.access && a.name = b.name && a.descriptor = b.descriptor
    && a.signature = b.signature && a.exceptions = b.exceptions
    && sameList Parameter.same a.parameters b.parameters && a.maxima = b.maxima
    && sameList Item.same a.body b.body && a.handlers = b.handlers
    && a.localVariables = b.localVariables
    && sameList AnnotationUse.same a.annotations b.annotations
    && sameOption ElementValue.same a.default b.default && a.attributes = b.attributes
    && a.codeAttributes = b.codeAttributes && a.visibleCount = b.visibleCount
    && a.invisibleCount = b.invisibleCount && a.parameterCount = b.parameterCount

/-- Classes that agree in everything but the layout. -/
def Class.same (a b : Class) : Bool :=
  a.name = b.name && a.access = b.access && a.major = b.major && a.minor = b.minor
    && a.signature = b.signature && a.super = b.super && a.interfaces = b.interfaces
    && sameList Field.same a.fields b.fields && sameList Method.same a.methods b.methods
    && sameList AnnotationUse.same a.annotations b.annotations && a.sourceFile = b.sourceFile
    && a.innerClasses = b.innerClasses && a.enclosing = b.enclosing
    && a.attributes = b.attributes

/-! ## The names of attributes with a meaning -/

namespace AttributeName

/-! ### Of classes -/

/-- Names the file that the class was compiled from. -/
def sourceFile : Text := "SourceFile"

/-- Lists the classes that are members of others. -/
def innerClasses : Text := "InnerClasses"

/-- Names the class, and perhaps the method, that a local class stands in. -/
def enclosingMethod : Text := "EnclosingMethod"

/-- The table that dynamic call sites refer to. -/
def bootstrapMethods : Text := "BootstrapMethods"

/-! ### Of classes and members -/

/-- The generic signature of a class, field, or method. -/
def signature : Text := "Signature"

/-- Annotations that are visible at run time or not. -/
def annotations (visible : Bool) : Text :=
  if visible then "RuntimeVisibleAnnotations" else "RuntimeInvisibleAnnotations"

/-! ### Of fields and methods -/

/-- The initial value of a static field. -/
def constantValue : Text := "ConstantValue"

/-- The body of a method. -/
def code : Text := "Code"

/-- The exceptions that a method declares. -/
def exceptions : Text := "Exceptions"

/-- Annotations of parameters that are visible at run time or not. -/
def parameterAnnotations (visible : Bool) : Text :=
  if visible then "RuntimeVisibleParameterAnnotations"
  else "RuntimeInvisibleParameterAnnotations"

/-- The default of an element of an annotation type. -/
def annotationDefault : Text := "AnnotationDefault"

/-- The names and flags of parameters. -/
def methodParameters : Text := "MethodParameters"

/-! ### Of code -/

/-- The source lines of instructions. -/
def lineNumbers : Text := "LineNumberTable"

/-- The names of local variables and their descriptors. -/
def localVariables : Text := "LocalVariableTable"

/-- The generic signatures of local variables. -/
def localVariableTypes : Text := "LocalVariableTypeTable"

/-- The frames of a verified body. -/
def stackMap : Text := "StackMapTable"

end AttributeName

end ClassTree
