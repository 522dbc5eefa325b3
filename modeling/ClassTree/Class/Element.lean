/-
# ClassTree.Class.Element — annotations and their values

An annotation is a type with named values; a value may again be an annotation or a list of values,
to any depth.
-/
import ClassTree.Class.Constant

namespace ClassTree

/-- The tag of a scalar annotation value: one of the letters `B C D F I J S Z s c`. -/
inductive ElementTag where
  | byte
  | char
  | double
  | float
  | int
  | long
  | short
  | boolean
  | text
  /-- A class, named by its descriptor. -/
  | type
  /-- A text that is no tag. -/
  | unknown (letters : Text)
  deriving DecidableEq, Repr

namespace ElementTag

/-- The letter of a tag. -/
def letter : ElementTag → Text
  | .byte => "B"
  | .char => "C"
  | .double => "D"
  | .float => "F"
  | .int => "I"
  | .long => "J"
  | .short => "S"
  | .boolean => "Z"
  | .text => "s"
  | .type => "c"
  | .unknown t => t

/-- The ten tags. -/
def all : List ElementTag :=
  [.byte, .char, .double, .float, .int, .long, .short, .boolean, .text, .type]

/-- The tag with a given letter, if there is one. -/
def ofLetter? (t : Text) : Option ElementTag := all.find? fun k => k.letter = t

/-- The tag with a given letter. -/
def ofLetter (t : Text) : ElementTag := (ofLetter? t).getD (.unknown t)

end ElementTag

/-- A value in an annotation. -/
inductive ElementValue where
  | scalar (tag : ElementTag) (value : Constant)
  | enum (descriptor name : Text)
  /-- An annotation: its type, its visibility at run time, and its values by name. -/
  | nested (descriptor : Text) (visible : Bool) (values : List (Text × ElementValue))
  | array (elements : List ElementValue)

/-- An annotation of a class, a field, a method or a parameter. -/
structure AnnotationUse where
  descriptor : Text
  visible : Bool
  values : List (Text × ElementValue)

namespace ElementValue

mutual

/-- Equality with constants compared by value. -/
def same : ElementValue → ElementValue → Bool
  | .scalar t v, .scalar t' v' => t = t' && v.same v'
  | .enum d n, .enum d' n' => d = d' && n = n'
  | .nested d s vs, .nested d' s' vs' => d = d' && s = s' && sameNamed vs vs'
  | .array es, .array es' => sameAll es es'
  | _, _ => false

/-- Equality of lists of named values. -/
def sameNamed : List (Text × ElementValue) → List (Text × ElementValue) → Bool
  | [], [] => true
  | (n, v) :: rest, (n', v') :: rest' => n = n' && same v v' && sameNamed rest rest'
  | _, _ => false

/-- Equality of lists of values. -/
def sameAll : List ElementValue → List ElementValue → Bool
  | [], [] => true
  | v :: rest, v' :: rest' => same v v' && sameAll rest rest'
  | _, _ => false

end

end ElementValue

/-- Equality with constants compared by value. -/
def AnnotationUse.same (a b : AnnotationUse) : Bool :=
  a.descriptor = b.descriptor && a.visible = b.visible && ElementValue.sameNamed a.values b.values

end ClassTree
