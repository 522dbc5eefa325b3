/-
# ClassTree.Literal.Kind — the kinds of literals

A leaf of a tree names the kind of its bytes, since the bytes alone do not tell an integer from a
float. Numbers and truth values have a fixed width, the other kinds any length.

What a constant is written as follows from where it is used: an annotation value from its tag, the
constant of a field from the descriptor, and a loaded constant from the instruction. The same rules
hold in trees and in class files.
-/
import ClassTree.Class.Element
import ClassTree.Class.Instruction

namespace ClassTree.Literal

/-- A kind of literal. -/
inductive Kind where
  | int
  | long
  | float
  | double
  | bool
  | string
  | reference
  | methodType
  | label
  | bytes
  | null
  deriving DecidableEq, Repr

namespace Kind

/-- The name of a kind. -/
def name : Kind → Text
  | .int => "int"
  | .long => "long"
  | .float => "float"
  | .double => "double"
  | .bool => "bool"
  | .string => "string"
  | .reference => "reference"
  | .methodType => "method-type"
  | .label => "label"
  | .bytes => "bytes"
  | .null => "null"

/-- All kinds. -/
def all : List Kind :=
  [.int, .long, .float, .double, .bool, .string, .reference, .methodType, .label, .bytes, .null]

/-- The kind with a given name. -/
def ofName? (t : Text) : Option Kind := all.find? fun k => k.name = t

/-- The width in bytes of the kinds that have one. -/
def width? : Kind → Option Nat
  | .int | .float => some 4
  | .long | .double => some 8
  | .bool => some 1
  | _ => none

/-- The kind of a constant that is written without naming one. An integer is an int if it fits and
a long otherwise; a handle has no kind. -/
def of? : Constant → Option Kind
  | .null => some .null
  | .bool _ => some .bool
  | .int n => some (if -0x80000000 ≤ n ∧ n < 0x80000000 then .int else .long)
  | .float _ => some .double
  | .text _ => some .string
  | .bytes _ => some .bytes
  | .reference _ => some .reference
  | .methodType _ => some .methodType
  | .label _ => some .label
  | .handle _ => none

end Kind

/-! ## The kind of a constant by its use -/

/-- The kind of a scalar annotation value; a text that is no tag has none. -/
def elementKind? : ElementTag → Option Kind
  | .byte | .char | .int | .short | .boolean => some .int
  | .long => some .long
  | .float => some .float
  | .double => some .double
  | .text | .type => some .string
  | .unknown _ => none

/-- The kind of the constant of a field. The descriptor decides where it tells a wide or fractional
number; otherwise the constant itself does. -/
def fieldKind (descriptor : Text) (value : Constant) : Kind :=
  if descriptor = "J" then .long
  else if descriptor = "F" then .float
  else if descriptor = "D" then .double
  else match value with
    | .text _ => .string
    | _ => .int

/-- The name of the kind of a handle, which is no literal. -/
def handleKind : Text := "handle"

/-- The kind of a constant that an instruction loads. -/
def loadedKind (op : Opcode) (value : Constant) : Text :=
  if op = .ldc2_w then
    match value with
    | .float _ => Kind.double.name
    | _ => Kind.long.name
  else match value with
    | .handle _ => handleKind
    | .bool _ | .int _ => Kind.int.name
    | .float _ => Kind.float.name
    | .reference _ => Kind.reference.name
    | .methodType _ => Kind.methodType.name
    | _ => Kind.string.name

end ClassTree.Literal
