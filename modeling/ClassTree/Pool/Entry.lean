/-
# ClassTree.Pool.Entry — the entries of a constant pool

An entry is a value or refers to other entries by their index. Entries are what the pool compares
and stores; the rules for finding and adding them are in the neighbouring modules.
-/
import ClassTree.Class.Constant

namespace ClassTree.Pool

/-- The tag of an entry. -/
inductive Tag where
  | utf8
  | integer
  | float
  | long
  | double
  | type
  | string
  | fieldref
  | methodref
  | interfaceMethodref
  | nameAndType
  | methodHandle
  | methodType
  | dynamic
  | invokeDynamic
  | module_
  | package
  deriving DecidableEq, Repr

namespace Tag

/-- The number of a tag. -/
def code : Tag → Nat
  | .utf8 => 1
  | .integer => 3
  | .float => 4
  | .long => 5
  | .double => 6
  | .type => 7
  | .string => 8
  | .fieldref => 9
  | .methodref => 10
  | .interfaceMethodref => 11
  | .nameAndType => 12
  | .methodHandle => 15
  | .methodType => 16
  | .dynamic => 17
  | .invokeDynamic => 18
  | .module_ => 19
  | .package => 20

/-- All tags, in the order of their numbers. -/
def all : List Tag :=
  [.utf8, .integer, .float, .long, .double, .type, .string, .fieldref, .methodref,
    .interfaceMethodref, .nameAndType, .methodHandle, .methodType, .dynamic, .invokeDynamic,
    .module_, .package]

/-- The tag with a given number. -/
def ofCode? (n : Nat) : Option Tag := all.find? fun t => t.code = n

/-- The name of a tag, in capitals. -/
def name : Tag → Text
  | .utf8 => "UTF8"
  | .integer => "INTEGER"
  | .float => "FLOAT"
  | .long => "LONG"
  | .double => "DOUBLE"
  | .type => "CLASS"
  | .string => "STRING"
  | .fieldref => "FIELDREF"
  | .methodref => "METHODREF"
  | .interfaceMethodref => "INTERFACE_METHODREF"
  | .nameAndType => "NAME_AND_TYPE"
  | .methodHandle => "METHOD_HANDLE"
  | .methodType => "METHOD_TYPE"
  | .dynamic => "DYNAMIC"
  | .invokeDynamic => "INVOKE_DYNAMIC"
  | .module_ => "MODULE"
  | .package => "PACKAGE"

end Tag

/-- An entry of a constant pool. References to other entries are indices. -/
inductive Entry where
  | utf8 (value : Text)
  | integer (value : Int)
  | float (value : Number.Single)
  | long (value : Int)
  | double (value : Number.Double)
  | type (name : Nat)
  | string (value : Nat)
  | fieldref (owner member : Nat)
  | methodref (owner member : Nat)
  | interfaceMethodref (owner member : Nat)
  | nameAndType (name descriptor : Nat)
  | methodHandle (kind : Int) (target : Nat)
  | methodType (descriptor : Nat)
  | dynamic (bootstrap member : Nat)
  | invokeDynamic (bootstrap member : Nat)
  | module_ (name : Nat)
  | package (name : Nat)
  /-- A tag with operands of another form than the tag asks for. Such an entry can be held and
  compared, but most have no bytes. -/
  | irregular (tag : Int) (operands : List Constant)
  deriving DecidableEq, Hashable, Repr

namespace Entry

/-- The number of the tag. -/
def tagCode : Entry → Int
  | .utf8 _ => 1
  | .integer _ => 3
  | .float _ => 4
  | .long _ => 5
  | .double _ => 6
  | .type _ => 7
  | .string _ => 8
  | .fieldref _ _ => 9
  | .methodref _ _ => 10
  | .interfaceMethodref _ _ => 11
  | .nameAndType _ _ => 12
  | .methodHandle _ _ => 15
  | .methodType _ => 16
  | .dynamic _ _ => 17
  | .invokeDynamic _ _ => 18
  | .module_ _ => 19
  | .package _ => 20
  | .irregular t _ => t

/-! ## Parts -/

/-- The operands as constants: an index counts as an integer, a floating point number as the
integer of its bits. -/
def operands : Entry → List Constant
  | .utf8 t => [.text t]
  | .integer n | .long n => [.int n]
  | .float x => [.int x.bits.toNat]
  | .double x => [.int x.bits.toNat]
  | .type n | .string n | .methodType n | .module_ n | .package n => [.int n]
  | .fieldref a b | .methodref a b | .interfaceMethodref a b | .nameAndType a b | .dynamic a b
  | .invokeDynamic a b => [.int a, .int b]
  | .methodHandle kind target => [.int kind, .int target]
  | .irregular _ operands => operands

/-- The entry of a tag with these operands; operands that do not have the form of the tag are kept
as they are. -/
def ofParts (tag : Int) (operands : List Constant) : Entry :=
  match tag, operands with
  | 1, [.text t] => .utf8 t
  | 3, [.int n] => .integer n
  | 4, [.int n] =>
    if 0 ≤ n ∧ n < 0x100000000 then .float ⟨UInt32.ofNat n.toNat⟩ else .irregular 4 operands
  | 5, [.int n] => .long n
  | 6, [.int n] =>
    if 0 ≤ n ∧ n < 0x10000000000000000 then .double ⟨UInt64.ofNat n.toNat⟩ else .irregular 6 operands
  | 7, [.int (.ofNat n)] => .type n
  | 8, [.int (.ofNat n)] => .string n
  | 9, [.int (.ofNat a), .int (.ofNat b)] => .fieldref a b
  | 10, [.int (.ofNat a), .int (.ofNat b)] => .methodref a b
  | 11, [.int (.ofNat a), .int (.ofNat b)] => .interfaceMethodref a b
  | 12, [.int (.ofNat a), .int (.ofNat b)] => .nameAndType a b
  | 15, [.int kind, .int (.ofNat target)] => .methodHandle kind target
  | 16, [.int (.ofNat n)] => .methodType n
  | 17, [.int (.ofNat a), .int (.ofNat b)] => .dynamic a b
  | 18, [.int (.ofNat a), .int (.ofNat b)] => .invokeDynamic a b
  | 19, [.int (.ofNat n)] => .module_ n
  | 20, [.int (.ofNat n)] => .package n
  | tag, operands => .irregular tag operands

/-! ## Comparing -/

/-- Longs and doubles take two indices. -/
def isWide (e : Entry) : Bool := e.tagCode = 5 || e.tagCode = 6

/-- The form under which equal entries are found. Numbers count by value, so a number of another
form under an integer tag is found as that integer. -/
def key : Entry → Entry
  | .irregular 3 [v] => match v.toInt? with
    | some n => .integer n
    | none => .irregular 3 [v]
  | .irregular 5 [v] => match v.toInt? with
    | some n => .long n
    | none => .irregular 5 [v]
  | e => e

end Entry

end ClassTree.Pool
