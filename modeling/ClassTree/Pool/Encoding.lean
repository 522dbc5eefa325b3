/-
# ClassTree.Pool.Encoding — the bytes of a constant pool

The number of indices, and then the entries in order: a tag byte and the operands, each in a field
of its own. An operand that does not fit its field has no bytes, and then the pool has none.
-/
import ClassTree.Error
import ClassTree.Pool.Basic

namespace ClassTree.Pool

namespace Entry

/-- An index in two bytes. -/
def index? (n : Nat) : Option Bytes := Bytes.unsigned? 2 n

/-- Two indices in two bytes each. -/
def indices? (a b : Nat) : Option Bytes := do return (← index? a) ++ (← index? b)

/-- The operands of an irregular entry. A truth value may be packed as a number, and a tag without
a meaning takes two indices. -/
def irregularBody? (tag : Int) (operands : List Constant) : Option Bytes :=
  match tag, operands with
  | 3, [.bool b] => Bytes.signed? 4 b.toNat
  | 4, [.bool b] => Bytes.unsigned? 4 b.toNat
  | 5, [.bool b] => Bytes.signed? 8 b.toNat
  | 6, [.bool b] => Bytes.unsigned? 8 b.toNat
  | tag, .int a :: .int b :: _ =>
    if (Tag.ofCode? tag.toNat).isSome then none
    else do return (← Bytes.unsigned? 2 a) ++ (← Bytes.unsigned? 2 b)
  | _, _ => none

/-- What follows the tag. -/
def body? : Entry → Option Bytes
  | .utf8 t => do
    let data := ModifiedUtf8.encode t
    return (← Bytes.unsigned? 2 data.length) ++ data
  | .integer n => Bytes.signed? 4 n
  | .float x => some (Bytes.ofNat 4 x.bits.toNat)
  | .long n => Bytes.signed? 8 n
  | .double x => some (Bytes.ofNat 8 x.bits.toNat)
  | .type n | .string n | .methodType n | .module_ n | .package n => index? n
  | .fieldref a b | .methodref a b | .interfaceMethodref a b | .nameAndType a b
  | .dynamic a b | .invokeDynamic a b => indices? a b
  | .methodHandle kind target => do return (← Bytes.unsigned? 1 kind) ++ (← index? target)
  | .irregular tag operands => irregularBody? tag operands

/-- The bytes of an entry. -/
def encode? (e : Entry) : Option Bytes := do
  return (← Bytes.unsigned? 1 e.tagCode) ++ (← e.body?)

end Entry

/-- The bytes of the pool, if everything in it has some. -/
def encode? (p : Pool) : Option Bytes := do
  let count ← Bytes.unsigned? 2 p.size
  let entries ← (p.entries.toList.filterMap id).mapM Entry.encode?
  return count ++ entries.flatten

/-- Bytes that have to be there. -/
def known : Option Bytes → Result Bytes
  | some bytes => .ok bytes
  | none => .error (.undefined .field)

/-- The bytes of the pool. -/
def encode (p : Pool) : Result Bytes := known p.encode?

end ClassTree.Pool
