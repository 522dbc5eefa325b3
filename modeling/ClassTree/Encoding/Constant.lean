/-
# ClassTree.Encoding.Constant — constants as entries of the pool

A constant takes an entry of the kind that its use asks for. An integer is asked for where a scalar
is kept as one: a fraction is then cut off and a numeral is read. A floating point number may come
from an integer. Other kinds take what they get; what makes no sense there is found out when the
pool is written.
-/
import ClassTree.Encoding.Encoder
import ClassTree.Literal.Codec
import ClassTree.Literal.Kind
import ClassTree.Text.Digits

namespace ClassTree.Encoding

open Encoder

/-! ## Conversions -/

/-- The numeral in bytes, which is ASCII. -/
def numeralOf? (bytes : Bytes) : Option Int :=
  if bytes.all (· < 0x80) then Text.toInt? (bytes.map fun b => Fin.ofNat _ b.toNat) else none

/-- The integer that a constant stands for where only an integer can be kept. -/
def integerOf (v : Constant) : Result Int :=
  let known : Option Int → Result Int
    | some n => .ok n
    | none => .error (.undefined .kind)
  match v with
  | .int n => .ok n
  | .bool b => .ok b.toNat
  | .float x => known x.truncate?
  | .text t => known (Text.toInt? t)
  | .bytes b => known (numeralOf? b)
  | _ => .error (.undefined .kind)

/-- The double that a number stands for. -/
def doubleOf (v : Constant) : Result Number.Double :=
  match v with
  | .float x => .ok x
  | v =>
    match Literal.integer? v with
    | none => .error (.undefined .field)
    | some n =>
      match Number.Double.ofInt? n with
      | some x => .ok x
      | none => .error (.undefined .floatRange)

/-- The single precision number that a number stands for. -/
def singleOf (v : Constant) : Result Number.Single := do
  match (← doubleOf v).toSingle? with
  | some x => return x
  | none => throw (.undefined .floatRange)

/-! ## Entries -/

/-- Adds an integer. -/
def addInteger (v : Constant) : Encoder Nat := do
  let n ← integerOf v
  pooled (Pool.add (.integer n))

/-- Adds a long. -/
def addLong (v : Constant) : Encoder Nat :=
  pooled (Pool.add (match v with
    | .int n => .long n
    | v => .irregular 5 [v]))

/-- Adds a single precision number. -/
def addFloat (v : Constant) : Encoder Nat := do
  let x ← singleOf v
  pooled (Pool.add (.float x))

/-- Adds a double precision number. -/
def addDouble (v : Constant) : Encoder Nat := do
  let x ← doubleOf v
  pooled (Pool.add (.double x))

/-- Adds a text. -/
def addText (v : Constant) : Encoder Nat :=
  pooled (Pool.add (match v with
    | .text t => .utf8 t
    | v => .irregular 1 [v]))

/-- Adds a string constant. -/
def addString (v : Constant) : Encoder Nat := do
  let i ← addText v
  pooled (Pool.add (.string i))

/-- Adds a constant of a named kind. -/
def addConstant (kind : Text) (v : Constant) : Encoder Nat :=
  if kind = Literal.handleKind then
    match v with
    | .handle h => pooled (Pool.addHandle h)
    | _ => throw (.undefined .kind)
  else
    match Literal.Kind.ofName? kind, v with
    | some .int, v => addInteger v
    | some .float, v => addFloat v
    | some .long, v => addLong v
    | some .double, v => addDouble v
    | some .string, v => addString v
    | some .reference, .reference name => pooled (Pool.addClass (some name))
    | some .methodType, .methodType descriptor => pooled (Pool.addMethodType descriptor)
    | _, _ => throw (.undefined .kind)

/-- Adds a constant that an instruction loads. -/
def addLoaded (op : Opcode) (v : Constant) : Encoder Nat :=
  match v with
  | .null | .bytes _ | .label _ =>
    if op = .ldc2_w then addLong v else throw (.undefined .kind)
  | v => addConstant (Literal.loadedKind op v) v

/-- Adds the constant of a field. The descriptor decides where it can. -/
def addFieldConstant (descriptor : Text) (v : Constant) : Encoder Nat :=
  if descriptor = "Ljava/lang/String;" then addString v
  else addConstant (Literal.fieldKind descriptor v).name v

end ClassTree.Encoding
