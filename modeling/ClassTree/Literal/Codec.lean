/-
# ClassTree.Literal.Codec — constants as bytes in hexadecimal text

A literal is the bytes of a constant, written in hexadecimal: two's complement for integers, the
bits of floating point numbers, one byte for truth values, UTF-8 with surrogates for text and for
names. Encoding checks that the constant fits the kind; decoding that the bytes do.
-/
import ClassTree.Error
import ClassTree.Literal.Kind
import ClassTree.Text.Utf8

namespace ClassTree.Literal

/-! ## Encoding -/

/-- An integer or truth value as an integer; no other constant passes for one. -/
def integer? : Constant → Option Int
  | .bool b => some b.toNat
  | .int n => some n
  | _ => none

/-- A number as a double, an integer rounded to the nearest one. -/
def number? : Constant → Option Number.Double
  | .float x => some x
  | v => (integer? v).bind Number.Double.ofInt?

/-- Everything counts as true but null, zero and what is empty. -/
def isTrue : Constant → Bool
  | .null => false
  | .bool b => b
  | .int n => n ≠ 0
  | .float x => !x.isZero
  | .text t => !t.isEmpty
  | .bytes b => !b.isEmpty
  | .reference _ | .methodType _ | .label _ | .handle _ => true

/-- The text of a text constant. -/
def plainText? : Constant → Option Text
  | .text t => some t
  | _ => none

/-- The name that a constant of one of the naming kinds carries. A plain text passes for each. -/
def nameFor? : Kind → Constant → Option Text
  | .reference, .reference n => some n
  | .methodType, .methodType d => some d
  | .label, .label l => some l.name
  | _, v => plainText? v

/-- More zeros than this are not made out of a number. -/
def maxZeros : Nat := 0x4000000

/-- The bytes of a constant taken for bytes; a number stands for so many zeros. -/
def rawBytes? : Constant → Option Bytes
  | .bytes b => some b
  | .bool b => some (List.replicate b.toNat 0)
  | .int n => if 0 ≤ n ∧ n ≤ maxZeros then some (List.replicate n.toNat 0) else none
  | _ => none

/-- The bytes of a constant in a kind. A number that does not fit is refused by name. -/
def pack (kind : Kind) (value : Constant) : Result Bytes :=
  let fit (bytes? : Option Bytes) : Result Bytes := match bytes? with
    | some bytes => .ok bytes
    | none => .error (.misformatted (.outOfKind value kind.name) none)
  let known (bytes? : Option Bytes) : Result Bytes := match bytes? with
    | some bytes => .ok bytes
    | none => .error (.undefined .kind)
  match kind with
  | .int => fit ((integer? value).bind (Bytes.signed? 4))
  | .long => fit ((integer? value).bind (Bytes.signed? 8))
  | .float => fit do
    let x ← (← number? value).toSingle?
    return Bytes.ofNat 4 x.bits.toNat
  | .double => fit do
    let x ← number? value
    return Bytes.ofNat 8 x.bits.toNat
  | .bool => .ok [if isTrue value then 1 else 0]
  | .string | .reference | .methodType | .label => known ((nameFor? kind value).map Utf8.encode)
  | .bytes => known (rawBytes? value)
  | .null => .ok []

/-- The hexadecimal text of a constant in a kind. -/
def encodeAs (kind : Kind) (value : Constant) : Result Text := (pack kind value).map Hex.render

/-- A constant in the kind of that name. -/
def encodeNamed (kind : Text) (value : Constant) : Result Text :=
  match Kind.ofName? kind with
  | some k => encodeAs k value
  | none => .error (.misformatted (.unknownKind kind) none)

/-- The name of the kind and the hexadecimal text of a constant, in its own kind unless one is
named. -/
def encode (value : Constant) (kind : Option Text) : Result (Text × Text) :=
  match kind with
  | some name => (encodeNamed name value).map fun text => (name, text)
  | none =>
    match Kind.of? value with
    | some k => (encodeAs k value).map fun text => (k.name, text)
    | none => .error (.misformatted (.noKind "Handle") none)

/-! ## Decoding -/

/-- The bytes of hexadecimal text; a text that was left out has none. -/
def readBytes (source : Option Text) : Result Bytes :=
  let text := source.getD []
  match Hex.read text with
  | .ok bytes => .ok bytes
  | .error group => .error (.misformatted (.hexByte group (Text.trim text)) none)

/-- The constant of bytes in a kind; `source` is the text they were read from. -/
def unpack (kind : Kind) (bytes : Bytes) (source : Option Text) : Result Constant :=
  let refuse (cause : Misformatted) : Result Constant := .error (.misformatted cause none)
  let utf8 (make : Text → Constant) : Result Constant := match Utf8.decodeWide bytes with
    | .ok text => .ok (make text)
    | .error _ => refuse (.utf8 source)
  match kind with
  | .int | .long => .ok (.int bytes.toInt)
  | .float => .ok (.float (Number.Single.toDouble ⟨UInt32.ofNat bytes.toNat⟩))
  | .double => .ok (.float ⟨UInt64.ofNat bytes.toNat⟩)
  | .bool =>
    if bytes = [0] then .ok (.bool false)
    else if bytes = [1] then .ok (.bool true)
    else refuse (.boolean source)
  | .bytes => .ok (.bytes bytes)
  | .null => if bytes.isEmpty then .ok .null else refuse (.nullBytes source)
  | .string => utf8 .text
  | .reference => utf8 .reference
  | .methodType => utf8 .methodType
  | .label => utf8 fun t => .label ⟨t⟩

/-- The constant of hexadecimal text in the kind of that name. -/
def decode (kind : Text) (source : Option Text) : Result Constant :=
  match Kind.ofName? kind with
  | none => .error (.misformatted (.unknownKind kind) none)
  | some k =>
    match readBytes source with
    | .error e => .error e
    | .ok bytes =>
      match k.width? with
      | some width =>
        if bytes.length = width then unpack k bytes source
        else .error (.misformatted (.width kind width bytes.length source) none)
      | none => unpack k bytes source

end ClassTree.Literal
