/-
# ClassTree.Encoding.Encoder — writing bytes beside a growing pool

What is written refers to constants by their index, so writing adds to the constant pool as it goes.
An encoder of a thing gives its bytes and the pool after it. A number that does not fit its field
has no bytes, and then nothing is written at all.

An entity has its attributes in a fixed order unless a layout names another one: the named ones then
come first, in the order of their names, and the others keep theirs. The content of an attribute is
written when its turn comes, so the order also decides which constants enter the pool first.
-/
import ClassTree.Class.Basic
import ClassTree.Error
import ClassTree.Pool.Basic

namespace ClassTree

/-- A writer that adds to the constant pool. -/
abbrev Encoder := StateT Pool (Except Error)

namespace Encoder

variable {α : Type}

/-- Adds to the pool. -/
def pooled (m : StateM Pool α) : Encoder α := fun p => .ok (m p)

/-- The bytes of a field, if its number fits. -/
def fit (bytes? : Option Bytes) : Encoder Bytes :=
  match bytes? with
  | some bytes => return bytes
  | none => throw (.undefined .field)

/-- An unsigned number in one byte. -/
def u1 (n : Int) : Encoder Bytes := fit (Bytes.unsigned? 1 n)

/-- An unsigned number in two bytes. -/
def u2 (n : Int) : Encoder Bytes := fit (Bytes.unsigned? 2 n)

/-- An unsigned number in four bytes. -/
def u4 (n : Int) : Encoder Bytes := fit (Bytes.unsigned? 4 n)

/-- A signed number in one byte. -/
def s1 (n : Int) : Encoder Bytes := fit (Bytes.signed? 1 n)

/-- A signed number in two bytes. -/
def s2 (n : Int) : Encoder Bytes := fit (Bytes.signed? 2 n)

/-- A signed number in four bytes. -/
def s4 (n : Int) : Encoder Bytes := fit (Bytes.signed? 4 n)

/-- The index of a constant, which is added to the pool. -/
def index (m : StateM Pool Nat) : Encoder Bytes := do u2 (← pooled m)

/-- The index of a constant, or zero for one that is missing. -/
def index? (m : α → StateM Pool Nat) (value : Option α) : Encoder Bytes :=
  match value with
  | some a => index (m a)
  | none => u2 0

/-- Things one after another. -/
def all (each : α → Encoder Bytes) (things : List α) : Encoder Bytes := do
  return (← things.mapM each).flatten

/-- A two-byte count and then so many things. -/
def listOf (each : α → Encoder Bytes) (things : List α) : Encoder Bytes := do
  let count ← u2 things.length
  return count ++ (← all each things)

end Encoder

end ClassTree

namespace ClassTree.Encoding

open Encoder

/-- An attribute that is yet to be written. -/
structure Piece where
  name : Text
  content : Encoder Bytes

namespace Piece

/-- Arranges pieces in the order of names. Each name takes the first piece left that has it. -/
def ordered : List Text → List Piece → List Piece
  | [], pieces => pieces
  | name :: names, pieces =>
    let before := pieces.takeWhile fun p => p.name ≠ name
    match pieces.dropWhile fun p => p.name ≠ name with
    | p :: after => p :: ordered names (before ++ after)
    | [] => ordered names pieces

/-- An attribute: the index of its name, the length of its content, and the content. -/
def encode (p : Piece) : Encoder Bytes := do
  let name ← pooled (Pool.addUtf8 p.name)
  let content ← p.content
  let name ← u2 name
  let length ← u4 content.length
  return name ++ length ++ content

end Piece

/-- The attributes of an entity in the order of a layout. -/
def attributes (pieces : List Piece) (order : List Text) : Encoder Bytes := do
  let count ← u2 pieces.length
  return count ++ (← all Piece.encode (Piece.ordered order pieces))

/-! ## Pieces -/

/-- A piece for what is there. -/
def pieceOf? {α : Type} (name : Text) (content : α → Encoder Bytes) (value : Option α) :
    List Piece :=
  match value with
  | some a => [⟨name, content a⟩]
  | none => []

/-- A piece if there is reason for one. -/
def pieceIf (condition : Bool) (name : Text) (content : Encoder Bytes) : List Piece :=
  if condition then [⟨name, content⟩] else []

/-- The generic signature of an entity. -/
def signaturePiece (signature : Option Text) : List Piece :=
  pieceOf? AttributeName.signature (fun t => index (Pool.addUtf8 t)) signature

/-- Attributes kept as their bytes. -/
def rawPieces (as : List Attribute) : List Piece :=
  as.map fun a => ⟨a.name, return a.data⟩

end ClassTree.Encoding
