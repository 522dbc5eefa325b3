/-
# ClassTree.Encoding.ClassFile — classes as class files

The class is written first, onto a pool that the layout of the class seeds, and then the pool is put
in front of it. The bootstrap table is the last attribute, since the members fill it. Bytes that
were read from a class file are written again as they were: the seed finds every index where it was,
and the layout every attribute.
-/
import ClassTree.Decoding.ClassFile
import ClassTree.Encoding.Member
import ClassTree.Pool.Encoding

namespace ClassTree.Encoding

open Encoder

/-- A class that may be missing or have an empty name, which both give index zero. -/
def classIndex (name : Option Text) : Encoder Nat :=
  match name with
  | some (c :: rest) => pooled (Pool.addClass (some (c :: rest)))
  | _ => return 0

/-- A name that may be missing or empty, which both give index zero. -/
def nameIndex (name : Option Text) : Encoder Nat :=
  match name with
  | some (c :: rest) => pooled (Pool.addUtf8 (c :: rest))
  | _ => return 0

/-- An entry of the table of inner classes. -/
def innerClass (i : InnerClass) : Encoder Bytes := do
  let inner ← pooled (Pool.addClass i.inner)
  let outer ← classIndex i.outer
  let name ← nameIndex i.name
  return (← u2 inner) ++ (← u2 outer) ++ (← u2 name) ++ (← u2 i.access)

/-- The method around a local class. -/
def enclosingMethod (e : EnclosingMethod) : Encoder Bytes := do
  let member ← match e.name with
    | some n => pooled (Pool.addNameAndType n e.descriptor)
    | none => pure 0
  let owner ← pooled (Pool.addClass e.owner)
  return (← u2 owner) ++ (← u2 member)

/-- A bootstrap method. -/
def bootstrapMethod (b : Bootstrap) : Encoder Bytes := do
  let handle ← u2 b.handle
  return handle ++ (← listOf (fun (i : Nat) => u2 i) b.arguments)

/-- The bootstrap table of the pool. -/
def bootstrapTable : Encoder Bytes := do listOf bootstrapMethod (← get).bootstrap.toList

/-- The attributes of a class; `bootstrap` tells whether there is a bootstrap table. -/
def classPieces (c : Class) (bootstrap : Bool) : List Piece :=
  pieceOf? AttributeName.sourceFile (fun t => index (Pool.addUtf8 t)) c.sourceFile
    ++ pieceIf (!c.innerClasses.isEmpty) AttributeName.innerClasses
      (listOf innerClass c.innerClasses)
    ++ pieceOf? AttributeName.enclosingMethod enclosingMethod c.enclosing
    ++ signaturePiece c.signature ++ annotationPieces c.annotations ++ rawPieces c.attributes
    ++ pieceIf bootstrap AttributeName.bootstrapMethods bootstrapTable

/-- Everything behind the constant pool. -/
def body (verify : Bool) (c : Class) : Encoder Bytes := do
  let access ← u2 c.access
  let name ← index (Pool.addClass (some c.name))
  let super ← u2 (← classIndex c.super)
  let interfaces ← listOf (fun i => index (Pool.addClass i)) c.interfaces
  let fields ← listOf field c.fields
  let methods ← listOf (method c.name verify (stackMapMajor ≤ c.major)) c.methods
  let bootstrap :=
    !(← get).bootstrap.isEmpty || c.layout.attributeOrder.contains AttributeName.bootstrapMethods
  let attributes ← attributes (classPieces c bootstrap) c.layout.attributeOrder
  return access ++ name ++ super ++ interfaces ++ fields ++ methods ++ attributes

/-- The most indices that a pool can have. -/
def maxPoolSize : Nat := 0xFFFF

/-- A whole class file. -/
def classFile (verify : Bool) (c : Class) : Encoder Bytes := do
  let body ← body verify c
  let pool ← get
  if pool.size > maxPoolSize then
    throw (.unverified (.poolSize c.name pool.size) none none)
  let magic ← u4 Decoding.magic
  let minor ← u2 c.minor
  let major ← u2 c.major
  return magic ++ minor ++ major ++ (← pool.encode) ++ body

end ClassTree.Encoding

namespace ClassTree.Class

/-- The class file of a class. A verified class gets sizes and frames that follow from its code
where it has none, and is refused where its code cannot be followed. -/
def toBytes (c : Class) (verify : Bool) : Result Bytes :=
  match (Encoding.classFile verify c).run (Pool.seeded c.layout.pool c.layout.bootstrap) with
  | .ok (bytes, _) => .ok bytes
  | .error e => .error e

end ClassTree.Class
