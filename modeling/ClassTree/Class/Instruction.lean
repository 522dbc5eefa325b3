/-
# ClassTree.Class.Instruction — the items of a method body

A method body is a list of items: instructions, and between them markers that stand before an
instruction without being one — labels, source lines and stack map frames. The shape of an
instruction is its constructor; the code inside is kept apart, since a body may pair the two
wrongly and such a body can still be held, compared and refused later.

What a jump leads to is a parameter of the type: a label in a body, a code offset in a class file.
-/
import ClassTree.Class.Frame
import ClassTree.Opcode.Basic

namespace ClassTree

/-- An instruction whose jumps lead to places of type `τ`. -/
inductive Instruction (τ : Type) where
  | plain (op : Opcode)
  | immediate (op : Opcode) (operand : Int)
  | variable (op : Opcode) (slot : Int)
  | increment (slot amount : Int)
  /-- Under `ldc2_w` an integer stands for a long and a floating point number for a double. -/
  | constant (op : Opcode) (value : Constant)
  | type (op : Opcode) (name : Option Text)
  | field (op : Opcode) (owner : Option Text) (name descriptor : Text)
  | method (op : Opcode) (owner : Option Text) (name descriptor : Text) (interface : Bool)
  /-- Each argument of the bootstrap method carries the name of its literal kind. -/
  | callSite (name descriptor : Text) (bootstrap : Handle) (arguments : List (Text × Constant))
  | jump (op : Opcode) (target : τ)
  | tableSwitch (low high : Int) (otherwise : τ) (targets : List τ)
  | lookupSwitch (otherwise : τ) (keys : List Int) (targets : List τ)
  | multiArray (descriptor : Option Text) (dimensions : Int)
  deriving DecidableEq, Repr

namespace Instruction

variable {τ σ : Type}

/-- The code of an instruction. -/
def opcode : Instruction τ → Opcode
  | .plain op | .immediate op _ | .variable op _ | .constant op _ | .type op _
  | .field op _ _ _ | .method op _ _ _ _ | .jump op _ => op
  | .increment _ _ => .iinc
  | .callSite _ _ _ _ => .invokedynamic
  | .tableSwitch _ _ _ _ => .tableswitch
  | .lookupSwitch _ _ _ => .lookupswitch
  | .multiArray _ _ => .multianewarray

/-- The places that control may be transferred to, the default of a switch first. -/
def targets : Instruction τ → List τ
  | .jump _ t => [t]
  | .tableSwitch _ _ d ts => d :: ts
  | .lookupSwitch d _ ts => d :: ts
  | _ => []

/-- Exchanges the places that jumps lead to, in the order of `targets`. -/
def mapTargets {m : Type → Type} [Monad m] (f : τ → m σ) : Instruction τ → m (Instruction σ)
  | .plain op => pure (.plain op)
  | .immediate op n => pure (.immediate op n)
  | .variable op n => pure (.variable op n)
  | .increment n k => pure (.increment n k)
  | .constant op v => pure (.constant op v)
  | .type op n => pure (.type op n)
  | .field op o n d => pure (.field op o n d)
  | .method op o n d i => pure (.method op o n d i)
  | .callSite n d h args => pure (.callSite n d h args)
  | .jump op t => do return .jump op (← f t)
  | .tableSwitch low high d ts => do
    let d ← f d
    let ts ← ts.mapM f
    return .tableSwitch low high d ts
  | .lookupSwitch d keys ts => do
    let d ← f d
    let ts ← ts.mapM f
    return .lookupSwitch d keys ts
  | .multiArray d n => pure (.multiArray d n)

/-- Arguments of a call site with equal kinds and the same values. -/
def sameArguments (a b : List (Text × Constant)) : Bool :=
  a.length = b.length && (a.zip b).all fun (x, y) => x.1 = y.1 && x.2.same y.2

/-- Equality with constants compared by value. -/
def same [DecidableEq τ] : Instruction τ → Instruction τ → Bool
  | .constant op v, .constant op' v' => op = op' && v.same v'
  | .callSite n d h args, .callSite n' d' h' args' =>
    n = n' && d = d' && h = h' && sameArguments args args'
  | a, b => a = b

end Instruction

/-- An item of a method body. -/
inductive Item where
  | instruction (i : Instruction Label)
  /-- Defines a label here. -/
  | label (l : Label)
  /-- The source line of what follows. -/
  | line (number : Int)
  /-- The stack map frame of what follows. -/
  | frame (f : Frame)
  deriving DecidableEq, Repr

namespace Item

/-- The item is a marker, not an instruction. -/
def isMarker : Item → Bool
  | .instruction _ => false
  | _ => true

/-- The instruction of an item. -/
def instruction? : Item → Option (Instruction Label)
  | .instruction i => some i
  | _ => none

/-- The frame of an item. -/
def frame? : Item → Option Frame
  | .frame f => some f
  | _ => none

/-- The label that an item defines. -/
def label? : Item → Option Label
  | .label l => some l
  | _ => none

/-- Equality with constants compared by value. -/
def same : Item → Item → Bool
  | .instruction i, .instruction i' => i.same i'
  | a, b => a = b

end Item

end ClassTree
