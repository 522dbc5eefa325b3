/-
# ClassTree.Flow.Program — the instructions of a method as a program

The analysis looks at the instructions of a body only and counts them from zero; markers stand
between them and have no number. A label leads to the instruction after it, or behind the last one.
Exception handlers become regions of instruction numbers.
-/
import ClassTree.Descriptor
import ClassTree.Flow.State
import Std.Data.HashMap

namespace ClassTree.Flow

/-- The instructions from `start` to `stop` whose exceptions lead to `target`. -/
structure Region where
  start : Nat
  stop : Nat
  target : Nat
  caught : VerificationType
  deriving DecidableEq, Repr

/-- The instructions of a method. -/
structure Program where
  /-- The class of the method. -/
  owner : Text
  method : Method
  /-- Each instruction with its place in the body. -/
  instructions : Array (Nat × Instruction Label)
  /-- Where each label leads to; of two definitions the later one counts. -/
  indexOf : Std.HashMap Label Nat
  regions : List Region

namespace Program

/-- Where a method is, for messages. -/
def placeOf (owner : Text) (m : Method) : Text := Text.concat [owner, ".", m.name, m.descriptor]

/-- Where the method is, for messages. -/
def place (p : Program) : Text := placeOf p.owner p.method

/-! ## Building -/

/-- The instructions of a body with their places. -/
def instructionsOf (body : List Item) : Array (Nat × Instruction Label) :=
  (body.zipIdx.filterMap fun (item, position) =>
    item.instruction?.map fun i => (position, i)).toArray

/-- Where the labels of a body lead to, after `count` instructions. -/
def labelsFrom (count : Nat) (found : Std.HashMap Label Nat) :
    List Item → Std.HashMap Label Nat
  | [] => found
  | .label l :: rest => labelsFrom count (found.insert l count) rest
  | .instruction _ :: rest => labelsFrom (count + 1) found rest
  | _ :: rest => labelsFrom count found rest

/-- The number of the instruction that a label leads to. -/
def lookup (indexOf : Std.HashMap Label Nat) (place : Text) (l : Label) : Result Nat :=
  match indexOf[l]? with
  | some i => .ok i
  | none => .error (.danglingLabel l.name place)

/-- The class of all exceptions. -/
def throwableName : Text := "java/lang/Throwable"

/-- The region of a handler. One without a type catches all exceptions. -/
def regionOf (indexOf : Std.HashMap Label Nat) (place : Text) (h : Handler) : Result Region := do
  let start ← lookup indexOf place h.start
  let stop ← lookup indexOf place h.stop
  let target ← lookup indexOf place h.target
  let type := h.type.getD []
  let caught := instanceOf (if type.isEmpty then throwableName else type)
  return { start, stop, target, caught }

/-- The program of a method of a class. -/
def ofMethod (owner : Text) (m : Method) : Result Program := do
  let indexOf := labelsFrom 0 {} m.body
  let regions ← m.handlers.mapM (regionOf indexOf (placeOf owner m))
  return { owner, method := m, instructions := instructionsOf m.body, indexOf, regions }

variable (p : Program)

/-! ## Looking things up -/

/-- How many instructions there are. -/
def size : Nat := p.instructions.size

/-- The number of the instruction that a label leads to. -/
def resolve (l : Label) : Result Nat := lookup p.indexOf p.place l

/-- The place of an instruction in the body. -/
def position? (index : Nat) : Option Nat := p.instructions[index]?.map Prod.fst

/-- The class that a `new` instruction is about. -/
def createdAt (index : Nat) : Option Text :=
  match p.instructions[index]? with
  | some (_, .type _ name) => name
  | _ => none

/-- A failure at an instruction. -/
def refuse {α : Type} (index : Nat) (cause : Unverified) : Result α :=
  .error (.unverified cause (some p.place) (p.position? index))

/-- Names the instruction of a failure that does not say where it is. -/
def locate {α : Type} (index : Nat) : Result α → Result α
  | .error (.unverified cause none none) => p.refuse index cause
  | result => result

/-- Where control may go after an instruction: the targets of a jump, then the next instruction. -/
def successors (index : Nat) (i : Instruction Label) : Result (List Nat) := do
  let targets ← i.targets.mapM p.resolve
  return if i.opcode.isTerminal then targets else targets ++ [index + 1]

/-! ## Entry -/

/-- The slots of the arguments of a method; every argument needs a type. -/
def argumentSlots (types : List Text) : Result (List VerificationType) := do
  let slots ← types.mapM fun type => do
    match ← typeOf type with
    | some v => return slotsOf v
    | none => throw (.undefined .slotType)
  return slots.flatten

/-- The name of constructors. -/
def constructorName : Text := "<init>"

/-- The slots of the receiver, which a constructor finds uninitialized. -/
def receiverSlots : List VerificationType :=
  if p.method.isStatic then []
  else if p.method.name = constructorName ∧ p.owner ≠ objectName then [.uninitializedThis]
  else [instanceOf p.owner]

/-- The locals when the method begins. -/
def entryLocals : Result (List VerificationType) := do
  let types ← Descriptor.arguments p.method.descriptor
  return p.receiverSlots ++ (← argumentSlots types)

end Program

end ClassTree.Flow
