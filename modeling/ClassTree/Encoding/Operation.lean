/-
# ClassTree.Encoding.Operation — instructions being written

An instruction is written at its offset with the offsets of its targets. A short form is chosen
where one fits: a slot or an index below 256, a near jump. A number that fits no form is a fault of
that instruction.
-/
import ClassTree.Descriptor
import ClassTree.Encoding.Layout

namespace ClassTree.Encoding

open Encoder

/-- The byte of a code. -/
def codeByte (op : Opcode) : UInt8 := UInt8.ofNat op.code

/-- A constant, by an index in one byte where the code and the index allow it. -/
def loadConstant (op : Opcode) (value : Constant) : Encoder Bytes := do
  let i ← addLoaded op value
  if op = .ldc ∧ i ≤ maxByte then return codeByte op :: (← u1 i)
  else return codeByte (if op = .ldc then .ldc_w else op) :: (← u2 i)

/-- A call. The call of an interface method repeats the slots of its arguments. -/
def call (op : Opcode) (owner : Option Text) (name descriptor : Text) (interface : Bool) :
    Encoder Bytes := do
  let i ← index (Pool.addMethod interface owner name descriptor)
  if op = .invokeinterface then
    let arguments ← Descriptor.arguments descriptor
    let count ← u1 (1 + Descriptor.slots arguments : Nat)
    return codeByte op :: (i ++ count ++ [0])
  else return codeByte op :: i

/-- A call site: its bootstrap method gets an entry in the bootstrap table. -/
def callSite (name descriptor : Text) (bootstrap : Handle) (arguments : List (Text × Constant)) :
    Encoder Bytes := do
  let arguments ← arguments.mapM fun (kind, value) => addConstant kind value
  let handle ← pooled (Pool.addHandle bootstrap)
  let method ← pooled (Pool.addBootstrap handle arguments)
  let i ← index (Pool.addInvokeDynamic method name descriptor)
  return codeByte .invokedynamic :: (i ++ [0, 0])

/-- The unconditional code for a far jump. -/
def farCode (op : Opcode) : Opcode := if op = .goto then .goto_w else .jsr_w

/-- A jump over a distance. -/
def jump (op : Opcode) (isFar : Bool) (distance : Int) : Encoder Bytes := do
  if op.isFar then return codeByte op :: (← s4 distance)
  else if isFar then
    match op.opposite? with
    | some opposite =>
      let skip ← s2 8
      let distance ← s4 (distance - 3)
      return codeByte opposite :: (skip ++ codeByte .goto_w :: distance)
    | none => return codeByte (farCode op) :: (← s4 distance)
  else return codeByte op :: (← s2 distance)

/-- A code and the blanks behind it. -/
def alignedCode (op : Opcode) (offset : Nat) : Bytes :=
  codeByte op :: List.replicate (Bytes.padding offset) 0

/-- An instruction at an offset. -/
def operation (offset : Nat) (isFar : Bool) : Instruction Int → Encoder Bytes
  | .plain op => return [codeByte op]
  | .immediate op n => do
    let operand ← match op with
      | .bipush => s1 n
      | .sipush => s2 n
      | _ => u1 n
    return codeByte op :: operand
  | .variable op slot => do
    if slot ≤ maxByte then return codeByte op :: (← u1 slot)
    else return codeByte .wide :: codeByte op :: (← u2 slot)
  | .increment slot amount => do
    if isShortIncrement slot amount then
      return codeByte .iinc :: ((← u1 slot) ++ (← s1 amount))
    else return codeByte .wide :: codeByte .iinc :: ((← u2 slot) ++ (← s2 amount))
  | .constant op value => loadConstant op value
  | .type op name => do return codeByte op :: (← index (Pool.addClass name))
  | .field op owner name descriptor => do
    return codeByte op :: (← index (Pool.addField owner name descriptor))
  | .method op owner name descriptor interface => call op owner name descriptor interface
  | .callSite name descriptor bootstrap arguments => callSite name descriptor bootstrap arguments
  | .jump op target => jump op isFar (target - offset)
  | .tableSwitch low high otherwise targets => do
    let otherwise ← s4 (otherwise - offset)
    let low ← s4 low
    let high ← s4 high
    let targets ← all (fun t => s4 (t - offset)) targets
    return alignedCode .tableswitch offset ++ otherwise ++ low ++ high ++ targets
  | .lookupSwitch otherwise keys targets => do
    let otherwise ← s4 (otherwise - offset)
    let count ← s4 keys.length
    let pairs ← all (fun (key, t) => do return (← s4 key) ++ (← s4 (t - offset)))
      (keys.zip targets)
    return alignedCode .lookupswitch offset ++ otherwise ++ count ++ pairs
  | .multiArray descriptor dimensions => do
    let i ← index (Pool.addClass descriptor)
    return codeByte .multianewarray :: (i ++ (← u1 dimensions))

/-- A number that does not fit is a fault of the code that it belongs to. -/
def naming (op : Opcode) (place : Text) (position : Nat) (e : Encoder Bytes) : Encoder Bytes :=
  fun p => match e p with
    | .error (.undefined .field) =>
      .error (.unverified (.notEncodable op) (some place) (some position))
    | result => result

/-- The item at a position of a body in its layout. -/
def item (l : Layout) (place : Text) (position : Nat) : Item → Encoder Bytes
  | .instruction i => do
    let placed ← i.mapTargets (fun label => return (← l.resolve label : Nat) : Label → Encoder Int)
    naming i.opcode place position
      (operation (l.offset position) (l.isFar position) placed)
  | _ => return []

/-- The instructions of a body in its layout. -/
def operations (l : Layout) (place : Text) (body : List Item) : Encoder Bytes :=
  all (fun (i, position) => item l place position i) body.zipIdx

end ClassTree.Encoding
