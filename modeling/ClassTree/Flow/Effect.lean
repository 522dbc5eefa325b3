/-
# ClassTree.Flow.Effect — what an instruction does to a state

Most codes take a fixed number of slots off the stack and push fixed types; accesses to locals,
copies on the stack and codes with operands have rules of their own. A body may pair a code with
operands of another shape: the code decides first, then the access to a local, then the shape.
-/
import ClassTree.Flow.Program

namespace ClassTree.Flow

/-! ## Fixed effects -/

/-- The slots popped and the types pushed by a code whose effect does not depend on anything. -/
def fixedEffect? : Opcode → Option (Nat × List VerificationType)
  | .nop | .return_ => some (0, [])
  | .aconst_null => some (0, [.null])
  | .iconst_m1 | .iconst_0 | .iconst_1 | .iconst_2 | .iconst_3 | .iconst_4 | .iconst_5 =>
    some (0, [.integer])
  | .lconst_0 | .lconst_1 => some (0, [.long])
  | .fconst_0 | .fconst_1 | .fconst_2 => some (0, [.float])
  | .dconst_0 | .dconst_1 => some (0, [.double])
  | .iaload | .baload | .caload | .saload => some (2, [.integer])
  | .laload => some (2, [.long])
  | .faload => some (2, [.float])
  | .daload => some (2, [.double])
  | .iastore | .fastore | .aastore | .bastore | .castore | .sastore => some (3, [])
  | .lastore | .dastore => some (4, [])
  | .pop | .ireturn | .freturn | .areturn | .athrow | .monitorenter | .monitorexit => some (1, [])
  | .pop2 | .lreturn | .dreturn => some (2, [])
  | .ineg | .i2b | .i2c | .i2s | .f2i | .arraylength => some (1, [.integer])
  | .lneg | .d2l => some (2, [.long])
  | .fneg | .i2f => some (1, [.float])
  | .dneg | .l2d => some (2, [.double])
  | .ishl | .ishr | .iushr | .iadd | .isub | .imul | .idiv | .irem | .iand | .ior | .ixor
  | .l2i | .d2i | .fcmpl | .fcmpg => some (2, [.integer])
  | .lshl | .lshr | .lushr => some (3, [.long])
  | .i2l | .f2l => some (1, [.long])
  | .i2d | .f2d => some (1, [.double])
  | .l2f | .d2f | .fadd | .fsub | .fmul | .fdiv | .frem => some (2, [.float])
  | .ladd | .lsub | .lmul | .ldiv | .lrem | .land | .lor | .lxor => some (4, [.long])
  | .dadd | .dsub | .dmul | .ddiv | .drem => some (4, [.double])
  | .lcmp | .dcmpl | .dcmpg => some (4, [.integer])
  | _ => none

/-! ## Locals -/

/-- The code and the slot that a short form such as `iload_2` stands for. -/
def shortForm? (op : Opcode) : Option (Opcode × Nat) :=
  let within (first last base : Opcode) : Option (Opcode × Nat) :=
    if first.code ≤ op.code ∧ op.code ≤ last.code then
      (Opcode.ofCode? (base.code + (op.code - first.code) / 4)).map fun long =>
        (long, (op.code - first.code) % 4)
    else none
  (within .iload_0 .aload_3 .iload).or (within .istore_0 .astore_3 .istore)

/-- The code and the slot of an access to a local. -/
def access? : Instruction Label → Option (Opcode × Int)
  | .variable op slot => some (op, slot)
  | .increment slot _ => some (.iinc, slot)
  | .plain op => (shortForm? op).map fun (long, slot) => (long, (slot : Int))
  | _ => none

/-- An access to a local. What a top holds can be loaded as a reference only, as some object. -/
def access (op : Opcode) (slot : Int) (s : State) : Result State :=
  let store (size : Nat) : Result State := do
    let (values, s) ← s.pop size
    match values.getLast? with
    | some v => s.store slot v
    | none => throw (.undefined .index)
  match op with
  | .iload => .ok (s.push (some .integer))
  | .lload => .ok (s.push (some .long))
  | .fload => .ok (s.push (some .float))
  | .dload => .ok (s.push (some .double))
  | .aload => do
    let v ← s.read slot
    return s.push (some (if v = .top then instanceOf objectName else v))
  | .istore | .fstore | .astore => store 1
  | .lstore | .dstore => store 2
  | .iinc => s.store slot .integer
  | _ => .ok s

/-! ## The stack -/

/-- How deep a copying code reaches, and how many slots it copies from the top to below them. -/
def copy? : Opcode → Option (Nat × Nat)
  | .dup => some (1, 1)
  | .dup_x1 => some (2, 1)
  | .dup_x2 => some (3, 1)
  | .dup2 => some (2, 2)
  | .dup2_x1 => some (3, 2)
  | .dup2_x2 => some (4, 2)
  | _ => none

/-- Copies slots from the top to below a depth. -/
def copy (depth count : Nat) (s : State) : Result State := do
  let (values, s) ← s.pop depth
  return { s with stack := values ++ values.take count ++ s.stack }

/-- Exchanges the two slots on top. -/
def swap (s : State) : Result State := do
  let (values, s) ← s.pop 2
  return { s with stack := values.reverse ++ s.stack }

/-- Takes slots off the stack and pushes a value. -/
def replaceTop (s : State) (count : Nat) (v : VerificationType) : Result State := do
  return (← s.drop count).push (some v)

/-- The element of the array below the top. -/
def loadElement (s : State) : Result State := do
  let (values, s) ← s.pop 2
  match values.getLast? with
  | some (.object (some (c :: rest))) =>
    if c = Descriptor.bracket then return s.push (← typeOf rest)
    else return s.push (some (instanceOf objectName))
  | some (.object none) => throw (.undefined .kind)
  | some .null => return s.push (some .null)
  | _ => return s.push (some (instanceOf objectName))

/-! ## Codes with operands -/

/-- The array types by the number in a `newarray` instruction. -/
def arrayTypes : List (Int × Text) :=
  [(4, "[Z"), (5, "[C"), (6, "[F"), (7, "[D"), (8, "[B"), (9, "[S"), (10, "[I"), (11, "[J")]

/-- The type of a new array of numbers; an unknown number counts as that of integers. -/
def arrayType (code : Int) : Text := (arrayTypes.lookup code).getD "[I"

/-- The type of a constant that is loaded. -/
def constantType (op : Opcode) (value : Constant) : VerificationType :=
  if op = .ldc2_w then
    match value with
    | .float _ => .double
    | _ => .long
  else match value with
    | .bool _ | .int _ => .integer
    | .float _ => .float
    | .text _ => instanceOf "java/lang/String"
    | .reference _ => instanceOf "java/lang/Class"
    | .methodType _ => instanceOf "java/lang/invoke/MethodType"
    | .handle _ => instanceOf "java/lang/invoke/MethodHandle"
    | _ => instanceOf objectName

/-- The slots that a jump takes off the stack. -/
def jumpSlots (op : Opcode) : Nat :=
  if op = .goto ∨ op = .goto_w then 0
  else if op = .ifnull ∨ op = .ifnonnull ∨ op.code ≤ Opcode.ifle.code then 1
  else 2

/-- A jump. A call of a subroutine pushes its return address, which has no type. -/
def jump (op : Opcode) (s : State) : Result State :=
  if op.isSubroutineCall then .ok (s.push (some .top)) else s.drop (jumpSlots op)

/-- An access to a field. -/
def accessField (op : Opcode) (descriptor : Text) (s : State) : Result State :=
  let size := Descriptor.slotSize descriptor
  match op with
  | .getstatic => do return s.push (← typeOf descriptor)
  | .putstatic => s.drop size
  | .getfield => do
    let s ← s.drop 1
    return s.push (← typeOf descriptor)
  | _ => s.drop (size + 1)

variable (p : Program)

/-- The call of a constructor turns the object everywhere from uninitialized into initialized. -/
def construct (receiver : VerificationType) (s : State) : State :=
  match receiver with
  | .uninitializedThis => s.replaceAll receiver (instanceOf p.owner)
  | .uninitialized (.position i) => s.replaceAll receiver (.object (p.createdAt i))
  | _ => s

/-- The receiver of a call, which a static call does not have. -/
def takeReceiver (op : Opcode) (name : Text) (s : State) : Result State := do
  if op = .invokestatic then return s
  let (values, s) ← s.pop 1
  match values with
  | receiver :: _ =>
    return if op = .invokespecial ∧ name = Program.constructorName then construct p receiver s
      else s
  | [] => return s

/-- A call: arguments and receiver are taken off the stack, the result is pushed. -/
def call (op : Opcode) (name descriptor : Text) (s : State) : Result State := do
  let (arguments, result) ← Descriptor.split descriptor
  let s ← s.drop (Descriptor.slots arguments)
  let s ← takeReceiver p op name s
  return s.push (← typeOf result)

/-- An instruction about a type; `index` is its number. -/
def aboutType (op : Opcode) (name : Option Text) (index : Nat) (s : State) : Result State :=
  match op with
  | .new => .ok (s.push (some (.uninitialized (.position index))))
  | .anewarray => do
    let s ← s.drop 1
    match name with
    | none => throw (.undefined .kind)
    | some n =>
      let element := if n.head? = some Descriptor.bracket then n else Text.concat ["L", n, ";"]
      return s.push (some (instanceOf (Descriptor.bracket :: element)))
  | .checkcast => replaceTop s 1 (.object name)
  | _ => replaceTop s 1 .integer

/-- A new array of several dimensions, whose sizes are on the stack. A negative number of dimensions
leaves so many slots at the bottom. -/
def newArrays (descriptor : Option Text) (dimensions : Int) (s : State) : Result State := do
  let count := if 0 ≤ dimensions then dimensions.toNat else s.stack.length - dimensions.natAbs
  replaceTop s count (.object descriptor)

/-- An instruction whose operands decide; `index` is its number. -/
def shapeEffect (index : Nat) (i : Instruction Label) (s : State) : Result State :=
  match i with
  | .immediate .newarray code => replaceTop s 1 (instanceOf (arrayType code))
  | .immediate _ _ => .ok (s.push (some .integer))
  | .constant op value => .ok (s.push (some (constantType op value)))
  | .jump op _ => jump op s
  | .tableSwitch _ _ _ _ | .lookupSwitch _ _ _ => s.drop 1
  | .field op _ _ descriptor => accessField op descriptor s
  | .method op _ name descriptor _ => call p op name descriptor s
  | .callSite name descriptor _ _ => call p .invokestatic name descriptor s
  | .type op name => aboutType op name index s
  | .multiArray descriptor dimensions => newArrays descriptor dimensions s
  | .plain op => .error (.unverified (.notInterpretable op) none none)
  | .variable _ _ | .increment _ _ => .ok s

/-- The state after the instruction of a number. -/
def effect (index : Nat) (i : Instruction Label) (s : State) : Result State :=
  match fixedEffect? i.opcode with
  | some (count, pushed) => do
    let s ← s.drop count
    return pushed.foldl (fun s v => s.push (some v)) s
  | none =>
    match access? i with
    | some (op, slot) => access op slot s
    | none =>
      if i.opcode = .aaload then loadElement s
      else if i.opcode = .swap then swap s
      else match copy? i.opcode with
        | some (depth, count) => copy depth count s
        | none => shapeEffect p index i s

end ClassTree.Flow
