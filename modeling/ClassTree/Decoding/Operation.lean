/-
# ClassTree.Decoding.Operation — instructions in class files

An instruction is a code byte and its operands. Indices of constants are looked up at once, and the
distances of jumps are turned into code offsets. Offsets are counted from the start of the code, and
so are the blanks that bring the operands of a switch to a multiple of four.
-/
import ClassTree.Decoding.Table

namespace ClassTree.Decoding

open Decoder

/-- The instruction after a widening code; `start` is the place of that code. -/
def readWidened (start : Nat) : Decoder (Instruction Int) := do
  let code ← byte
  match Opcode.ofCode? code.toNat with
  | some .iinc =>
    let slot ← u2
    return .increment slot (← signed 2)
  | some op =>
    if op.family = .variable then return .variable op (← u2)
    else refuse (.notWidenable code) start
  | none => refuse (.notWidenable code) start

/-- A switch over a range of keys. -/
def readTableSwitch (offset start : Nat) : Decoder (Instruction Int) := do
  skip (Bytes.padding offset)
  let otherwise := offset + (← signed 4)
  let low ← signed 4
  let high ← signed 4
  if high < low then refuse .tableBounds start
  let targets ← times (high - low + 1).toNat do return offset + (← signed 4)
  return .tableSwitch low high otherwise targets

/-- A switch over single keys. -/
def readLookupSwitch (offset start : Nat) : Decoder (Instruction Int) := do
  skip (Bytes.padding offset)
  let otherwise := offset + (← signed 4)
  let count ← signed 4
  if count < 0 then refuse .pairCount start
  let pairs ← times count.toNat do
    let key ← signed 4
    return (key, offset + (← signed 4))
  return .lookupSwitch otherwise (pairs.map Prod.fst) (pairs.map Prod.snd)

/-- A call site; `start` is the place of its code. -/
def readCallSite (t : Table) (start : Nat) : Decoder (Instruction Int) := do
  let i ← u2
  match ← t.entry i with
  | .invokeDynamic bootstrap member =>
    skip 2
    let (n, d) ← t.nameAndType member
    match t.bootstrap[bootstrap]? with
    | none => refuse (.missingBootstrap bootstrap) start
    | some method =>
      let name ← t.utf8 n
      let descriptor ← t.utf8 d
      let handle ← t.handle method.handle
      return .callSite name descriptor handle (← method.arguments.mapM t.constant)
  | e => Table.wrongTag [.invokeDynamic] i e

/-- The operands of a code at an offset; `start` is its place in the file. -/
def readOperands (t : Table) (op : Opcode) (offset start : Nat) : Decoder (Instruction Int) := do
  match op.family with
  | .plain => return .plain op
  | .widening => readWidened start
  | .immediate =>
    match op with
    | .bipush => return .immediate op (← signed 1)
    | .sipush => return .immediate op (← signed 2)
    | _ => return .immediate op (← u1)
  | .constant =>
    let i ← if op = .ldc then u1 else u2
    return .constant op (← t.constant i).2
  | .variable => return .variable op (← u1)
  | .increment =>
    let slot ← u1
    return .increment slot (← signed 1)
  | .jump => return .jump op (offset + (← signed (if op.isFar then 4 else 2)))
  | .tableSwitch => readTableSwitch offset start
  | .lookupSwitch => readLookupSwitch offset start
  | .field =>
    let m ← t.member (← u2)
    return .field op m.owner m.name m.descriptor
  | .method =>
    let m ← t.member (← u2)
    if op = .invokeinterface then skip 2
    return .method op m.owner m.name m.descriptor m.interface
  | .callSite => readCallSite t start
  | .type => return .type op (← t.className (← u2))
  | .multiArray =>
    let descriptor ← t.className (← u2)
    return .multiArray descriptor (← u1)

/-- The instruction at an offset. -/
def readInstruction (t : Table) (offset : Nat) : Decoder (Instruction Int) := do
  let start ← position
  let code ← byte
  match Opcode.ofCode? code.toNat with
  | some op => readOperands t op offset start
  | none => refuse (.unknownOpcode code) start

/-- Instructions with their offsets until the offset `length` is reached or passed, onto the
reversed instructions `acc`. Each takes at least a byte, so `length` is fuel enough. -/
def readOperationsOnto (t : Table) (codeStart length : Nat) :
    Nat → List (Nat × Instruction Int) → Decoder (List (Nat × Instruction Int))
  | 0, acc => return acc.reverse
  | fuel + 1, acc => do
    let offset := (← position) - codeStart
    if offset < length then
      let i ← readInstruction t offset
      readOperationsOnto t codeStart length fuel ((offset, i) :: acc)
    else return acc.reverse

/-- Refuses a jump out of the code. -/
def checkTargets (codeStart length : Nat) (code : List (Nat × Instruction Int)) : Decoder Unit :=
  code.forM fun (offset, i) => i.targets.forM fun target => do
    unless 0 ≤ target ∧ target < length do refuse (.targetOutside target) (codeStart + offset)

/-- The instructions of a code of a length, with their offsets. The last one must end with the code,
and every jump must stay in it. -/
def readOperations (t : Table) (length : Nat) : Decoder (List (Nat × Instruction Int)) := do
  let codeStart ← position
  let code ← readOperationsOnto t codeStart length length []
  unless (← position) = codeStart + length do refuseHere .codeOverrun
  checkTargets codeStart length code
  return code

end ClassTree.Decoding
