/-
# ClassTree.Flow.Frames — stack map frames from states

A stack map needs a frame wherever control can arrive other than from the instruction before: at the
targets of jumps and switches, at handlers, and behind instructions that never fall through. A frame
lists values instead of slots and says only what changed since the frame before it; the first one is
compared with the locals at the entry of the method.
-/
import ClassTree.Flow.Solver
import Std.Data.HashSet

namespace ClassTree.Flow

/-! ## Values of slots -/

/-- The values in slots, onto the reversed values `acc`: the second half of a wide value is none. -/
def valuesOnto : List VerificationType → List VerificationType → List VerificationType
  | [], acc => acc.reverse
  | [v], acc => (v :: acc).reverse
  | v :: w :: rest, acc =>
    if v.isWide then valuesOnto rest (v :: acc) else valuesOnto (w :: rest) (v :: acc)

/-- The values in slots. -/
def values (slots : List VerificationType) : List VerificationType := valuesOnto slots []

/-- A list without the tops at its end. -/
def trim (vs : List VerificationType) : List VerificationType :=
  (vs.reverse.dropWhile (· = .top)).reverse

/-- The values of locals as a frame lists them. -/
def localValues (slots : List VerificationType) : List VerificationType := trim (values slots)

/-- The values of a stack, which is given from the top, as a frame lists them. -/
def stackValues (stack : List VerificationType) : List VerificationType := values stack.reverse

/-! ## Frames -/

/-- The shortest frame for some locals and a stack after a frame with the locals `previous`. -/
def compress (previous locals stack : List VerificationType) : Frame :=
  let full : Frame := ⟨.full, locals, stack, 0⟩
  if locals = previous then
    match stack with
    | [] => ⟨.same, [], [], 0⟩
    | [v] => ⟨.sameLocals1, [], [v], 0⟩
    | _ => full
  else if stack.isEmpty then
    let before := previous.length
    let here := locals.length
    if before < here ∧ here ≤ before + 3 ∧ locals.take before = previous then
      ⟨.append, locals.drop before, [], 0⟩
    else if here < before ∧ before ≤ here + 3 ∧ previous.take here = locals then
      ⟨.chop, [], [], (before - here : Nat)⟩
    else full
  else full

namespace Program

variable (p : Program)

/-- The instructions that need a frame because of one instruction. -/
def pointsAfter (index : Nat) (i : Instruction Label) : Result (List Nat) := do
  let targets ← i.targets.mapM p.resolve
  return if i.opcode.isTerminal ∧ index + 1 < p.size then targets ++ [index + 1] else targets

/-- The instructions that need a frame in order; `extra` are places in the body that need one too.
-/
def framePoints (extra : List Int) : Result (List Nat) := do
  let reached ← p.instructions.toList.zipIdx.mapM fun ((_, i), index) => p.pointsAfter index i
  let wanted : Std.HashSet Int := Std.HashSet.ofList extra
  let extras := p.instructions.toList.zipIdx.filterMap fun ((position, _), index) =>
    if wanted.contains position then some index else none
  let points : Std.HashSet Nat :=
    Std.HashSet.ofList (reached.flatten ++ p.regions.map Region.target ++ extras)
  return (List.range (p.size + 1)).filter points.contains

/-- An uninitialized value with the place of its `new` in the body. -/
def placed (v : VerificationType) : VerificationType :=
  match v with
  | .uninitialized (.position index) => .uninitialized (.position ((p.position? index).getD 0))
  | v => v

/-- Frames exist only for code without subroutines all of which can be reached. -/
def checkFrames (s : Solver) : Result Unit :=
  p.instructions.toList.zipIdx.forM fun ((_, i), index) =>
    if i.opcode.isSubroutine then p.refuse index .subroutine
    else match s.states[index]? with
      | some (some _) => .ok ()
      | _ => p.refuse index .unreachable

/-- The frames at some instructions with their places in the body, onto the reversed frames `acc`;
`previous` are the locals of the frame before. -/
def framesAt (s : Solver) : List Nat → List VerificationType → List (Nat × Frame) →
    Result (List (Nat × Frame))
  | [], _, acc => .ok acc.reverse
  | index :: rest, previous, acc => do
    let known ← s.stateAt index
    let locals := (localValues known.locals).map p.placed
    let stack := (stackValues known.stack).map p.placed
    let position := (p.position? index).getD 0
    framesAt s rest locals ((position, compress previous locals stack) :: acc)

/-- The frames of a program with their places in the body. -/
def frames (s : Solver) (extra : List Int) : Result (List (Nat × Frame)) := do
  p.checkFrames s
  let entry ← p.entryLocals
  let points ← p.framePoints extra
  p.framesAt s points (localValues entry) []

end Program

/-! ## Sizes -/

/-- The slots up to the end of the local that an instruction touches. -/
def touched (i : Instruction Label) : Int :=
  match access? i with
  | some (op, slot) =>
    if op = .lload ∨ op = .dload ∨ op = .lstore ∨ op = .dstore then slot + 2 else slot + 1
  | none => 0

/-- The number of locals of a method: room for the arguments and for every local in use. -/
def maxLocals (m : Method) : Result Int := do
  let types ← Descriptor.arguments m.descriptor
  let arguments : Int := Descriptor.slots types + (if m.isStatic then 0 else 1 : Nat)
  return (m.body.filterMap Item.instruction?).foldl (fun size i => max size (touched i)) arguments

/-- The sizes of the stack and of the locals that a method of a class needs. -/
def computeMaxima (owner : Text) (m : Method) : Result Maxima := do
  let p ← Program.ofMethod owner m
  let s ← Solver.run p
  return { stack := s.maxStack, locals := ← maxLocals m }

/-- The sizes and the frames that a method of a class needs. -/
def computeFrames (owner : Text) (m : Method) (extra : List Int) :
    Result (Maxima × List (Nat × Frame)) := do
  let p ← Program.ofMethod owner m
  let s ← Solver.run p
  let locals ← maxLocals m
  return ({ stack := s.maxStack, locals }, ← p.frames s extra)

end ClassTree.Flow
