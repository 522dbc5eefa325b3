/-
# ClassTree.Encoding.Layout — where the items of a body come to stand

The room that an instruction takes depends on its offset, since the operands of a switch are
aligned, and on whether a jump is far: a target beyond the reach of two bytes needs four. A layout
begins with every jump near. While a near jump does not reach its target it is made far, which moves
everything behind it; far jumps stay far, so this ends.

A far conditional jump takes the room of two instructions: the opposite condition jumps over a far
unconditional jump.
-/
import ClassTree.Encoding.Constant
import Std.Data.HashMap

namespace ClassTree.Encoding

open Encoder

/-! ## Room -/

/-- The room that an item takes. -/
inductive Room where
  /-- A marker takes none. -/
  | marker
  | fixed (size : Nat)
  /-- A jump takes one of two sizes. -/
  | jump (near far : Nat)
  /-- A switch takes a byte, blanks and its operands. -/
  | aligned (operands : Nat)
  deriving DecidableEq, Repr

/-- The bytes taken at an offset. -/
def Room.size (offset : Nat) (isFar : Bool) : Room → Nat
  | .marker => 0
  | .fixed n => n
  | .jump near far => if isFar then far else near
  | .aligned n => 1 + Bytes.padding offset + n

/-- The largest slot, and the largest index, that one byte holds. -/
def maxByte : Nat := 0xFF

/-- An instruction that increments a local fits its short form. -/
def isShortIncrement (slot amount : Int) : Bool :=
  slot ≤ maxByte && -128 ≤ amount && amount ≤ 127

/-- The room of an instruction. For a constant it depends on the index, so the constant is added to
the pool now. -/
def roomOf : Instruction Label → Encoder Room
  | .plain _ => return .fixed 1
  | .immediate op _ => return .fixed (if op = .sipush then 3 else 2)
  | .variable _ slot => return .fixed (if slot ≤ maxByte then 2 else 4)
  | .increment slot amount => return .fixed (if isShortIncrement slot amount then 3 else 6)
  | .constant op value => do
    if op = .ldc then
      let i ← addLoaded op value
      return .fixed (if i ≤ maxByte then 2 else 3)
    else return .fixed 3
  | .jump op _ =>
    return if op.isFar then .fixed 5 else .jump 3 (if op.isConditional then 8 else 5)
  | .tableSwitch _ _ _ targets => return .aligned (12 + 4 * targets.length)
  | .lookupSwitch _ _ targets => return .aligned (8 + 8 * targets.length)
  | .method op _ _ _ _ => return .fixed (if op = .invokeinterface then 5 else 3)
  | .callSite _ _ _ _ => return .fixed 5
  | .multiArray _ _ => return .fixed 4
  | .type _ _ | .field _ _ _ _ => return .fixed 3

/-- The rooms of the items of a body. -/
def roomsOf (body : List Item) : Encoder (List Room) :=
  body.mapM fun item => match item with
    | .instruction i => roomOf i
    | _ => return .marker

/-! ## Places -/

/-- Where the items of a body stand. -/
structure Layout where
  /-- The offset of each item, and that of the end. -/
  offsets : Array Nat
  /-- The offset of each label. -/
  labels : Std.HashMap Label Nat
  /-- Which items are far jumps. -/
  far : Array Bool

namespace Layout

/-- The offsets of items with these rooms, the first one at `offset`, onto the offsets `acc`. -/
def offsetsFrom (offset : Nat) : List (Room × Bool) → Array Nat → Array Nat
  | [], acc => acc.push offset
  | (room, isFar) :: rest, acc =>
    offsetsFrom (offset + room.size offset isFar) rest (acc.push offset)

/-- The offsets of the labels that a body defines. -/
def labelsOf (body : List Item) (offsets : Array Nat) : Std.HashMap Label Nat :=
  body.zipIdx.foldl
    (fun found (item, i) => match item with
      | .label l => found.insert l (offsets.getD i 0)
      | _ => found)
    {}

/-- The layout for a choice of far jumps. -/
def place (body : List Item) (rooms : List Room) (far : List Bool) : Layout :=
  let offsets := offsetsFrom 0 (rooms.zip far) #[]
  { offsets, labels := labelsOf body offsets, far := far.toArray }

/-- The offset of an item. -/
def offset (l : Layout) (index : Nat) : Nat := l.offsets.getD index 0

/-- The item is a far jump. -/
def isFar (l : Layout) (index : Nat) : Bool := l.far.getD index false

/-- The offset of a label. -/
def resolve (l : Layout) (label : Label) : Result Nat :=
  match l.labels[label]? with
  | some offset => .ok offset
  | none => .error (.undefined .index)

/-- A distance that two bytes hold. -/
def isNear (distance : Int) : Bool := -0x8000 ≤ distance && distance ≤ 0x7FFF

/-- The item is a jump of the short form whose target is out of reach. -/
def overreaches (l : Layout) (index : Nat) (item : Item) : Bool :=
  match item with
  | .instruction (.jump op target) =>
    !op.isFar && match l.labels[target]? with
      | some there => !isNear ((there : Int) - l.offset index)
      | none => false
  | _ => false

/-- The far jumps of a layout together with those that have to become far. -/
def grow (body : Array Item) (l : Layout) (far : List Bool) : List Bool :=
  far.zipIdx.map fun (isFar, i) => isFar || match body[i]? with
    | some item => l.overreaches i item
    | none => false

/-- Turning marks on changes nothing or leaves fewer of them off. -/
theorem count_false_map_or (needed : Nat → Bool) (far : List Bool) (start : Nat) :
    ((far.zipIdx start).map fun (b, i) => b || needed i) = far ∨
      ((far.zipIdx start).map fun (b, i) => b || needed i).count false < far.count false := by
  induction far generalizing start with
  | nil => exact .inl rfl
  | cons b far ih =>
    have := ih (start + 1)
    simp only [List.zipIdx_cons, List.map_cons]
    cases b <;> cases hn : needed start <;> simp at this ⊢ <;> grind

/-- Makes jumps far until all near ones reach their targets. -/
def relax (body : List Item) (rooms : List Room) (far : List Bool) : Layout :=
  let layout := place body rooms far
  let grown := layout.grow body.toArray far
  if _done : grown = far then layout else relax body rooms grown
termination_by far.count false
decreasing_by
  exact (count_false_map_or (fun i => match body.toArray[i]? with
    | some item => (place body rooms far).overreaches i item
    | none => false) far 0).resolve_left _done

/-- The layout of a body. -/
def of (body : List Item) : Encoder Layout := do
  let rooms ← roomsOf body
  return relax body rooms (body.map fun _ => false)

/-! ## Behind far jumps -/

/-- The places of the instructions that follow on a far conditional jump, in order: control arrives
there by a jump. `behind` tells whether such a jump came last among the instructions before. -/
def landingsFrom (l : Layout) (index : Nat) (behind : Bool) : List Item → List Nat → List Nat
  | [], acc => acc.reverse
  | item :: rest, acc =>
    match item with
    | .instruction i =>
      let far := l.isFar index && i.opcode.isConditional
      landingsFrom l (index + 1) far rest (if behind then index :: acc else acc)
    | _ => landingsFrom l (index + 1) behind rest acc

/-- The places of the instructions that follow on a far conditional jump, in order. -/
def landings (l : Layout) (body : List Item) : List Nat := l.landingsFrom 0 false body []

end Layout

end ClassTree.Encoding
