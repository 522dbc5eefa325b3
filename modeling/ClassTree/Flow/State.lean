/-
# ClassTree.Flow.State — what is known before an instruction

A state holds the types of the locals and of the operand stack, slot by slot. A long or a double
takes two slots, of which the second is a top. Where two paths join, their states are merged: equal
types stay, references meet in the root of all classes, and all else becomes top in a local and is
refused on the stack.

Merging only ever moves a state downward; `Flow.Weight` says in what sense.
-/
import ClassTree.Error

namespace ClassTree.Flow

/-- The types of the locals in order, and of the stack from the top. -/
structure State where
  locals : List VerificationType
  stack : List VerificationType
  deriving DecidableEq, Repr

/-- An instance of a named class. -/
def instanceOf (name : Text) : VerificationType := .object (some name)

/-- The type of the values of a field descriptor; void and unknown letters have none. -/
def typeOf (descriptor : Text) : Result (Option VerificationType) :=
  match descriptor with
  | [] => .error (.undefined .descriptorEnd)
  | c :: rest =>
    let letter := [c]
    if letter = "Z" ∨ letter = "B" ∨ letter = "C" ∨ letter = "S" ∨ letter = "I" then
      .ok (some .integer)
    else if letter = "F" then .ok (some .float)
    else if letter = "J" then .ok (some .long)
    else if letter = "D" then .ok (some .double)
    else if letter = "L" then .ok (some (instanceOf rest.dropLast))
    else if letter = "[" then .ok (some (instanceOf (c :: rest)))
    else .ok none

/-! ## Slots -/

/-- The slots of a value, the first one first. -/
def slotsOf (v : VerificationType) : List VerificationType :=
  if v.isWide then [v, .top] else [v]

/-- The place in a list of a given length of an index that counts from the end when negative. -/
def place? (length : Nat) (i : Int) : Option Nat :=
  let j := if i < 0 then i + length else i
  if 0 ≤ j ∧ j < length then some j.toNat else none

namespace State

/-- A value on top of the stack; what has no type pushes nothing. -/
def push (s : State) : Option VerificationType → State
  | some v => { s with stack := (slotsOf v).reverse ++ s.stack }
  | none => s

/-- Takes slots off the stack, the top one first. -/
def pop (s : State) (count : Nat) : Result (List VerificationType × State) :=
  if count ≤ s.stack.length then
    .ok (s.stack.take count, { s with stack := s.stack.drop count })
  else .error (.unverified (.underflow count s.stack.length) none none)

/-- Takes slots off the stack and forgets them. -/
def drop (s : State) (count : Nat) : Result State := do return (← s.pop count).2

/-- The type of a local; one beyond the last is top. -/
def read (s : State) (slot : Int) : Result VerificationType :=
  if s.locals.length ≤ slot then .ok .top
  else match (place? s.locals.length slot).bind fun i => s.locals[i]? with
    | some v => .ok v
    | none => .error (.undefined .index)

/-- Exchanges the type of a slot. -/
def put (locals : List VerificationType) (slot : Int) (v : VerificationType) :
    Result (List VerificationType) :=
  match place? locals.length slot with
  | some i => .ok (locals.set i v)
  | none => .error (.undefined .index)

/-- The local at a slot is the first half of a wide value. -/
def isWideAt (locals : List VerificationType) (slot : Int) : Result Bool :=
  match (place? locals.length slot).bind fun i => locals[i]? with
  | some v => .ok v.isWide
  | none => .error (.undefined .index)

/-- Stores a value in a local. Wide values that lose a half to it become top. -/
def store (s : State) (slot : Int) (v : VerificationType) : Result State := do
  let size : Int := (slotsOf v).length
  let after := slot + size
  let locals := s.locals ++ List.replicate (after - s.locals.length).toNat .top
  let locals ←
    if 0 < slot then do
      if ← isWideAt locals (slot - 1) then put locals (slot - 1) .top else pure locals
    else pure locals
  let locals ←
    if after < locals.length then do
      if ← isWideAt locals (after - 1) then put locals after .top else pure locals
    else pure locals
  let locals ← put locals slot v
  if size = 2 then return { s with locals := ← put locals (slot + 1) .top }
  else return { s with locals }

/-- Exchanges a type everywhere. -/
def replaceAll (s : State) (old new : VerificationType) : State :=
  let exchange (v : VerificationType) := if v = old then new else v
  ⟨s.locals.map exchange, s.stack.map exchange⟩

end State

/-! ## Merging -/

/-- An object or null. -/
def isReference : VerificationType → Bool
  | .object _ | .null => true
  | _ => false

/-- The type that stands for two, if there is one. -/
def mergeType? (a b : VerificationType) : Option VerificationType :=
  if a = b then some a
  else if isReference a && isReference b then
    if a = .null then some b
    else if b = .null then some a
    else some (instanceOf objectName)
  else none

/-- The type of a local that may hold either of two. -/
def mergeLocal (a b : VerificationType) : VerificationType := (mergeType? a b).getD .top

/-- The types of two stacks of equal height, from the top. The fault nearest to the bottom counts.
-/
def mergeStacks (a b : List VerificationType) :
    Except (VerificationType × VerificationType) (List VerificationType) :=
  (a.zip b).reverse.foldlM
    (fun acc (x, y) => match mergeType? x y with
      | some v => .ok (v :: acc)
      | none => .error (x, y))
    []

/-- The state that stands for a known one and an incoming one. -/
def State.merge (known incoming : State) : Result State :=
  if known.stack.length = incoming.stack.length then
    match mergeStacks known.stack incoming.stack with
    | .ok stack => .ok ⟨known.locals.zipWith mergeLocal incoming.locals, stack⟩
    | .error (x, y) => .error (.unverified (.stackTypes x y) none none)
  else
    .error (.unverified (.stackHeights known.stack.length incoming.stack.length) none none)

end ClassTree.Flow
