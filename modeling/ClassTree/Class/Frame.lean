/-
# ClassTree.Class.Frame — verification types and stack map frames

A stack map describes, at chosen places of a method body, the types of the locals and of the
operand stack. Most frames say only how they differ from the one before.
-/
import ClassTree.Class.Constant

namespace ClassTree

/-- The place of the `new` instruction that made an uninitialized object. A stored frame names it
by a label, the analysis by a position. -/
inductive Site where
  | label (l : Label)
  | position (p : Nat)
  deriving DecidableEq, Repr

/-- What may accompany the tag of a verification type. -/
inductive Payload where
  | none
  | name (n : Text)
  | site (s : Site)
  deriving DecidableEq, Repr

/-- A verification type: the type of one local or stack slot. -/
inductive VerificationType where
  | top
  | integer
  | float
  | double
  | long
  | null
  | uninitializedThis
  /-- An instance of a class or an array; the name is missing where a class file leaves it open. -/
  | object (name : Option Text)
  | uninitialized (site : Site)
  /-- A tag together with a payload that does not belong to it. -/
  | irregular (tag : Int) (payload : Payload)
  deriving DecidableEq, Repr

namespace VerificationType

/-- The tag of a type. -/
def tag : VerificationType → Int
  | .top => 0
  | .integer => 1
  | .float => 2
  | .double => 3
  | .long => 4
  | .null => 5
  | .uninitializedThis => 6
  | .object _ => 7
  | .uninitialized _ => 8
  | .irregular t _ => t

/-- The payload of a type. -/
def payload : VerificationType → Payload
  | .object (some n) => .name n
  | .uninitialized s => .site s
  | .irregular _ p => p
  | _ => .none

/-- The type with a given tag and payload. -/
def ofParts : Int → Payload → VerificationType
  | 0, .none => .top
  | 1, .none => .integer
  | 2, .none => .float
  | 3, .none => .double
  | 4, .none => .long
  | 5, .none => .null
  | 6, .none => .uninitializedThis
  | 7, .none => .object none
  | 7, .name n => .object (some n)
  | 8, .site s => .uninitialized s
  | t, p => .irregular t p

/-- The names of the nine tags. -/
def names : List Text :=
  ["Top", "Integer", "Float", "Double", "Long", "Null", "UninitializedThis", "Object",
    "Uninitialized"]

/-- Long and double take two slots. -/
def isWide (v : VerificationType) : Bool := v = .long || v = .double

/-- A type in a message. -/
def display (v : VerificationType) : Text :=
  let value : Text := match v.payload with
    | .none => "None"
    | .name n => Text.quoted n
    | .site (.label l) => (Constant.label l).display
    | .site (.position p) => Text.ofNat p
  Text.concat ["VerificationType(tag=", Text.ofInt v.tag, ", value=", value, ")"]

end VerificationType

/-- How a frame differs from the one before. -/
inductive FrameKind where
  /-- The same locals, an empty stack. -/
  | same
  /-- The same locals, one stack item. -/
  | sameLocals1
  | sameLocals1Extended
  /-- The last one to three locals are gone, the stack is empty. -/
  | chop
  | sameExtended
  /-- One to three more locals, the stack is empty. -/
  | append
  /-- All locals and the whole stack. -/
  | full
  /-- A name that is no kind. -/
  | unknown (name : Text)
  deriving DecidableEq, Repr

namespace FrameKind

/-- The name of a kind. -/
def name : FrameKind → Text
  | .same => "same"
  | .sameLocals1 => "same_locals_1_stack_item"
  | .sameLocals1Extended => "same_locals_1_stack_item_extended"
  | .chop => "chop"
  | .sameExtended => "same_extended"
  | .append => "append"
  | .full => "full"
  | .unknown n => n

/-- The seven kinds. -/
def all : List FrameKind :=
  [.same, .sameLocals1, .sameLocals1Extended, .chop, .sameExtended, .append, .full]

/-- The kind with a given name, if there is one. -/
def ofName? (n : Text) : Option FrameKind := all.find? fun k => k.name = n

/-- The kind with a given name. -/
def ofName (n : Text) : FrameKind := (ofName? n).getD (.unknown n)

end FrameKind

/-- A stack map frame. `locals` holds the appended locals of an append frame and all locals of a
full one; `chop` counts the locals that a chop frame removes. -/
structure Frame where
  kind : FrameKind
  locals : List VerificationType
  stack : List VerificationType
  chop : Int
  deriving DecidableEq, Repr

end ClassTree
