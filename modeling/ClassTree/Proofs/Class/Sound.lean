/-
# ClassTree.Proofs.Class.Sound — classes as readers give them

A class as a value may hold what no class file and no tree can say: a code under the operands of
another family, a jump to a label that nobody defines, a number too large for any field. Readers
never give such a class. What they do promise is put together here, part by part, for both of them:
a class is *sound* if every part is of its shape, every number has a literal, and every label that a
method refers to is defined once in its body.

The places in an instruction or a frame are labels in a body and code offsets in a class file. Two
of them *match* if they are the same but for the places, and the places correspond.
-/
import ClassTree.Class.Basic
import ClassTree.Literal.Kind
import ClassTree.Text.Digits
import Mathlib.Data.List.Forall2

namespace ClassTree

/-! ## Constants -/

/-- The integer fits into four bytes. -/
def IsInt (n : Int) : Prop := -0x80000000 ≤ n ∧ n < 0x80000000

/-- The integer fits into eight bytes. -/
def IsLong (n : Int) : Prop := -0x8000000000000000 ≤ n ∧ n < 0x8000000000000000

/-- A number of a class file, which has four bytes at most and is mostly shorter. -/
theorem isInt_ofNat {n : Nat} (h : n < 0x80000000) : IsInt n := ⟨by omega, by omega⟩

namespace Literal

/-- The constants that literals of a kind stand for. -/
inductive IsOf : Kind → Constant → Prop
  | int {n : Int} (h : IsInt n) : IsOf .int (.int n)
  | long {n : Int} (h : IsLong n) : IsOf .long (.int n)
  /-- A float is kept in double precision. -/
  | float (x : Number.Single) : IsOf .float (.float x.toDouble)
  | double (x : Number.Double) : IsOf .double (.float x)
  | bool (b : Bool) : IsOf .bool (.bool b)
  | string (t : Text) : IsOf .string (.text t)
  | reference (name : Text) : IsOf .reference (.reference name)
  | methodType (descriptor : Text) : IsOf .methodType (.methodType descriptor)
  | label (l : Label) : IsOf .label (.label l)
  | bytes (b : Bytes) : IsOf .bytes (.bytes b)
  | null : IsOf .null .null

/-- The kinds of constants that a class file can pass to a bootstrap method. -/
def passable : List Kind := [.int, .float, .long, .double, .string, .reference, .methodType]

/-- A constant under the name of its kind. A handle is no literal and has a name of its own. -/
inductive IsNamed : Text → Constant → Prop
  | literal {kind : Kind} {value : Constant} (hkind : kind ∈ passable) (h : IsOf kind value) :
      IsNamed kind.name value
  | handle {h : Handle} (hkind : IsInt h.kind) : IsNamed handleKind (.handle h)

end Literal

/-! ## Frames -/

namespace VerificationType

/-- The tag has its own payload, and a site is given by a label. -/
def IsSound : VerificationType → Prop
  | .irregular _ _ | .uninitialized (.position _) => False
  | _ => True

/-- The label that a type refers to. -/
def label? : VerificationType → Option Label
  | .uninitialized (.label l) => some l
  | _ => none

end VerificationType

/-- The types are sound, and the kind is one of the seven. -/
structure Frame.IsSound (f : Frame) : Prop where
  kind : f.kind ∈ FrameKind.all
  locals : ∀ v ∈ f.locals, v.IsSound
  stack : ∀ v ∈ f.stack, v.IsSound
  chop : IsInt f.chop

/-- The labels that a frame refers to. -/
def Frame.references (f : Frame) : List Label :=
  (f.locals ++ f.stack).filterMap VerificationType.label?

/-! ## Instructions -/

/-- The operands are those of the family of the code. -/
def Instruction.IsSound {τ : Type} : Instruction τ → Prop
  | .plain op => op.family = .plain
  | .immediate op n => op.family = .immediate ∧ IsInt n
  | .variable op slot => op.family = .variable ∧ IsInt slot
  | .increment slot amount => IsInt slot ∧ IsInt amount
  | .constant op _ => op.family = .constant
  | .type op _ => op.family = .type
  | .field op _ _ _ => op.family = .field
  | .method op _ _ _ _ => op.family = .method
  | .callSite _ _ bootstrap arguments =>
    IsInt bootstrap.kind ∧ ∀ a ∈ arguments, Literal.IsNamed a.1 a.2
  | .jump op _ => op.family = .jump
  | .tableSwitch low high _ _ => IsInt low ∧ IsInt high
  | .lookupSwitch _ keys targets => keys.length = targets.length ∧ ∀ k ∈ keys, IsInt k
  | .multiArray _ dimensions => IsInt dimensions

namespace Item

/-- The item is of its shape. -/
def IsSound : Item → Prop
  | .instruction i => i.IsSound
  | .label _ => True
  | .line n => IsInt n
  | .frame f => f.IsSound

/-- The labels that an item refers to. -/
def references : Item → List Label
  | .instruction i => i.targets
  | .frame f => f.references
  | .label _ | .line _ => []

end Item

/-! ## Members -/

/-- The labels that a handler refers to. -/
def Handler.references (h : Handler) : List Label := [h.start, h.stop, h.target]

/-- The labels that a local variable refers to. -/
def LocalVariable.references (v : LocalVariable) : List Label := [v.start, v.stop]

/-- The variable has a type of one of two sorts. -/
structure LocalVariable.IsSound (v : LocalVariable) : Prop where
  typed : v.descriptor.isSome ∨ v.signature.isSome
  slot : IsInt v.slot

/-- The place of a parameter has a numeral that can be read, and the flags have a literal. -/
structure Parameter.IsSound (p : Parameter) : Prop where
  index : 0 ≤ p.index ∧ p.index.toNat < 10 ^ Text.maxNumeralLength
  access : IsInt p.access

/-- The labels that a body defines. -/
def definitions (body : List Item) : List Label := body.filterMap Item.label?

/-- Every label that is referred to is defined once. -/
structure Closed (body : List Item) (handlers : List Handler) (locals : List LocalVariable) :
    Prop where
  nodup : (definitions body).Nodup
  items : ∀ i ∈ body, i.references ⊆ definitions body
  handlers : ∀ h ∈ handlers, h.references ⊆ definitions body
  locals : ∀ v ∈ locals, v.references ⊆ definitions body

/-- A method as readers give it. -/
structure Method.IsSound (m : Method) : Prop where
  access : IsInt m.access
  parameters : ∀ p ∈ m.parameters, p.IsSound
  maxima : ∀ sizes ∈ m.maxima, IsInt sizes.stack ∧ IsInt sizes.locals
  items : ∀ i ∈ m.body, i.IsSound
  locals : ∀ v ∈ m.localVariables, v.IsSound
  closed : Closed m.body m.handlers m.localVariables
  counts : (∀ n ∈ m.visibleCount, IsInt n) ∧ (∀ n ∈ m.invisibleCount, IsInt n) ∧
    ∀ n ∈ m.parameterCount, IsInt n

/-! ## Classes -/

/-- A class as readers give it. -/
structure Class.IsSound (c : Class) : Prop where
  access : IsInt c.access
  version : IsInt c.major ∧ IsInt c.minor
  fields : ∀ f ∈ c.fields, IsInt f.access
  methods : ∀ m ∈ c.methods, m.IsSound
  innerClasses : ∀ i ∈ c.innerClasses, IsInt i.access

/-! ## Instructions and frames but for their places -/

variable {τ σ : Type} {R : τ → σ → Prop}

/-- Two instructions that differ at most in the places that jumps lead to, which correspond. -/
inductive Instruction.Matches (R : τ → σ → Prop) : Instruction τ → Instruction σ → Prop
  | plain (op : Opcode) : Matches R (.plain op) (.plain op)
  | immediate (op : Opcode) (n : Int) : Matches R (.immediate op n) (.immediate op n)
  | variable_ (op : Opcode) (slot : Int) : Matches R (.variable op slot) (.variable op slot)
  | increment (slot amount : Int) : Matches R (.increment slot amount) (.increment slot amount)
  | constant (op : Opcode) (value : Constant) : Matches R (.constant op value) (.constant op value)
  | type (op : Opcode) (name : Option Text) : Matches R (.type op name) (.type op name)
  | field (op : Opcode) (owner : Option Text) (name descriptor : Text) :
    Matches R (.field op owner name descriptor) (.field op owner name descriptor)
  | method (op : Opcode) (owner : Option Text) (name descriptor : Text) (interface : Bool) :
    Matches R (.method op owner name descriptor interface) (.method op owner name descriptor interface)
  | callSite (name descriptor : Text) (bootstrap : Handle) (arguments : List (Text × Constant)) :
    Matches R (.callSite name descriptor bootstrap arguments)
      (.callSite name descriptor bootstrap arguments)
  | jump (op : Opcode) {t : τ} {s : σ} (h : R t s) : Matches R (.jump op t) (.jump op s)
  | tableSwitch (low high : Int) {t : τ} {s : σ} {ts : List τ} {ss : List σ} (h : R t s)
    (hs : List.Forall₂ R ts ss) : Matches R (.tableSwitch low high t ts) (.tableSwitch low high s ss)
  | lookupSwitch (keys : List Int) {t : τ} {s : σ} {ts : List τ} {ss : List σ} (h : R t s)
    (hs : List.Forall₂ R ts ss) : Matches R (.lookupSwitch t keys ts) (.lookupSwitch s keys ss)
  | multiArray (descriptor : Option Text) (dimensions : Int) :
    Matches R (.multiArray descriptor dimensions) (.multiArray descriptor dimensions)

namespace Instruction.Matches

variable {i : Instruction τ} {i' : Instruction σ}

theorem targets (h : Matches R i i') : List.Forall₂ R i.targets i'.targets := by
  cases h with
  | jump op h => exact .cons h .nil
  | tableSwitch low high h hs => exact .cons h hs
  | lookupSwitch keys h hs => exact .cons h hs
  | _ => exact .nil

/-- The operands stay those of the family of the code. -/
theorem isSound (h : Matches R i i') (hi : i.IsSound) : i'.IsSound := by
  cases h with
  | lookupSwitch keys h hs => exact ⟨hi.1.trans hs.length_eq, hi.2⟩
  | _ => exact hi

end Instruction.Matches

/-- Two verification types that differ at most in the site, which corresponds. -/
inductive VerificationType.Matches (R : Int → Label → Prop) :
    VerificationType → VerificationType → Prop
  | same {v : VerificationType} (h : ∀ p : Nat, v ≠ .uninitialized (.position p)) : Matches R v v
  | site {p : Nat} {l : Label} (h : R p l) :
    Matches R (.uninitialized (.position p)) (.uninitialized (.label l))

/-- Two frames whose types match. -/
structure Frame.Matches (R : Int → Label → Prop) (f f' : Frame) : Prop where
  kind : f.kind = f'.kind
  locals : List.Forall₂ (VerificationType.Matches R) f.locals f'.locals
  stack : List.Forall₂ (VerificationType.Matches R) f.stack f'.stack
  chop : f.chop = f'.chop

end ClassTree
