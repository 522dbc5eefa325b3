/-
# ClassTree.Proofs.Flow.StackUse — how many slots instructions take and leave

The specification of the machine says of every instruction how many slots it takes off the operand
stack and how many it puts there; for accesses to fields and for calls that is read off the
descriptor. The table here is written down from there, by the mnemonic and not by the effect. The
effect of an instruction agrees with it: on a stack that is high enough nothing is missing, and if
there is a state after the instruction, its height is the one that the table says.

Only loads of references depend on what is loaded. They fit the table when the local, or the element
of the array, takes one slot.
-/
import ClassTree.Proofs.Descriptor
import ClassTree.Proofs.Flow.Growth
import ClassTree.Proofs.Operation

namespace ClassTree

namespace Flow

open Result (bind_eq_error_iff)
open Descriptor (IsType IsMethodWith slotSize slots)

/-- The descriptor of a value gives a type with as many slots. -/
theorem exists_typeOf {descriptor : Text} (h : IsType descriptor) :
    ∃ v, typeOf descriptor = .ok (some v) ∧ (slotsOf v).length = slotSize descriptor := by
  cases h with
  | @letter c hc =>
    simp only [Descriptor.letters, List.mem_cons, List.not_mem_nil, or_false] at hc
    rcases hc with rfl | rfl | rfl | rfl | rfl | rfl | rfl | rfl <;> exact ⟨_, rfl, rfl⟩
  | @reference name hname =>
    refine ⟨instanceOf _, rfl, ?_⟩
    cases name <;> rfl
  | @array type htype =>
    obtain ⟨c, tail, rfl, -⟩ := htype.exists_cons
    exact ⟨instanceOf _, rfl, rfl⟩

/-- The result of a call, which may be none. -/
theorem exists_typeOf_result {result : Text} (h : IsType result ∨ result = "V") :
    ∃ v, typeOf result = .ok v ∧
      (v.elim [] slotsOf).length = slotSize result := by
  rcases h with h | rfl
  · obtain ⟨v, hv, hlength⟩ := exists_typeOf h
    exact ⟨some v, hv, hlength⟩
  · exact ⟨none, rfl, rfl⟩

/-! ## The table -/

/-- The slots that an instruction without operands takes and leaves. -/
def plainUse? : Opcode → Option (Nat × Nat)
  | .nop | .return_ => some (0, 0)
  -- constants
  | .aconst_null
  | .iconst_m1 | .iconst_0 | .iconst_1 | .iconst_2 | .iconst_3 | .iconst_4 | .iconst_5
  | .fconst_0 | .fconst_1 | .fconst_2 => some (0, 1)
  | .lconst_0 | .lconst_1 | .dconst_0 | .dconst_1 => some (0, 2)
  -- locals
  | .iload_0 | .iload_1 | .iload_2 | .iload_3 | .fload_0 | .fload_1 | .fload_2 | .fload_3
  | .aload_0 | .aload_1 | .aload_2 | .aload_3 => some (0, 1)
  | .lload_0 | .lload_1 | .lload_2 | .lload_3
  | .dload_0 | .dload_1 | .dload_2 | .dload_3 => some (0, 2)
  | .istore_0 | .istore_1 | .istore_2 | .istore_3 | .fstore_0 | .fstore_1 | .fstore_2 | .fstore_3
  | .astore_0 | .astore_1 | .astore_2 | .astore_3 => some (1, 0)
  | .lstore_0 | .lstore_1 | .lstore_2 | .lstore_3
  | .dstore_0 | .dstore_1 | .dstore_2 | .dstore_3 => some (2, 0)
  -- arrays
  | .iaload | .faload | .aaload | .baload | .caload | .saload => some (2, 1)
  | .laload | .daload => some (2, 2)
  | .iastore | .fastore | .aastore | .bastore | .castore | .sastore => some (3, 0)
  | .lastore | .dastore => some (4, 0)
  | .arraylength => some (1, 1)
  -- the stack
  | .pop => some (1, 0)
  | .pop2 => some (2, 0)
  | .dup => some (1, 2)
  | .dup_x1 => some (2, 3)
  | .dup_x2 => some (3, 4)
  | .dup2 => some (2, 4)
  | .dup2_x1 => some (3, 5)
  | .dup2_x2 => some (4, 6)
  | .swap => some (2, 2)
  -- numbers
  | .iadd | .isub | .imul | .idiv | .irem | .iand | .ior | .ixor | .ishl | .ishr | .iushr
  | .fadd | .fsub | .fmul | .fdiv | .frem | .fcmpl | .fcmpg => some (2, 1)
  | .ladd | .lsub | .lmul | .ldiv | .lrem | .land | .lor | .lxor
  | .dadd | .dsub | .dmul | .ddiv | .drem => some (4, 2)
  | .lshl | .lshr | .lushr => some (3, 2)
  | .lcmp | .dcmpl | .dcmpg => some (4, 1)
  | .ineg | .fneg | .i2f | .f2i | .i2b | .i2c | .i2s => some (1, 1)
  | .lneg | .dneg | .l2d | .d2l => some (2, 2)
  | .i2l | .i2d | .f2l | .f2d => some (1, 2)
  | .l2i | .l2f | .d2i | .d2f => some (2, 1)
  -- the end of a method, and monitors
  | .ireturn | .freturn | .areturn | .athrow | .monitorenter | .monitorexit => some (1, 0)
  | .lreturn | .dreturn => some (2, 0)
  | _ => none

/-- The slots that an instruction with the number of a local takes and leaves. -/
def variableUse? : Opcode → Option (Nat × Nat)
  | .iload | .fload | .aload => some (0, 1)
  | .lload | .dload => some (0, 2)
  | .istore | .fstore | .astore => some (1, 0)
  | .lstore | .dstore => some (2, 0)
  | .ret => some (0, 0)
  | _ => none

/-- The slots that a jump takes. -/
def jumpUse? : Opcode → Option Nat
  | .goto | .goto_w => some 0
  | .ifeq | .ifne | .iflt | .ifge | .ifgt | .ifle | .ifnull | .ifnonnull => some 1
  | .if_icmpeq | .if_icmpne | .if_icmplt | .if_icmpge | .if_icmpgt | .if_icmple
  | .if_acmpeq | .if_acmpne => some 2
  | _ => none

/-- An instruction takes some slots off the stack and leaves some. -/
inductive Uses : Instruction Label → Nat → Nat → Prop
  | plain {op : Opcode} {pops pushes : Nat} (h : plainUse? op = some (pops, pushes)) :
      Uses (.plain op) pops pushes
  | number {op : Opcode} {operand : Int} (h : op = .bipush ∨ op = .sipush) :
      Uses (.immediate op operand) 0 1
  | numbers {operand : Int} : Uses (.immediate .newarray operand) 1 1
  | variable {op : Opcode} {slot : Int} {pops pushes : Nat}
      (h : variableUse? op = some (pops, pushes)) : Uses (.variable op slot) pops pushes
  | increment {slot amount : Int} : Uses (.increment slot amount) 0 0
  | constant {op : Opcode} {value : Constant} (h : op = .ldc ∨ op = .ldc_w) :
      Uses (.constant op value) 0 1
  | wideConstant {value : Constant} : Uses (.constant .ldc2_w value) 0 2
  | new {name : Option Text} : Uses (.type .new name) 0 1
  | type {op : Opcode} {name : Option Text}
      (h : op = .anewarray ∨ op = .checkcast ∨ op = .instanceof) : Uses (.type op name) 1 1
  | getstatic {owner : Option Text} {name descriptor : Text} (hd : IsType descriptor) :
      Uses (.field .getstatic owner name descriptor) 0 (slotSize descriptor)
  | putstatic {owner : Option Text} {name descriptor : Text} (hd : IsType descriptor) :
      Uses (.field .putstatic owner name descriptor) (slotSize descriptor) 0
  | getfield {owner : Option Text} {name descriptor : Text} (hd : IsType descriptor) :
      Uses (.field .getfield owner name descriptor) 1 (slotSize descriptor)
  | putfield {owner : Option Text} {name descriptor : Text} (hd : IsType descriptor) :
      Uses (.field .putfield owner name descriptor) (slotSize descriptor + 1) 0
  | invokestatic {owner : Option Text} {name descriptor result : Text} {types : List Text}
      {interface : Bool} (hd : IsMethodWith types result descriptor) :
      Uses (.method .invokestatic owner name descriptor interface) (slots types) (slotSize result)
  | invoke {op : Opcode} {owner : Option Text} {name descriptor result : Text} {types : List Text}
      {interface : Bool} (h : op = .invokevirtual ∨ op = .invokespecial ∨ op = .invokeinterface)
      (hd : IsMethodWith types result descriptor) :
      Uses (.method op owner name descriptor interface) (slots types + 1) (slotSize result)
  | callSite {name descriptor result : Text} {types : List Text} {bootstrap : Handle}
      {arguments : List (Text × Constant)} (hd : IsMethodWith types result descriptor) :
      Uses (.callSite name descriptor bootstrap arguments) (slots types) (slotSize result)
  | jump {op : Opcode} {target : Label} {pops : Nat} (h : jumpUse? op = some pops) :
      Uses (.jump op target) pops 0
  /-- The return address. -/
  | subroutine {op : Opcode} {target : Label} (h : op.isSubroutineCall = true) :
      Uses (.jump op target) 0 1
  | tableSwitch {low high : Int} {otherwise : Label} {targets : List Label} :
      Uses (.tableSwitch low high otherwise targets) 1 0
  | lookupSwitch {otherwise : Label} {keys : List Int} {targets : List Label} :
      Uses (.lookupSwitch otherwise keys targets) 1 0
  | arrays {descriptor : Option Text} {dimensions : Nat} :
      Uses (.multiArray descriptor dimensions) dimensions 1

/-- The descriptors of an instruction are well formed, and its dimensions are a number of slots. -/
def HasDescriptors : Instruction Label → Prop
  | .field _ _ _ descriptor => IsType descriptor
  | .method _ _ _ descriptor _ | .callSite _ descriptor _ _ => Descriptor.IsMethod descriptor
  | .multiArray _ dimensions => 0 ≤ dimensions
  | _ => True

theorem exists_plainUse? (op : Opcode) : op.family = .plain → (plainUse? op).isSome := by
  cases op <;> decide

/-- Every code with the number of a local is in the table. -/
theorem exists_variableUse? (op : Opcode) : op.family = .variable → (variableUse? op).isSome := by
  cases op <;> decide

/-- Every jump that is no call of a subroutine is in the table. -/
theorem exists_jumpUse? (op : Opcode) : op.family = .jump → op.isSubroutineCall = false →
    (jumpUse? op).isSome := by
  cases op <;> decide

theorem op_of_family (op : Opcode) :
    (op.family = .immediate → op = .bipush ∨ op = .sipush ∨ op = .newarray) ∧
    (op.family = .constant → op = .ldc ∨ op = .ldc_w ∨ op = .ldc2_w) ∧
    (op.family = .type → op = .new ∨ op = .anewarray ∨ op = .checkcast ∨ op = .instanceof) ∧
    (op.family = .field → op = .getstatic ∨ op = .putstatic ∨ op = .getfield ∨ op = .putfield) ∧
    (op.family = .method → op = .invokestatic ∨ op = .invokevirtual ∨ op = .invokespecial ∨
      op = .invokeinterface) := by
  cases op <;> decide

/-- The table covers every instruction whose operands fit its code. -/
theorem exists_uses {i : Instruction Label} (hfamily : i.InFamily) (hd : HasDescriptors i) :
    ∃ pops pushes, Uses i pops pushes := by
  cases i with
  | plain op =>
    obtain ⟨⟨pops, pushes⟩, h⟩ := Option.isSome_iff_exists.1 (exists_plainUse? op hfamily)
    exact ⟨pops, pushes, .plain h⟩
  | immediate op n =>
    rcases (op_of_family op).1 hfamily with h | h | rfl
    · exact ⟨_, _, .number (.inl h)⟩
    · exact ⟨_, _, .number (.inr h)⟩
    · exact ⟨_, _, .numbers⟩
  | «variable» op slot =>
    obtain ⟨⟨pops, pushes⟩, h⟩ := Option.isSome_iff_exists.1 (exists_variableUse? op hfamily)
    exact ⟨pops, pushes, .variable h⟩
  | increment slot amount => exact ⟨_, _, .increment⟩
  | constant op value =>
    rcases (op_of_family op).2.1 hfamily with h | h | rfl
    · exact ⟨_, _, .constant (.inl h)⟩
    · exact ⟨_, _, .constant (.inr h)⟩
    · exact ⟨_, _, .wideConstant⟩
  | type op name =>
    rcases (op_of_family op).2.2.1 hfamily with rfl | h
    · exact ⟨_, _, .new⟩
    · exact ⟨_, _, .type h⟩
  | field op owner name descriptor =>
    rcases (op_of_family op).2.2.2.1 hfamily with rfl | rfl | rfl | rfl
    · exact ⟨_, _, .getstatic hd⟩
    · exact ⟨_, _, .putstatic hd⟩
    · exact ⟨_, _, .getfield hd⟩
    · exact ⟨_, _, .putfield hd⟩
  | method op owner name descriptor interface =>
    obtain ⟨types, htypes, result, hresult, hdescriptor⟩ := hd
    have hwith : IsMethodWith types result descriptor := ⟨htypes, hresult, hdescriptor⟩
    rcases (op_of_family op).2.2.2.2 hfamily with rfl | h
    · exact ⟨_, _, .invokestatic hwith⟩
    · exact ⟨_, _, .invoke h hwith⟩
  | callSite name descriptor bootstrap arguments =>
    obtain ⟨types, htypes, result, hresult, hdescriptor⟩ := hd
    exact ⟨_, _, .callSite ⟨htypes, hresult, hdescriptor⟩⟩
  | jump op target =>
    cases hcall : op.isSubroutineCall with
    | true => exact ⟨_, _, .subroutine hcall⟩
    | false =>
      obtain ⟨pops, h⟩ := Option.isSome_iff_exists.1 (exists_jumpUse? op hfamily hcall)
      exact ⟨pops, 0, .jump h⟩
  | tableSwitch low high otherwise targets => exact ⟨_, _, .tableSwitch⟩
  | lookupSwitch otherwise keys targets => exact ⟨_, _, .lookupSwitch⟩
  | multiArray descriptor dimensions =>
    obtain ⟨n, rfl⟩ := Int.eq_ofNat_of_zero_le hd
    exact ⟨n, 1, .arrays⟩

theorem Uses.of_isSubroutineCall {i : Instruction Label} {pops pushes : Nat}
    (h : Uses i pops pushes) (hcall : i.opcode.isSubroutineCall = true) :
    pops = 0 ∧ pushes = 1 := by
  obtain ⟨hplain, hvariable, hjump⟩ : plainUse? i.opcode = none ∧ variableUse? i.opcode = none ∧
      jumpUse? i.opcode = none := by
    revert hcall
    cases i.opcode <;> decide
  cases h with
  | plain h => cases hplain.symm.trans h
  | «variable» h => cases hvariable.symm.trans h
  | jump h => cases hjump.symm.trans h
  | subroutine _ => exact ⟨rfl, rfl⟩
  | number h | constant h => rcases h with rfl | rfl <;> cases hcall
  | type h | invoke h _ => rcases h with rfl | rfl | rfl <;> cases hcall
  | numbers | increment | wideConstant | new | getstatic _ | putstatic _ | getfield _ | putfield _
  | invokestatic _ | callSite _ | tableSwitch | lookupSwitch | arrays => cases hcall

/-! ## The table against the codes of the model -/

theorem plainUse?_of_fixedEffect? (op : Opcode) : ∀ found ∈ fixedEffect? op,
    ∀ use ∈ plainUse? op, use = (found.1, (found.2.flatMap slotsOf).length) := by
  cases op <;> decide

/-- A short form uses the stack as the code it stands for. -/
theorem plainUse?_of_shortForm? (op : Opcode) : fixedEffect? op = none →
    ∀ found ∈ shortForm? op, plainUse? op = variableUse? found.1 := by
  cases op <;> decide

/-- A code that takes the number of a local has no fixed effect. -/
theorem fixedEffect?_of_variableUse? (op : Opcode) : (variableUse? op).isSome →
    fixedEffect? op = none := by
  cases op <;> decide

/-- A copy leaves what it takes and the slots that it copies. -/
theorem plainUse?_of_copy? (op : Opcode) : ∀ found ∈ copy? op, ∀ use ∈ plainUse? op,
    use = (found.1, found.1 + found.2) ∧ found.2 ≤ found.1 := by
  cases op <;> decide

theorem jumpSlots_of_jumpUse? (op : Opcode) : ∀ pops ∈ jumpUse? op,
    jumpSlots op = pops ∧ op.isSubroutineCall = false ∧ op.family = .jump := by
  cases op <;> decide

/-- A code that has operands is interpreted by its operands, locals apart. -/
theorem shape_decides (op : Opcode) : op.family ≠ .plain → op.family ≠ .variable →
    fixedEffect? op = none ∧ op ≠ .aaload ∧ op ≠ .swap ∧ copy? op = none := by
  cases op <;> decide

variable {p : Program} {index : Nat}

theorem effect_eq_shapeEffect {i : Instruction Label} (haccess : access? i = none)
    {family : Family} (hfamily : i.opcode.family = family)
    (hoperands : family ≠ .plain ∧ family ≠ .variable) (s : State) :
    effect p index i s = shapeEffect p index i s := by
  subst hfamily
  obtain ⟨hfixed, haaload, hswap, hcopy⟩ := shape_decides i.opcode hoperands.1 hoperands.2
  unfold effect
  rw [hfixed, haccess, if_neg haaload, if_neg hswap, hcopy]

/-! ## Heights of results -/

/-- An error about the height of a stack. -/
inductive IsHeightError : Error → Prop
  | underflow {needed present : Nat} {place : Option Text} {position : Option Nat} :
      IsHeightError (.unverified (.underflow needed present) place position)
  | stackHeights {known incoming : Nat} {place : Option Text} {position : Option Nat} :
      IsHeightError (.unverified (.stackHeights known incoming) place position)

/-- A state of some height, if there is one, and no error about heights otherwise. -/
def Leaves (height : Nat) : Result State → Prop
  | .ok s => s.height = height
  | .error e => ¬ IsHeightError e

namespace Leaves

variable {s : State} {n height : Nat}

theorem bind {x : Result State} {k : State → Result State} (hx : Leaves n x)
    (hk : ∀ t : State, t.height = n → Leaves height (k t)) : Leaves height (x >>= k) := by
  cases x with
  | ok t => exact hk t hx
  | error e => exact hx

/-- Taking slots off a stack that has them. -/
theorem pop {count : Nat} (hcount : count ≤ s.height)
    {k : List VerificationType × State → Result State}
    (hk : ∀ values t, values.length = count → t.height = s.height - count →
      t.stack = s.stack.drop count → values = s.stack.take count → Leaves height (k (values, t))) :
    Leaves height (s.pop count >>= k) := by
  have hpop : s.pop count = .ok (s.stack.take count, { s with stack := s.stack.drop count }) :=
    if_pos hcount
  rw [hpop]
  exact hk _ _ (List.length_take_of_le hcount) List.length_drop rfl rfl

theorem drop {count : Nat} (hcount : count ≤ s.height) :
    Leaves (s.height - count) (s.drop count) :=
  pop hcount fun _ _ _ ht _ _ => ht

theorem push (v : VerificationType) :
    Leaves (s.height + (slotsOf v).length) (.ok (s.push (some v))) := by
  show (s.push (some v)).height = _
  simp only [State.push, State.height, List.length_append, List.length_reverse]
  omega

theorem pushNarrow {v : VerificationType} (hv : v.isWide = false) :
    Leaves (s.height + 1) (.ok (s.push (some v))) := by
  have hpush := push (s := s) v
  rwa [show slotsOf v = [v] by rw [slotsOf, hv]; rfl] at hpush

theorem pile (values : List VerificationType) :
    Leaves (s.height + values.length) (.ok { s with stack := values ++ s.stack }) := by
  show (values ++ s.stack).length = _
  rw [List.length_append, Nat.add_comm]
  rfl

/-- Exchanging slots on top for a type that takes one. -/
theorem replaceTop {count : Nat} {v : VerificationType} (hcount : count ≤ s.height)
    (hv : v.isWide = false) :
    Leaves (s.height - count + 1) (Flow.replaceTop s count v) := by
  refine (drop hcount).bind ?_
  intro t ht
  rw [← ht]
  exact pushNarrow hv

theorem pushTypeOf {descriptor : Text} {v : Option VerificationType}
    (htype : typeOf descriptor = .ok v) :
    Leaves (s.height + (v.elim [] slotsOf).length) (do return s.push (← typeOf descriptor)) := by
  rw [htype]
  cases v with
  | none => exact Nat.add_zero _
  | some v => exact push v

theorem of_eq {x : Result State} (hx : Leaves n x) (h : n = height) : Leaves height x := h ▸ hx

end Leaves

/-! ## Failures of accesses -/

namespace State

theorem put_error {locals : List VerificationType} {slot : Int} {v : VerificationType} {e : Error}
    (h : put locals slot v = .error e) : e = .undefined .index := by
  unfold put at h
  split at h <;> cases h
  rfl

theorem spoil_error {c : Prop} [Decidable c] {locals : List VerificationType} {place slot : Int}
    {e : Error} (h : (if c then spoil locals place slot else pure locals) = .error e) :
    e = .undefined .index := by
  split at h
  · rcases bind_eq_error_iff.1 h with h | ⟨wide, -, h⟩
    · unfold isWideAt at h
      split at h <;> cases h
      rfl
    · split at h
      · exact put_error h
      · cases h
  · cases h

theorem store_error {s : State} {slot : Int} {v : VerificationType} {e : Error}
    (h : s.store slot v = .error e) : e = .undefined .index := by
  rw [store_eq] at h
  rcases bind_eq_error_iff.1 h with h | ⟨first, -, h⟩
  · exact spoil_error h
  rcases bind_eq_error_iff.1 h with h | ⟨second, -, h⟩
  · exact spoil_error h
  rcases bind_eq_error_iff.1 h with h | ⟨third, -, h⟩
  · exact put_error h
  split at h
  · rcases bind_eq_error_iff.1 h with h | ⟨last, -, h⟩
    · exact put_error h
    · cases h
  · cases h

/-- A local that is not there is no local. -/
theorem read_error {s : State} {slot : Int} {e : Error} (h : s.read slot = .error e) :
    e = .undefined .index := by
  unfold read at h
  split at h
  · cases h
  · split at h <;> cases h
    rfl

end State

/-- No descriptor of a value is wrong because of a height. -/
theorem not_isHeightError_undefined (cause : Undefined) : ¬ IsHeightError (.undefined cause) :=
  nofun

theorem leaves_store (s : State) (slot : Int) (v : VerificationType) :
    Leaves s.height (s.store slot v) := by
  cases h : s.store slot v with
  | ok t => exact congrArg List.length (State.length_store h).1
  | error e =>
    obtain rfl := State.store_error h
    exact not_isHeightError_undefined _

/-- Storing the lowest of some slots takes them off. -/
theorem leaves_storeLast {s : State} {size : Nat} (hsize : size ≤ s.height) (slot : Int) :
    Leaves (s.height - size) (storeLast size slot s) := by
  apply Leaves.pop hsize
  intro values t _ ht _ _
  dsimp only
  cases values.getLast? with
  | some v => exact (leaves_store t slot v).of_eq ht
  | none => exact not_isHeightError_undefined _

/-! ## Instructions by kind -/

theorem leaves_access {op : Opcode} {slot : Int} {pops pushes : Nat} {s : State}
    (h : variableUse? op = some (pops, pushes)) (hs : pops ≤ s.height)
    (hread : op = .aload → ∀ v, s.read slot = .ok v → v.isWide = false) :
    Leaves (s.height - pops + pushes) (access op slot s) := by
  unfold access
  split
  · cases h
    exact .push _
  · cases h
    exact .push _
  · cases h
    exact .push _
  · cases h
    exact .push _
  · cases h
    show Leaves _ (_ >>= _)
    cases hv : s.read slot with
    | error e =>
      obtain rfl := State.read_error hv
      exact not_isHeightError_undefined _
    | ok v =>
      refine .pushNarrow ?_
      split
      · rfl
      · exact hread rfl v hv
  · cases h
    exact leaves_storeLast hs slot
  · cases h
    exact leaves_storeLast hs slot
  · cases h
    exact leaves_storeLast hs slot
  · cases h
    exact leaves_storeLast hs slot
  · cases h
    exact leaves_storeLast hs slot
  · cases h
  · -- of the codes in the table only a return from a subroutine is left
    cases op <;> cases h <;> first | rfl | contradiction

theorem leaves_pushes (pushed : List VerificationType) (s : State) :
    Leaves (s.height + (pushed.flatMap slotsOf).length)
      (.ok (pushed.foldl (fun s v => s.push (some v)) s)) := by
  induction pushed generalizing s with
  | nil => exact Nat.add_zero _
  | cons v rest ih =>
    refine (ih (s.push (some v))).of_eq ?_
    have hpush : (s.push (some v)).height = s.height + (slotsOf v).length := Leaves.push v
    rw [hpush, List.flatMap_cons, List.length_append, Nat.add_assoc]

theorem leaves_loadElement {s : State} (hs : 2 ≤ s.height)
    (helement : ∀ rest, s.stack[1]? = some (.object (some (Descriptor.bracket :: rest))) →
      ∃ v, typeOf rest = .ok (some v) ∧ v.isWide = false) :
    Leaves (s.height - 2 + 1) (loadElement s) := by
  apply Leaves.pop hs
  intro values t hlength ht _ hvalues
  -- the array lies below its index, which is on top
  have hlast : values.getLast? = s.stack[1]? := by
    rw [List.getLast?_eq_getElem?, hlength, hvalues, List.getElem?_take]
    rfl
  rw [← ht]
  dsimp only
  split
  · next c rest harray =>
    split
    · next hbracket =>
      subst hbracket
      obtain ⟨v, hv, hwide⟩ := helement rest (hlast ▸ harray)
      rw [hv]
      exact .pushNarrow hwide
    · exact .pushNarrow rfl
  · exact not_isHeightError_undefined _
  · exact .pushNarrow rfl
  · exact .pushNarrow rfl

theorem leaves_copy {s : State} {depth count : Nat} (hs : depth ≤ s.height)
    (hcount : count ≤ depth) :
    Leaves (s.height - depth + (depth + count)) (copy depth count s) := by
  apply Leaves.pop hs
  intro values t hlength ht _ _
  -- what has been taken comes back, with the copied slots below it
  refine (Leaves.pile (s := t) (values ++ values.take count)).of_eq ?_
  rw [ht, List.length_append, List.length_take, hlength, Nat.min_eq_left hcount]

theorem leaves_swap {s : State} (hs : 2 ≤ s.height) : Leaves (s.height - 2 + 2) (swap s) := by
  apply Leaves.pop hs
  intro values t hlength ht _ _
  refine (Leaves.pile (s := t) values.reverse).of_eq ?_
  rw [ht, List.length_reverse, hlength]

theorem leaves_plain {op : Opcode} {pops pushes : Nat} {s : State}
    (h : plainUse? op = some (pops, pushes)) (hs : pops ≤ s.height)
    (hread : ∀ slot v, access? (.plain op) = some (.aload, slot) → s.read slot = .ok v →
      v.isWide = false)
    (helement : op = .aaload → ∀ rest,
      s.stack[1]? = some (.object (some (Descriptor.bracket :: rest))) →
      ∃ v, typeOf rest = .ok (some v) ∧ v.isWide = false) :
    Leaves (s.height - pops + pushes) (effect p index (.plain op) s) := by
  -- the cases come in the order in which the effect looks at the code
  unfold effect
  split
  · next count pushed hfixed =>
    cases plainUse?_of_fixedEffect? op _ hfixed _ h
    apply (Leaves.drop hs).bind
    intro t ht
    rw [← ht]
    exact leaves_pushes pushed t
  · next hfixed =>
    split
    · next long slot haccess =>
      obtain ⟨found, hfound, hshort⟩ := Option.map_eq_some_iff.1 haccess
      cases hshort
      have huse := plainUse?_of_shortForm? op hfixed found hfound
      refine leaves_access (huse ▸ h) hs ?_
      rintro hlong v hv
      exact hread _ v (hlong ▸ haccess) hv
    · split
      · next haaload =>
        cases (show op = .aaload from haaload)
        cases h
        exact leaves_loadElement hs (helement rfl)
      · split
        · next hswap =>
          cases (show op = .swap from hswap)
          cases h
          exact leaves_swap hs
        · split
          · next depth count hcopy =>
            obtain ⟨huse, hcount⟩ := plainUse?_of_copy? op _ hcopy _ h
            cases huse
            exact leaves_copy hs hcount
          · rintro ⟨⟩

/-! ## All instructions -/

/-- Pushing the value of a field or the result of a call. -/
theorem leaves_pushResult {result : Text} (h : IsType result ∨ result = "V") (s : State) :
    Leaves (s.height + slotSize result) (do return s.push (← typeOf result)) := by
  obtain ⟨v, hv, hlength⟩ := exists_typeOf_result h
  rw [← hlength]
  exact .pushTypeOf hv

theorem leaves_takeReceiver {op : Opcode} {name : Text} {s : State} (hop : op ≠ .invokestatic)
    (hs : 1 ≤ s.height) : Leaves (s.height - 1) (takeReceiver p op name s) := by
  unfold takeReceiver
  rw [if_neg hop]
  apply Leaves.pop hs
  intro values t _ ht _ _
  dsimp only
  rw [← ht]
  split
  · split
    · exact height_construct p _ t
    · rfl
  · rfl

theorem leaves_call {op : Opcode} {name descriptor result : Text} {types : List Text} {s : State}
    (hd : IsMethodWith types result descriptor) (receiver : Nat)
    (hreceiver : op = .invokestatic ∧ receiver = 0 ∨ op ≠ .invokestatic ∧ receiver = 1)
    (hs : slots types + receiver ≤ s.height) :
    Leaves (s.height - (slots types + receiver) + slotSize result)
      (call p op name descriptor s) := by
  unfold call
  rw [hd.split_eq]
  apply (Leaves.drop (Nat.le_of_add_right_le hs)).bind
  intro t ht
  have htake : Leaves (s.height - (slots types + receiver)) (takeReceiver p op name t) := by
    rcases hreceiver with ⟨rfl, rfl⟩ | ⟨hop, rfl⟩
    · exact ht
    · exact (leaves_takeReceiver hop (by omega)).of_eq (by omega)
  apply htake.bind
  intro u hu
  rw [← hu]
  exact leaves_pushResult hd.2.1 u

theorem length_slotsOf_constantType (op : Opcode) (value : Constant) :
    (slotsOf (constantType op value)).length = if op = .ldc2_w then 2 else 1 := by
  unfold constantType
  split
  · split <;> rfl
  · split <;> rfl

/-- Accesses to references fit the table in a state: what is loaded takes one slot. -/
structure LoadsNarrow (i : Instruction Label) (s : State) : Prop where
  loaded : ∀ slot v, access? i = some (.aload, slot) → s.read slot = .ok v → v.isWide = false
  element : i.opcode = .aaload → ∀ rest,
    s.stack[1]? = some (.object (some (Descriptor.bracket :: rest))) →
    ∃ v, typeOf rest = .ok (some v) ∧ v.isWide = false

/-- **The effect of an instruction agrees with the table.** On a stack that is high enough nothing
is missing, and the stack has the height afterwards that the table says. -/
theorem leaves_effect {i : Instruction Label} {pops pushes : Nat} (huses : Uses i pops pushes)
    {s : State} (hs : pops ≤ s.height) (hloads : LoadsNarrow i s) :
    Leaves (s.height - pops + pushes) (effect p index i s) := by
  -- with operands in its family the shape of the instruction decides
  have hshape (family : Family) (haccess : access? i = none) (hfamily : i.opcode.family = family)
      (hoperands : family ≠ .plain ∧ family ≠ .variable)
      (h : Leaves (s.height - pops + pushes) (shapeEffect p index i s)) :
      Leaves (s.height - pops + pushes) (effect p index i s) := by
    rwa [effect_eq_shapeEffect haccess hfamily hoperands]
  cases huses with
  | plain h => exact leaves_plain h hs hloads.loaded hloads.element
  | @«variable» op slot _ _ h =>
    have hfixed := fixedEffect?_of_variableUse? op (by rw [h]; rfl)
    have heffect : effect p index (.variable op slot) s = access op slot s := by
      unfold effect
      rw [show fixedEffect? (Instruction.variable op slot : Instruction Label).opcode = none
        from hfixed]
      rfl
    rw [heffect]
    refine leaves_access h hs ?_
    rintro rfl v hv
    exact hloads.loaded slot v rfl hv
  | @increment slot amount => exact leaves_store s slot .integer
  | number h =>
    rcases h with rfl | rfl <;> exact hshape .immediate rfl rfl (by decide) (.pushNarrow rfl)
  | numbers => exact hshape .immediate rfl rfl (by decide) (.replaceTop hs rfl)
  | @constant op value h =>
    have hwide : (slotsOf (constantType op value)).length = 1 := by
      rw [length_slotsOf_constantType, if_neg (by rcases h with rfl | rfl <;> decide)]
    rcases h with rfl | rfl <;>
      exact hshape .constant rfl rfl (by decide) ((Leaves.push _).of_eq (congrArg _ hwide))
  | @wideConstant value =>
    have hwide : (slotsOf (constantType .ldc2_w value)).length = 2 :=
      length_slotsOf_constantType .ldc2_w value
    exact hshape .constant rfl rfl (by decide) ((Leaves.push _).of_eq (congrArg _ hwide))
  | new => exact hshape .type rfl rfl (by decide) (.pushNarrow rfl)
  | @type op name h =>
    rcases h with rfl | rfl | rfl <;> refine hshape .type rfl rfl (by decide) ?_
    · apply (Leaves.drop hs).bind
      intro t ht
      rw [← ht]
      cases name with
      | none => exact not_isHeightError_undefined _
      | some n => exact .pushNarrow rfl
    · exact .replaceTop hs rfl
    · exact .replaceTop hs rfl
  | getstatic hd => exact hshape .field rfl rfl (by decide) (leaves_pushResult (.inl hd) s)
  | putstatic hd => exact hshape .field rfl rfl (by decide) (Leaves.drop hs)
  | getfield hd =>
    refine hshape .field rfl rfl (by decide) ((Leaves.drop hs).bind fun t ht => ?_)
    rw [← ht]
    exact leaves_pushResult (.inl hd) t
  | putfield hd => exact hshape .field rfl rfl (by decide) (Leaves.drop hs)
  | invokestatic hd =>
    exact hshape .method rfl rfl (by decide) (leaves_call hd 0 (.inl ⟨rfl, rfl⟩) hs)
  | invoke h hd =>
    rcases h with rfl | rfl | rfl <;>
      exact hshape .method rfl rfl (by decide) (leaves_call hd 1 (.inr ⟨by decide, rfl⟩) hs)
  | callSite hd =>
    exact hshape .callSite rfl rfl (by decide) (leaves_call hd 0 (.inl ⟨rfl, rfl⟩) hs)
  | @jump op target _ h =>
    obtain ⟨hslots, hcall, hfamily⟩ := jumpSlots_of_jumpUse? op _ h
    refine hshape .jump rfl hfamily (by decide) ?_
    show Leaves _ (Flow.jump op s)
    rw [Flow.jump, hcall, hslots]
    exact Leaves.drop hs
  | @subroutine op target h =>
    have hfamily : op.family = .jump := by
      revert h
      cases op <;> decide
    refine hshape .jump rfl hfamily (by decide) ?_
    show Leaves _ (Flow.jump op s)
    rw [Flow.jump, if_pos h]
    exact .pushNarrow rfl
  | tableSwitch => exact hshape .tableSwitch rfl rfl (by decide) (Leaves.drop hs)
  | lookupSwitch => exact hshape .lookupSwitch rfl rfl (by decide) (Leaves.drop hs)
  | arrays => exact hshape .multiArray rfl rfl (by decide) (.replaceTop hs rfl)

end Flow

end ClassTree
