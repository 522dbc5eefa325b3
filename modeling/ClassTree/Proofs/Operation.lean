/-
# ClassTree.Proofs.Operation — instructions read back

An instruction is read back from the bytes that it is written in: its code, its numbers and its
targets as they are, and what it refers to in the pool as the pool has it. A constant whose index is
too large for its code is read under the longer code, a far jump under its far code; and a far
conditional jump is read as two jumps.
-/
import ClassTree.Decoding.Operation
import ClassTree.Proofs.Constant
import ClassTree.Proofs.Encoding.Layout

namespace ClassTree

open Encoder (Fixed Growing Steady pooled)
open Encoding Decoding

/-! ## Codes -/

theorem Opcode.code_lt (op : Opcode) : op.code < Opcode.count := by
  cases op <;> decide

theorem Opcode.ofCode?_code (op : Opcode) : Opcode.ofCode? op.code = some op := by
  rw [Opcode.ofCode?, if_pos op.code_lt]
  cases op <;> rfl

theorem Encoding.ofCode?_codeByte (op : Opcode) : Opcode.ofCode? (codeByte op).toNat = some op := by
  have hlt := op.code_lt
  have hcount : Opcode.count = 202 := rfl
  rw [codeByte, UInt8.toNat_ofNat', Nat.mod_eq_of_lt (by omega), Opcode.ofCode?_code]

namespace Instruction

variable {τ : Type}

/-! ## Shapes -/

/-- The family that the shape of an instruction is for. -/
def family : Instruction τ → Family
  | .plain _ => .plain
  | .immediate _ _ => .immediate
  | .variable _ _ => .variable
  | .increment _ _ => .increment
  | .constant _ _ => .constant
  | .type _ _ => .type
  | .field _ _ _ _ => .field
  | .method _ _ _ _ _ => .method
  | .callSite _ _ _ _ => .callSite
  | .jump _ _ => .jump
  | .tableSwitch _ _ _ _ => .tableSwitch
  | .lookupSwitch _ _ _ => .lookupSwitch
  | .multiArray _ _ => .multiArray

/-- The code of an instruction is one for its shape. -/
def InFamily (i : Instruction τ) : Prop := i.opcode.family = i.family

/-- A switch has a target for each of its keys, and over a range it has at least one. -/
def HasTargets : Instruction τ → Prop
  | .tableSwitch low high _ targets => 1 ≤ targets.length ∧ (targets.length : Int) = high - low + 1
  | .lookupSwitch _ keys targets => keys.length = targets.length
  | _ => True

/-- The classes that an instruction names are there, and its constants have the form of their
kinds. -/
def IsRegular : Instruction τ → Prop
  | .constant op v => v.IsRegular (Literal.loadedKind op v)
  | .type _ name => ∃ s, name = some s
  | .field _ owner _ _ => ∃ s, owner = some s
  | .method _ owner _ _ _ => ∃ s, owner = some s
  | .callSite _ _ bootstrap arguments =>
    (∃ s, bootstrap.owner = some s) ∧ ∀ a ∈ arguments, a.2.IsRegular a.1
  | .multiArray descriptor _ => ∃ s, descriptor = some s
  | _ => True

/-- The instruction refers to nothing in the pool. -/
def IsFree : Instruction τ → Prop
  | .constant _ _ | .type _ _ | .field _ _ _ _ | .method _ _ _ _ _ | .callSite _ _ _ _
  | .multiArray _ _ => False
  | _ => True

/-- What an instruction is read back as, if texts change by `g`. -/
inductive Stores (g : Text → Text) : Instruction τ → Instruction τ → Prop
  | free {i : Instruction τ} (h : i.IsFree) : Stores g i i
  | constant (op : Opcode) {v v' : Constant} (h : v.Stores g (Literal.loadedKind op v) v') :
      Stores g (.constant op v) (.constant op v')
  | type (op : Opcode) (name : Text) : Stores g (.type op (some name)) (.type op (some (g name)))
  | field (op : Opcode) (owner name descriptor : Text) :
      Stores g (.field op (some owner) name descriptor)
        (.field op (some (g owner)) (g name) (g descriptor))
  | method (op : Opcode) (owner name descriptor : Text) (interface : Bool) :
      Stores g (.method op (some owner) name descriptor interface)
        (.method op (some (g owner)) (g name) (g descriptor) interface)
  | callSite (name descriptor : Text) {bootstrap : Handle} {arguments arguments' : List (Text × Constant)}
      (h : List.Forall₂ (fun a a' => a.1 = a'.1 ∧ a.2.Stores g a.1 a'.2) arguments arguments') :
      Stores g (.callSite name descriptor bootstrap arguments)
        (.callSite (g name) (g descriptor) (bootstrap.stored g) arguments')
  | multiArray (descriptor : Text) (dimensions : Int) :
      Stores g (.multiArray (some descriptor) dimensions) (.multiArray (some (g descriptor)) dimensions)

theorem Stores.targets_eq {g : Text → Text} {i i' : Instruction τ} (h : i.Stores g i') :
    i'.targets = i.targets := by
  cases h <;> rfl

end Instruction

/-! ## Reading -/

namespace Decoding

variable {g : Text → Text} {t : Table} {P : Pool} {offset : Nat} {bytes : Bytes}

/-- An instruction is read from its code and its operands. -/
theorem reads_readInstruction {op : Opcode} {i : Instruction Int}
    (h : ∀ start, Reads (readOperands t op offset start) bytes i) :
    Reads (readInstruction t offset) (codeByte op :: bytes) i := by
  refine Reads.at_position fun start => (Reads.byte (codeByte op)).bind ?_
  simp only [ofCode?_codeByte]
  exact h start

/-- A distance is read as the place where it leads. -/
theorem reads_target {width : Nat} {target : Int}
    (h : Bytes.signed? (width + 1) (target - offset) = some bytes) :
    Reads (do return (offset : Int) + (← Decoder.signed (width + 1))) bytes target := by
  have hread := (Reads.of_signed? h).map fun n => (offset : Int) + n
  rwa [show (offset : Int) + (target - offset) = target by omega] at hread

/-- A loaded constant is found in the kind that it is loaded as. -/
theorem fixed_addConstant_of_addLoaded {op : Opcode} {v : Constant} {k : Nat}
    (h : Fixed P (addLoaded op v) k) : Fixed P (addConstant (Literal.loadedKind op v) v) k := by
  unfold addLoaded at h
  split at h
  · split at h
    · next hop =>
      subst hop
      exact h
    · exact absurd h Encoder.not_fixed_throw
  · split at h
    · next hop =>
      subst hop
      exact h
    · exact absurd h Encoder.not_fixed_throw
  · split at h
    · next hop =>
      subst hop
      exact h
    · exact absurd h Encoder.not_fixed_throw
  · exact h

/-- A code of two bytes of index is followed by them. -/
theorem reads_longConstant {op : Opcode} (hfamily : op.family = .constant) (hop : op ≠ .ldc)
    {k : Nat} (hk : Bytes.unsigned? 2 k = some bytes) {c : Text × Constant}
    (hread : Reads (t.constant k) [] c) (start : Nat) :
    Reads (readOperands t op offset start) bytes (.constant op c.2) := by
  unfold readOperands
  rw [hfamily]
  simp only
  rw [if_neg hop]
  exact (Reads.of_unsigned? hk).bind_nil (hread.map _)

/-- A constant is read under its code, or under the longer one if its index asks for that. -/
theorem Carries.exists_reads_loadConstant (ht : Carries g t P) {op : Opcode} {v : Constant}
    (hfamily : op.family = .constant) (hv : v.IsRegular (Literal.loadedKind op v))
    (h : Fixed P (loadConstant op v) bytes) :
    ∃ k v', Fixed P (addLoaded op v) k ∧ v.Stores g (Literal.loadedKind op v) v' ∧
      Reads (readInstruction t offset) bytes
        (.constant (if op = .ldc ∧ maxByte < k then .ldc_w else op) v') := by
  unfold loadConstant at h
  obtain ⟨k, hk, h⟩ := Encoder.fixed_bind_iff.1 h
  obtain ⟨v', hstores, hread⟩ :=
    ht.exists_reads_constant hv (fixed_addConstant_of_addLoaded hk)
  refine ⟨k, v', hk, hstores, ?_⟩
  split at h
  · next hshort =>
    simp only [Encoder.fixed_bind_iff, Encoder.fixed_u1_iff, Encoder.fixed_pure_iff] at h
    obtain ⟨operand, hoperand, rfl⟩ := h
    obtain ⟨rfl, hle⟩ := hshort
    rw [if_neg (fun hlong => Nat.not_lt.2 hle hlong.2)]
    exact reads_readInstruction fun start =>
      (Reads.of_unsigned? hoperand).bind_nil (hread.map _)
  · next hlong =>
    simp only [Encoder.fixed_bind_iff, Encoder.fixed_u2_iff, Encoder.fixed_pure_iff] at h
    obtain ⟨operand, hoperand, rfl⟩ := h
    by_cases hop : op = .ldc
    · have hlarge : maxByte < k := by
        by_contra hle
        exact hlong ⟨hop, by omega⟩
      rw [if_pos hop, if_pos ⟨hop, hlarge⟩]
      exact reads_readInstruction (reads_longConstant rfl (by decide) hoperand hread)
    · rw [if_neg hop, if_neg (fun hand => hop hand.1)]
      exact reads_readInstruction (reads_longConstant hfamily hop hoperand hread)

/-- The operand of a jump is its distance. -/
theorem reads_jumpOperand {op : Opcode} (hfamily : op.family = .jump) {width : Nat}
    (hwidth : (if op.isFar = true then 4 else 2) = width + 1) {target : Int}
    (h : Bytes.signed? (width + 1) (target - offset) = some bytes) (start : Nat) :
    Reads (readOperands t op offset start) bytes (.jump op target) := by
  unfold readOperands
  rw [hfamily]
  simp only
  rw [hwidth]
  have hread := (Reads.of_signed? h).map fun n => Instruction.jump op ((offset : Int) + n)
  rwa [show (offset : Int) + (target - offset) = target by omega] at hread

/-- The opposite of a conditional jump is a near jump. -/
theorem jump_of_opposite {op opposite : Opcode} (h : op.opposite? = some opposite) :
    opposite.family = .jump ∧ opposite.isFar = false := by
  cases op <;> cases h <;> exact ⟨rfl, rfl⟩

/-- The far code of a jump is that of a far jump. -/
theorem farCode_isFar (op : Opcode) : (farCode op).family = .jump ∧ (farCode op).isFar = true := by
  unfold farCode
  split <;> exact ⟨rfl, rfl⟩

/-- A jump is read as it is, or under its far code. -/
theorem reads_jump {op : Opcode} (hfamily : op.family = .jump) {isFar : Bool} {target : Int}
    (hnear : isFar = true → op.isFar = true ∨ op.isConditional = false)
    (h : Fixed P (jump op isFar (target - offset)) bytes) :
    Reads (readInstruction t offset) bytes
      (.jump (if isFar = true ∧ op.isFar = false then farCode op else op) target) := by
  unfold jump at h
  split at h
  · next hop =>
    simp only [Encoder.fixed_bind_iff, Encoder.fixed_s4_iff, Encoder.fixed_pure_iff] at h
    obtain ⟨operand, hoperand, rfl⟩ := h
    rw [if_neg (by simp [hop])]
    exact reads_readInstruction (reads_jumpOperand hfamily (by simp [hop]) hoperand)
  · next hop =>
    split at h
    · next hfar =>
      -- a conditional jump has been excluded, so the far code has the operand of this one
      have hnone : op.opposite? = none := by
        have hnot := (hnear hfar).resolve_left hop
        simpa [Opcode.isConditional] using hnot
      rw [hnone] at h
      simp only [Encoder.fixed_bind_iff, Encoder.fixed_s4_iff, Encoder.fixed_pure_iff] at h
      obtain ⟨operand, hoperand, rfl⟩ := h
      obtain ⟨hfamily', hfar'⟩ := farCode_isFar op
      rw [if_pos ⟨hfar, by simpa using hop⟩]
      exact reads_readInstruction (reads_jumpOperand hfamily' (by simp [hfar']) hoperand)
    · next hfar =>
      simp only [Encoder.fixed_bind_iff, Encoder.fixed_s2_iff, Encoder.fixed_pure_iff] at h
      obtain ⟨operand, hoperand, rfl⟩ := h
      rw [if_neg (fun hand => hfar hand.1)]
      exact reads_readInstruction (reads_jumpOperand hfamily (by simp [hop]) hoperand)

/-- A far conditional jump is read as the opposite jump over a far one. -/
theorem reads_farConditional {op opposite : Opcode} (hopposite : op.opposite? = some opposite)
    {target : Int} (h : Fixed P (jump op true (target - offset)) bytes) :
    ∃ first second, bytes = first ++ second ∧ first.length = 3 ∧ second.length = 5 ∧
      Reads (readInstruction t offset) first (.jump opposite ((offset + 8 : Nat) : Int)) ∧
      Reads (readInstruction t (offset + 3)) second (.jump .goto_w target) := by
  have hop : op.isFar = false := by cases op <;> cases hopposite <;> rfl
  obtain ⟨hfamily, hfar⟩ := jump_of_opposite hopposite
  unfold jump at h
  rw [if_neg (by simp [hop]), if_pos rfl, hopposite] at h
  simp only [Encoder.fixed_bind_iff, Encoder.fixed_s2_iff, Encoder.fixed_s4_iff,
    Encoder.fixed_pure_iff] at h
  obtain ⟨skip, hskip, distance, hdistance, rfl⟩ := h
  refine ⟨codeByte opposite :: skip, codeByte .goto_w :: distance, by simp, ?_, ?_, ?_, ?_⟩
  · rw [List.length_cons, length_of_signed? hskip]
  · rw [List.length_cons, length_of_signed? hdistance]
  · have hskip' : Bytes.signed? 2 (((offset + 8 : Nat) : Int) - offset) = some skip := by
      rw [← hskip]
      congr 1
      omega
    exact reads_readInstruction (reads_jumpOperand hfamily (by simp [hfar]) hskip')
  · have hdistance' : Bytes.signed? 4 (target - ((offset + 3 : Nat) : Int)) = some distance := by
      rw [← hdistance]
      congr 1
      omega
    exact reads_readInstruction (reads_jumpOperand rfl rfl hdistance')

/-- The table has the bootstrap methods that the pool finds. -/
def HasSites (t : Table) (P : Pool) : Prop :=
  ∀ (method : Bootstrap) (k : Nat), P.bootstrapIndex[method]? = some k →
    t.bootstrap[k]? = some method

theorem reads_immediate {op : Opcode} (hfamily : op.family = .immediate) {n : Int}
    (h : Fixed P (immediateOperand op n) bytes) (start : Nat) :
    Reads (readOperands t op offset start) bytes (.immediate op n) := by
  unfold immediateOperand at h
  cases op <;> cases hfamily
  case bipush => exact (Reads.of_signed? (Encoder.fixed_s1_iff.1 h)).map _
  case sipush => exact (Reads.of_signed? (Encoder.fixed_s2_iff.1 h)).map _
  case newarray =>
    obtain ⟨hlength, rfl⟩ := Bytes.unsigned?_eq_some_iff.1 (Encoder.fixed_u1_iff.1 h)
    exact (Reads.unsigned hlength).map fun n : Nat => Instruction.immediate .newarray n

/-- The slot of a local variable is read back, in its short form or in its wide one. -/
theorem reads_variable {op : Opcode} (hfamily : op.family = .variable) {slot : Int} {isFar : Bool}
    (h : Fixed P (operation offset isFar (.variable op slot)) bytes) :
    Reads (readInstruction t offset) bytes (.variable op slot) := by
  rw [operation] at h
  split at h
  · simp only [Encoder.fixed_bind_iff, Encoder.fixed_u1_iff, Encoder.fixed_pure_iff] at h
    obtain ⟨operand, hoperand, rfl⟩ := h
    refine reads_readInstruction fun start => ?_
    obtain ⟨hlength, rfl⟩ := Bytes.unsigned?_eq_some_iff.1 hoperand
    unfold readOperands
    rw [hfamily]
    exact (Reads.unsigned hlength).map fun n : Nat => Instruction.variable op n
  · simp only [Encoder.fixed_bind_iff, Encoder.fixed_u2_iff, Encoder.fixed_pure_iff] at h
    obtain ⟨operand, hoperand, rfl⟩ := h
    refine reads_readInstruction fun start => ?_
    obtain ⟨hlength, rfl⟩ := Bytes.unsigned?_eq_some_iff.1 hoperand
    have hread := (Reads.unsigned hlength).map fun n : Nat =>
      (Instruction.variable op n : Instruction Int)
    -- the widened code stands behind the widening one
    refine (Reads.byte (codeByte op)).bind ?_
    rw [ofCode?_codeByte]
    split
    · next heq =>
      cases heq
      cases hfamily
    · next heq =>
      cases heq
      rw [if_pos hfamily]
      exact hread
    · next heq => cases heq

/-- The slot and the amount of an increment are read back, in the short form or in the wide one. -/
theorem reads_increment {slot amount : Int} {isFar : Bool}
    (h : Fixed P (operation offset isFar (.increment slot amount)) bytes) :
    Reads (readInstruction t offset) bytes (.increment slot amount) := by
  rw [operation] at h
  split at h
  · simp only [Encoder.fixed_bind_iff, Encoder.fixed_u1_iff, Encoder.fixed_s1_iff,
      Encoder.fixed_pure_iff] at h
    obtain ⟨first, hfirst, second, hsecond, rfl⟩ := h
    obtain ⟨hlength, rfl⟩ := Bytes.unsigned?_eq_some_iff.1 hfirst
    exact reads_readInstruction fun start =>
      (Reads.unsigned hlength).bind ((Reads.of_signed? hsecond).map _)
  · simp only [Encoder.fixed_bind_iff, Encoder.fixed_u2_iff, Encoder.fixed_s2_iff,
      Encoder.fixed_pure_iff] at h
    obtain ⟨first, hfirst, second, hsecond, rfl⟩ := h
    obtain ⟨hlength, rfl⟩ := Bytes.unsigned?_eq_some_iff.1 hfirst
    refine reads_readInstruction fun start => ?_
    exact (Reads.byte (codeByte .iinc)).bind
      ((Reads.unsigned hlength).bind ((Reads.of_signed? hsecond).map _))

theorem reads_padding : Reads (Decoder.skip (Bytes.padding offset))
    (List.replicate (Bytes.padding offset) 0) () := Reads.skip (by simp)

theorem reads_targets {targets : List Int} {parts : List Bytes}
    (h : List.Forall₂ (fun (t : Int) part => Bytes.signed? 4 (t - offset) = some part) targets
      parts) {count : Int} (hcount : count.toNat = targets.length) :
    Reads (Decoder.times count.toNat do return (offset : Int) + (← Decoder.signed 4))
      parts.flatten targets := by
  rw [hcount]
  exact Reads.times (List.Forall₂.flip (h.imp fun _ _ hpart => reads_target hpart))

/-- A switch over a range is read back. -/
theorem reads_tableSwitch {low high otherwise : Int} {targets : List Int}
    (htargets : 1 ≤ targets.length ∧ (targets.length : Int) = high - low + 1) {isFar : Bool}
    (h : Fixed P (operation offset isFar (.tableSwitch low high otherwise targets)) bytes) :
    Reads (readInstruction t offset) bytes (.tableSwitch low high otherwise targets) := by
  simp only [operation, Encoder.fixed_bind_iff, Encoder.fixed_s4_iff, Encoder.fixed_all_iff,
    Encoder.fixed_pure_iff] at h
  obtain ⟨first, hfirst, second, hsecond, third, hthird, _, ⟨parts, hparts, rfl⟩, rfl⟩ := h
  have hread (start : Nat) : Reads (readOperands t .tableswitch offset start)
      (List.replicate (Bytes.padding offset) 0 ++ (first ++ (second ++ (third ++ parts.flatten))))
      (.tableSwitch low high otherwise targets) := by
    refine reads_padding.bind ((Reads.of_signed? hfirst).bind ?_)
    rw [show (offset : Int) + (otherwise - offset) = otherwise by omega]
    refine (Reads.of_signed? hsecond).bind ((Reads.of_signed? hthird).bind ?_)
    -- there is a target, so the range is not empty
    rw [if_neg (show ¬ high < low by omega)]
    exact (reads_targets hparts (by omega)).map _
  exact (reads_readInstruction hread).cast (by simp [alignedCode])

/-- Keys and targets are read pair by pair. -/
theorem reads_pairs {pairs : List (Int × Int)} {parts : List Bytes}
    (h : List.Forall₂ (fun (p : Int × Int) part => ∃ key, Bytes.signed? 4 p.1 = some key ∧
      ∃ distance, Bytes.signed? 4 (p.2 - offset) = some distance ∧ part = key ++ distance)
      pairs parts) :
    Reads (Decoder.times pairs.length do
      let key ← Decoder.signed 4
      return (key, (offset : Int) + (← Decoder.signed 4))) parts.flatten pairs := by
  refine Reads.times (List.Forall₂.flip (h.imp ?_))
  rintro ⟨key, target⟩ _ ⟨first, hfirst, second, hsecond, rfl⟩
  have hread := (Reads.of_signed? hsecond).map fun n => (key, (offset : Int) + n)
  rw [show (offset : Int) + (target - offset) = target by omega] at hread
  exact (Reads.of_signed? hfirst).bind hread

/-- A switch over single keys is read back. -/
theorem reads_lookupSwitch {otherwise : Int} {keys targets : List Int}
    (htargets : keys.length = targets.length) {isFar : Bool}
    (h : Fixed P (operation offset isFar (.lookupSwitch otherwise keys targets)) bytes) :
    Reads (readInstruction t offset) bytes (.lookupSwitch otherwise keys targets) := by
  simp only [operation, Encoder.fixed_bind_iff, Encoder.fixed_s4_iff, Encoder.fixed_all_iff,
    Encoder.fixed_pure_iff] at h
  obtain ⟨first, hfirst, second, hsecond, _, ⟨parts, hparts, rfl⟩, rfl⟩ := h
  have hread (start : Nat) : Reads (readOperands t .lookupswitch offset start)
      (List.replicate (Bytes.padding offset) 0 ++ (first ++ (second ++ parts.flatten)))
      (.lookupSwitch otherwise keys targets) := by
    refine reads_padding.bind ((Reads.of_signed? hfirst).bind ?_)
    rw [show (offset : Int) + (otherwise - offset) = otherwise by omega]
    refine (Reads.of_signed? hsecond).bind ?_
    rw [if_neg (show ¬ (keys.length : Int) < 0 by omega), Int.toNat_natCast]
    have hpairs := reads_pairs hparts
    have hlength : (keys.zip targets).length = keys.length := by simp [htargets]
    rw [hlength] at hpairs
    have hmap := hpairs.map fun pairs =>
      (Instruction.lookupSwitch otherwise (pairs.map Prod.fst) (pairs.map Prod.snd))
    rwa [List.map_fst_zip (by omega), List.map_snd_zip (by omega)] at hmap
  exact (reads_readInstruction hread).cast (by simp [alignedCode])

/-- A call is read back. The slots of its arguments are skipped. -/
theorem Carries.reads_call (ht : Carries g t P) {op : Opcode} (hfamily : op.family = .method)
    {owner name descriptor : Text} {interface : Bool}
    (h : Fixed P (call op (some owner) name descriptor interface) bytes) :
    Reads (readInstruction t offset) bytes
      (.method op (some (g owner)) (g name) (g descriptor) interface) := by
  unfold call at h
  obtain ⟨operand, hoperand, h⟩ := Encoder.fixed_bind_iff.1 h
  obtain ⟨k, hk, hoperand⟩ := Encoder.fixed_index_iff.1 hoperand
  have hmember := ht.reads_method hk
  split at h
  · next hop =>
    subst hop
    simp only [Encoder.fixed_bind_iff, Encoder.fixed_u1_iff, Encoder.fixed_pure_iff,
      Encoder.fixed_lift_iff] at h
    obtain ⟨arguments, -, count, hcount, rfl⟩ := h
    have hskip : Reads (Decoder.skip 2) (count ++ [0]) () :=
      Reads.skip (by rw [List.length_append, length_of_unsigned? hcount]; rfl)
    have hread (start : Nat) : Reads (readOperands t .invokeinterface offset start)
        (operand ++ (count ++ [0]))
        (.method .invokeinterface (some (g owner)) (g name) (g descriptor) interface) :=
      (Reads.of_unsigned? hoperand).bind (hmember.nil_bind (hskip.bind_nil (.pure _)))
    exact (reads_readInstruction hread).cast (by simp)
  · next hop =>
    rw [Encoder.fixed_pure_iff] at h
    subst h
    refine reads_readInstruction fun start => ?_
    unfold readOperands
    rw [hfamily]
    refine (Reads.of_unsigned? hoperand).bind_nil (hmember.bind_nil ?_)
    rw [if_neg hop]
    exact .pure _

theorem Reads.mapM_nil {α β : Type} {f : α → Decoder β} {as : List α} {bs : List β}
    (h : List.Forall₂ (fun a b => Reads (f a) [] b) as bs) : Reads (as.mapM f) [] bs := by
  induction h with
  | nil => exact .pure []
  | cons hab _ ih =>
    rw [List.mapM_cons]
    exact hab.nil_bind (ih.nil_bind (.pure _))

/-- A call site is read back with its bootstrap method and the arguments of that. -/
theorem Carries.exists_reads_callSite (ht : Carries g t P) (hsites : HasSites t P)
    {name descriptor : Text} {bootstrap : Handle} {arguments : List (Text × Constant)}
    (howner : ∃ s, bootstrap.owner = some s) (hregular : ∀ a ∈ arguments, a.2.IsRegular a.1)
    (h : Fixed P (callSite name descriptor bootstrap arguments) bytes) :
    ∃ arguments', List.Forall₂ (fun a a' => a.1 = a'.1 ∧ a.2.Stores g a.1 a'.2)
        arguments arguments' ∧
      Reads (readInstruction t offset) bytes
        (.callSite (g name) (g descriptor) (bootstrap.stored g) arguments') := by
  obtain ⟨owner, howner⟩ := howner
  simp only [callSite, Encoder.fixed_bind_iff, Encoder.fixed_mapM_iff,
    Encoder.fixed_addBootstrap_iff, Encoder.fixed_index_iff, Encoder.fixed_pure_iff] at h
  obtain ⟨indices, hindices, k, hk, method, hmethod, operand, ⟨i, hi, hoperand⟩, rfl⟩ := h
  have hone : ∀ a ∈ arguments, ∀ index, Fixed P (addConstant a.1 a.2) index →
      ∃ a', Reads (t.constant index) [] a' ∧ (a.1 = a'.1 ∧ a.2.Stores g a.1 a'.2) := by
    intro a ha index hindex
    obtain ⟨v', hstores, hread⟩ := ht.exists_reads_constant (hregular a ha) hindex
    exact ⟨(a.1, v'), hread, rfl, hstores⟩
  obtain ⟨arguments', hread, hstores⟩ := Result.exists_forall₂_of_forall₂ hindices hone
  refine ⟨arguments', hstores, reads_readInstruction fun start => ?_⟩
  obtain ⟨m, hm, hi⟩ := Encoder.fixed_addInvokeDynamic_iff.1 hi
  obtain ⟨n, d, hmember, hn, hd⟩ := ht.reads_nameAndType hm
  have hsite := hsites _ _ hmethod
  have hskip : Reads (Decoder.skip 2) [0, 0] () := Reads.skip rfl
  refine (Reads.of_unsigned? hoperand).bind
    ((ht.reads_entry hi).nil_bind (hskip.bind_nil (hmember.nil_bind ?_)))
  simp only [hsite]
  exact hn.nil_bind (hd.nil_bind ((ht.reads_handle howner hk).nil_bind
    ((Reads.mapM_nil hread).nil_bind (.pure _))))

/-- An instruction other than a loaded constant and a jump is read back as what is stored of it. -/
theorem Carries.exists_reads_operation (ht : Carries g t P) (hsites : HasSites t P)
    {i : Instruction Int} (hfamily : i.InFamily) (htargets : i.HasTargets) (hregular : i.IsRegular)
    (hconstant : i.family ≠ .constant) (hjump : i.family ≠ .jump) {isFar : Bool}
    (h : Fixed P (operation offset isFar i) bytes) :
    ∃ i', i.Stores g i' ∧ Reads (readInstruction t offset) bytes i' := by
  cases i with
  | constant op v => exact absurd rfl hconstant
  | jump op target => exact absurd rfl hjump
  | plain op =>
    rw [operation, Encoder.fixed_pure_iff] at h
    subst h
    refine ⟨_, .free trivial, reads_readInstruction fun start => ?_⟩
    have hplain : op.family = .plain := hfamily
    unfold readOperands
    rw [hplain]
    exact .pure _
  | immediate op n =>
    rw [operation_immediate] at h
    simp only [Encoder.fixed_bind_iff, Encoder.fixed_pure_iff] at h
    obtain ⟨operand, hoperand, rfl⟩ := h
    exact ⟨_, .free trivial, reads_readInstruction (reads_immediate hfamily hoperand)⟩
  | «variable» op slot => exact ⟨_, .free trivial, reads_variable hfamily h⟩
  | increment slot amount => exact ⟨_, .free trivial, reads_increment h⟩
  | type op name =>
    obtain ⟨s, rfl⟩ := hregular
    simp only [operation, Encoder.fixed_bind_iff, Encoder.fixed_index_iff,
      Encoder.fixed_pure_iff] at h
    obtain ⟨operand, ⟨k, hk, hoperand⟩, rfl⟩ := h
    refine ⟨_, .type op s, reads_readInstruction fun start => ?_⟩
    have hop : op.family = .type := hfamily
    unfold readOperands
    rw [hop]
    exact (Reads.of_unsigned? hoperand).bind_nil ((ht.reads_className_some hk).map _)
  | field op owner name descriptor =>
    obtain ⟨s, rfl⟩ := hregular
    simp only [operation, Encoder.fixed_bind_iff, Encoder.fixed_index_iff,
      Encoder.fixed_pure_iff] at h
    obtain ⟨operand, ⟨k, hk, hoperand⟩, rfl⟩ := h
    refine ⟨_, .field op s name descriptor, reads_readInstruction fun start => ?_⟩
    have hop : op.family = .field := hfamily
    unfold readOperands
    rw [hop]
    exact (Reads.of_unsigned? hoperand).bind_nil ((ht.reads_field hk).bind_nil (.pure _))
  | method op owner name descriptor interface =>
    obtain ⟨s, rfl⟩ := hregular
    exact ⟨_, .method op s name descriptor interface, ht.reads_call hfamily h⟩
  | callSite name descriptor bootstrap arguments =>
    obtain ⟨arguments', hstores, hread⟩ := ht.exists_reads_callSite hsites hregular.1 hregular.2 h
    exact ⟨_, .callSite name descriptor hstores, hread⟩
  | tableSwitch low high otherwise targets => exact ⟨_, .free trivial, reads_tableSwitch htargets h⟩
  | lookupSwitch otherwise keys targets => exact ⟨_, .free trivial, reads_lookupSwitch htargets h⟩
  | multiArray descriptor dimensions =>
    obtain ⟨s, rfl⟩ := hregular
    simp only [operation, Encoder.fixed_bind_iff, Encoder.fixed_index_iff, Encoder.fixed_u1_iff,
      Encoder.fixed_pure_iff] at h
    obtain ⟨operand, ⟨k, hk, hoperand⟩, count, hcount, rfl⟩ := h
    obtain ⟨hlength, rfl⟩ := Bytes.unsigned?_eq_some_iff.1 hcount
    refine ⟨_, .multiArray s _, reads_readInstruction fun start => ?_⟩
    exact (Reads.of_unsigned? hoperand).bind
      ((ht.reads_className_some hk).nil_bind ((Reads.unsigned hlength).map _))

/-- An instruction that is written with a pool that has bytes names the classes that it needs, and
its constants have the form of their kinds. -/
theorem Backs.isRegular_of_fixed_operation (ht : Backs g t P) {i : Instruction Int} {isFar : Bool}
    (h : Fixed P (operation offset isFar i) bytes) : i.IsRegular := by
  cases i with
  | constant op v =>
    obtain ⟨k, hk, -⟩ := Encoder.fixed_bind_iff.1 (show Fixed P (loadConstant op v) bytes from h)
    exact ht.isRegular_of_fixed (fixed_addConstant_of_addLoaded hk)
  | type op name =>
    obtain ⟨operand, hoperand, -⟩ := Encoder.fixed_bind_iff.1 h
    obtain ⟨k, hk, -⟩ := Encoder.fixed_index_iff.1 hoperand
    exact ht.exists_of_fixed_addClass hk
  | field op owner name descriptor =>
    obtain ⟨operand, hoperand, -⟩ := Encoder.fixed_bind_iff.1 h
    obtain ⟨k, hk, -⟩ := Encoder.fixed_index_iff.1 hoperand
    obtain ⟨o, ho, -⟩ := Encoder.fixed_addField_iff.1 hk
    exact ht.exists_of_fixed_addClass ho
  | method op owner name descriptor interface =>
    obtain ⟨operand, hoperand, -⟩ := Encoder.fixed_bind_iff.1
      (show Fixed P (call op owner name descriptor interface) bytes from h)
    obtain ⟨k, hk, -⟩ := Encoder.fixed_index_iff.1 hoperand
    obtain ⟨o, ho, -⟩ := Encoder.fixed_addMethod_iff.1 hk
    exact ht.exists_of_fixed_addClass ho
  | callSite name descriptor bootstrap arguments =>
    obtain ⟨indices, hindices, hrest⟩ := Encoder.fixed_bind_iff.1
      (show Fixed P (callSite name descriptor bootstrap arguments) bytes from h)
    obtain ⟨k, hk, -⟩ := Encoder.fixed_bind_iff.1 hrest
    refine ⟨ht.exists_of_fixed_addHandle hk, fun a ha => ?_⟩
    obtain ⟨index, -, hindex⟩ := Result.exists_of_mem_left (Encoder.fixed_mapM_iff.1 hindices) ha
    exact ht.isRegular_of_fixed hindex
  | multiArray descriptor dimensions =>
    obtain ⟨operand, hoperand, -⟩ := Encoder.fixed_bind_iff.1 h
    obtain ⟨k, hk, -⟩ := Encoder.fixed_index_iff.1 hoperand
    exact ht.exists_of_fixed_addClass hk
  | _ => trivial

end Decoding

end ClassTree
