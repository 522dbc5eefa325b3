/-
# ClassTree.Opcode.Basic — the instruction codes

The 202 instruction codes of the virtual machine, in the order of their numbers: the number of a
code is its place in the list of constructors, so that numbering and reading a number back need no
table of their own.

Every code belongs to exactly one operand family, which fixes what follows the code in a method
body. Beside the families stand the facts about control flow: which codes never continue with the
next instruction, which jumps are conditional, and the opposite of a conditional jump.
-/
import ClassTree.Text.Basic

namespace ClassTree

/-- An instruction code. -/
inductive Opcode where
  | nop | aconst_null | iconst_m1 | iconst_0 | iconst_1 | iconst_2 | iconst_3 | iconst_4
  | iconst_5 | lconst_0 | lconst_1 | fconst_0 | fconst_1 | fconst_2 | dconst_0 | dconst_1
  | bipush | sipush | ldc | ldc_w | ldc2_w | iload | lload | fload | dload | aload | iload_0
  | iload_1 | iload_2 | iload_3 | lload_0 | lload_1 | lload_2 | lload_3 | fload_0 | fload_1
  | fload_2 | fload_3 | dload_0 | dload_1 | dload_2 | dload_3 | aload_0 | aload_1 | aload_2
  | aload_3 | iaload | laload | faload | daload | aaload | baload | caload | saload | istore
  | lstore | fstore | dstore | astore | istore_0 | istore_1 | istore_2 | istore_3 | lstore_0
  | lstore_1 | lstore_2 | lstore_3 | fstore_0 | fstore_1 | fstore_2 | fstore_3 | dstore_0
  | dstore_1 | dstore_2 | dstore_3 | astore_0 | astore_1 | astore_2 | astore_3 | iastore
  | lastore | fastore | dastore | aastore | bastore | castore | sastore | pop | pop2 | dup
  | dup_x1 | dup_x2 | dup2 | dup2_x1 | dup2_x2 | swap | iadd | ladd | fadd | dadd | isub | lsub
  | fsub | dsub | imul | lmul | fmul | dmul | idiv | ldiv | fdiv | ddiv | irem | lrem | frem
  | drem | ineg | lneg | fneg | dneg | ishl | lshl | ishr | lshr | iushr | lushr | iand | land
  | ior | lor | ixor | lxor | iinc | i2l | i2f | i2d | l2i | l2f | l2d | f2i | f2l | f2d | d2i
  | d2l | d2f | i2b | i2c | i2s | lcmp | fcmpl | fcmpg | dcmpl | dcmpg | ifeq | ifne | iflt
  | ifge | ifgt | ifle | if_icmpeq | if_icmpne | if_icmplt | if_icmpge | if_icmpgt | if_icmple
  | if_acmpeq | if_acmpne | goto | jsr | ret | tableswitch | lookupswitch | ireturn | lreturn
  | freturn | dreturn | areturn | return_ | getstatic | putstatic | getfield | putfield
  | invokevirtual | invokespecial | invokestatic | invokeinterface | invokedynamic | new
  | newarray | anewarray | arraylength | athrow | checkcast | instanceof | monitorenter
  | monitorexit | wide | multianewarray | ifnull | ifnonnull | goto_w | jsr_w
  deriving DecidableEq, Repr

namespace Opcode

/-- How many instruction codes there are. -/
def count : Nat := 202

/-- The number of a code. -/
def code (op : Opcode) : Nat := op.ctorIdx

/-- The code with a given number. -/
def ofCode? (n : Nat) : Option Opcode := if n < count then some (Opcode.ofNat n) else none

/-- Codes are hashed by their number. -/
instance : Hashable Opcode := ⟨fun op => hash op.code⟩

/-- The name of a code, in capitals. -/
def mnemonic : Opcode → Text
  | .nop => "NOP"
  | .aconst_null => "ACONST_NULL"
  | .iconst_m1 => "ICONST_M1"
  | .iconst_0 => "ICONST_0"
  | .iconst_1 => "ICONST_1"
  | .iconst_2 => "ICONST_2"
  | .iconst_3 => "ICONST_3"
  | .iconst_4 => "ICONST_4"
  | .iconst_5 => "ICONST_5"
  | .lconst_0 => "LCONST_0"
  | .lconst_1 => "LCONST_1"
  | .fconst_0 => "FCONST_0"
  | .fconst_1 => "FCONST_1"
  | .fconst_2 => "FCONST_2"
  | .dconst_0 => "DCONST_0"
  | .dconst_1 => "DCONST_1"
  | .bipush => "BIPUSH"
  | .sipush => "SIPUSH"
  | .ldc => "LDC"
  | .ldc_w => "LDC_W"
  | .ldc2_w => "LDC2_W"
  | .iload => "ILOAD"
  | .lload => "LLOAD"
  | .fload => "FLOAD"
  | .dload => "DLOAD"
  | .aload => "ALOAD"
  | .iload_0 => "ILOAD_0"
  | .iload_1 => "ILOAD_1"
  | .iload_2 => "ILOAD_2"
  | .iload_3 => "ILOAD_3"
  | .lload_0 => "LLOAD_0"
  | .lload_1 => "LLOAD_1"
  | .lload_2 => "LLOAD_2"
  | .lload_3 => "LLOAD_3"
  | .fload_0 => "FLOAD_0"
  | .fload_1 => "FLOAD_1"
  | .fload_2 => "FLOAD_2"
  | .fload_3 => "FLOAD_3"
  | .dload_0 => "DLOAD_0"
  | .dload_1 => "DLOAD_1"
  | .dload_2 => "DLOAD_2"
  | .dload_3 => "DLOAD_3"
  | .aload_0 => "ALOAD_0"
  | .aload_1 => "ALOAD_1"
  | .aload_2 => "ALOAD_2"
  | .aload_3 => "ALOAD_3"
  | .iaload => "IALOAD"
  | .laload => "LALOAD"
  | .faload => "FALOAD"
  | .daload => "DALOAD"
  | .aaload => "AALOAD"
  | .baload => "BALOAD"
  | .caload => "CALOAD"
  | .saload => "SALOAD"
  | .istore => "ISTORE"
  | .lstore => "LSTORE"
  | .fstore => "FSTORE"
  | .dstore => "DSTORE"
  | .astore => "ASTORE"
  | .istore_0 => "ISTORE_0"
  | .istore_1 => "ISTORE_1"
  | .istore_2 => "ISTORE_2"
  | .istore_3 => "ISTORE_3"
  | .lstore_0 => "LSTORE_0"
  | .lstore_1 => "LSTORE_1"
  | .lstore_2 => "LSTORE_2"
  | .lstore_3 => "LSTORE_3"
  | .fstore_0 => "FSTORE_0"
  | .fstore_1 => "FSTORE_1"
  | .fstore_2 => "FSTORE_2"
  | .fstore_3 => "FSTORE_3"
  | .dstore_0 => "DSTORE_0"
  | .dstore_1 => "DSTORE_1"
  | .dstore_2 => "DSTORE_2"
  | .dstore_3 => "DSTORE_3"
  | .astore_0 => "ASTORE_0"
  | .astore_1 => "ASTORE_1"
  | .astore_2 => "ASTORE_2"
  | .astore_3 => "ASTORE_3"
  | .iastore => "IASTORE"
  | .lastore => "LASTORE"
  | .fastore => "FASTORE"
  | .dastore => "DASTORE"
  | .aastore => "AASTORE"
  | .bastore => "BASTORE"
  | .castore => "CASTORE"
  | .sastore => "SASTORE"
  | .pop => "POP"
  | .pop2 => "POP2"
  | .dup => "DUP"
  | .dup_x1 => "DUP_X1"
  | .dup_x2 => "DUP_X2"
  | .dup2 => "DUP2"
  | .dup2_x1 => "DUP2_X1"
  | .dup2_x2 => "DUP2_X2"
  | .swap => "SWAP"
  | .iadd => "IADD"
  | .ladd => "LADD"
  | .fadd => "FADD"
  | .dadd => "DADD"
  | .isub => "ISUB"
  | .lsub => "LSUB"
  | .fsub => "FSUB"
  | .dsub => "DSUB"
  | .imul => "IMUL"
  | .lmul => "LMUL"
  | .fmul => "FMUL"
  | .dmul => "DMUL"
  | .idiv => "IDIV"
  | .ldiv => "LDIV"
  | .fdiv => "FDIV"
  | .ddiv => "DDIV"
  | .irem => "IREM"
  | .lrem => "LREM"
  | .frem => "FREM"
  | .drem => "DREM"
  | .ineg => "INEG"
  | .lneg => "LNEG"
  | .fneg => "FNEG"
  | .dneg => "DNEG"
  | .ishl => "ISHL"
  | .lshl => "LSHL"
  | .ishr => "ISHR"
  | .lshr => "LSHR"
  | .iushr => "IUSHR"
  | .lushr => "LUSHR"
  | .iand => "IAND"
  | .land => "LAND"
  | .ior => "IOR"
  | .lor => "LOR"
  | .ixor => "IXOR"
  | .lxor => "LXOR"
  | .iinc => "IINC"
  | .i2l => "I2L"
  | .i2f => "I2F"
  | .i2d => "I2D"
  | .l2i => "L2I"
  | .l2f => "L2F"
  | .l2d => "L2D"
  | .f2i => "F2I"
  | .f2l => "F2L"
  | .f2d => "F2D"
  | .d2i => "D2I"
  | .d2l => "D2L"
  | .d2f => "D2F"
  | .i2b => "I2B"
  | .i2c => "I2C"
  | .i2s => "I2S"
  | .lcmp => "LCMP"
  | .fcmpl => "FCMPL"
  | .fcmpg => "FCMPG"
  | .dcmpl => "DCMPL"
  | .dcmpg => "DCMPG"
  | .ifeq => "IFEQ"
  | .ifne => "IFNE"
  | .iflt => "IFLT"
  | .ifge => "IFGE"
  | .ifgt => "IFGT"
  | .ifle => "IFLE"
  | .if_icmpeq => "IF_ICMPEQ"
  | .if_icmpne => "IF_ICMPNE"
  | .if_icmplt => "IF_ICMPLT"
  | .if_icmpge => "IF_ICMPGE"
  | .if_icmpgt => "IF_ICMPGT"
  | .if_icmple => "IF_ICMPLE"
  | .if_acmpeq => "IF_ACMPEQ"
  | .if_acmpne => "IF_ACMPNE"
  | .goto => "GOTO"
  | .jsr => "JSR"
  | .ret => "RET"
  | .tableswitch => "TABLESWITCH"
  | .lookupswitch => "LOOKUPSWITCH"
  | .ireturn => "IRETURN"
  | .lreturn => "LRETURN"
  | .freturn => "FRETURN"
  | .dreturn => "DRETURN"
  | .areturn => "ARETURN"
  | .return_ => "RETURN"
  | .getstatic => "GETSTATIC"
  | .putstatic => "PUTSTATIC"
  | .getfield => "GETFIELD"
  | .putfield => "PUTFIELD"
  | .invokevirtual => "INVOKEVIRTUAL"
  | .invokespecial => "INVOKESPECIAL"
  | .invokestatic => "INVOKESTATIC"
  | .invokeinterface => "INVOKEINTERFACE"
  | .invokedynamic => "INVOKEDYNAMIC"
  | .new => "NEW"
  | .newarray => "NEWARRAY"
  | .anewarray => "ANEWARRAY"
  | .arraylength => "ARRAYLENGTH"
  | .athrow => "ATHROW"
  | .checkcast => "CHECKCAST"
  | .instanceof => "INSTANCEOF"
  | .monitorenter => "MONITORENTER"
  | .monitorexit => "MONITOREXIT"
  | .wide => "WIDE"
  | .multianewarray => "MULTIANEWARRAY"
  | .ifnull => "IFNULL"
  | .ifnonnull => "IFNONNULL"
  | .goto_w => "GOTO_W"
  | .jsr_w => "JSR_W"

end Opcode

/-! ## What an instruction code takes and where it leads -/

/-- What an instruction carries besides its code. -/
inductive Family where
  /-- Nothing. -/
  | plain
  /-- A small integer. -/
  | immediate
  /-- A constant of the pool. -/
  | constant
  /-- The slot of a local variable. -/
  | variable
  /-- The slot of a local variable and an amount. -/
  | increment
  /-- A class or array type. -/
  | type
  /-- A field. -/
  | field
  /-- A method. -/
  | method
  /-- A call site with its bootstrap method. -/
  | callSite
  /-- One target. -/
  | jump
  /-- Targets for a range of keys. -/
  | tableSwitch
  /-- Targets for single keys. -/
  | lookupSwitch
  /-- An array type and a number of dimensions. -/
  | multiArray
  /-- Another instruction: the code only widens its operands. -/
  | widening
  deriving DecidableEq, Repr

namespace Opcode

/-- The operand family of a code. -/
def family : Opcode → Family
  | .bipush | .sipush | .newarray => .immediate
  | .ldc | .ldc_w | .ldc2_w => .constant
  | .iload | .lload | .fload | .dload | .aload
  | .istore | .lstore | .fstore | .dstore | .astore | .ret => .variable
  | .iinc => .increment
  | .new | .anewarray | .checkcast | .instanceof => .type
  | .getstatic | .putstatic | .getfield | .putfield => .field
  | .invokevirtual | .invokespecial | .invokestatic | .invokeinterface => .method
  | .invokedynamic => .callSite
  | .ifeq | .ifne | .iflt | .ifge | .ifgt | .ifle
  | .if_icmpeq | .if_icmpne | .if_icmplt | .if_icmpge | .if_icmpgt | .if_icmple
  | .if_acmpeq | .if_acmpne | .goto | .jsr | .ifnull | .ifnonnull | .goto_w | .jsr_w => .jump
  | .tableswitch => .tableSwitch
  | .lookupswitch => .lookupSwitch
  | .multianewarray => .multiArray
  | .wide => .widening
  | _ => .plain

/-- Control never continues with the instruction that follows. A call of a subroutine returns, so
it is not among these. -/
def isTerminal : Opcode → Bool
  | .goto | .goto_w | .ret | .athrow | .tableswitch | .lookupswitch
  | .ireturn | .lreturn | .freturn | .dreturn | .areturn | .return_ => true
  | _ => false

/-- The conditional jump taken exactly when this one is not; a code that is no conditional jump has
none. -/
def opposite? : Opcode → Option Opcode
  | .ifeq => some .ifne
  | .ifne => some .ifeq
  | .iflt => some .ifge
  | .ifge => some .iflt
  | .ifgt => some .ifle
  | .ifle => some .ifgt
  | .if_icmpeq => some .if_icmpne
  | .if_icmpne => some .if_icmpeq
  | .if_icmplt => some .if_icmpge
  | .if_icmpge => some .if_icmplt
  | .if_icmpgt => some .if_icmple
  | .if_icmple => some .if_icmpgt
  | .if_acmpeq => some .if_acmpne
  | .if_acmpne => some .if_acmpeq
  | .ifnull => some .ifnonnull
  | .ifnonnull => some .ifnull
  | _ => none

/-- A jump that may fall through. -/
def isConditional (op : Opcode) : Bool := op.opposite?.isSome

/-- A jump whose offset takes four bytes. -/
def isFar (op : Opcode) : Bool := op = .goto_w || op = .jsr_w

/-- A call of a subroutine. -/
def isSubroutineCall (op : Opcode) : Bool := op = .jsr || op = .jsr_w

/-- A subroutine call or a return from one. -/
def isSubroutine (op : Opcode) : Bool := op.isSubroutineCall || op = .ret

end Opcode

end ClassTree
