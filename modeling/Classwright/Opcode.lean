import Classwright.Ty

/-!
Opcodes of the stack machine: their numbers, names and fixed effects on the operand stack. Opcodes
come in families, one member for each kind of value, at fixed distances from the one for integers.
-/

namespace Classwright

/-- An instruction of the machine, without its operands. -/
structure Opcode where
  code : UInt8
  deriving DecidableEq, Repr, Inhabited

namespace Opcode

abbrev nop : Opcode := ⟨0x00⟩
abbrev aconstNull : Opcode := ⟨0x01⟩
abbrev iconstM1 : Opcode := ⟨0x02⟩
abbrev iconst0 : Opcode := ⟨0x03⟩
abbrev iconst1 : Opcode := ⟨0x04⟩
abbrev iconst2 : Opcode := ⟨0x05⟩
abbrev iconst3 : Opcode := ⟨0x06⟩
abbrev iconst4 : Opcode := ⟨0x07⟩
abbrev iconst5 : Opcode := ⟨0x08⟩
abbrev lconst0 : Opcode := ⟨0x09⟩
abbrev lconst1 : Opcode := ⟨0x0A⟩
abbrev fconst0 : Opcode := ⟨0x0B⟩
abbrev fconst1 : Opcode := ⟨0x0C⟩
abbrev fconst2 : Opcode := ⟨0x0D⟩
abbrev dconst0 : Opcode := ⟨0x0E⟩
abbrev dconst1 : Opcode := ⟨0x0F⟩
abbrev bipush : Opcode := ⟨0x10⟩
abbrev sipush : Opcode := ⟨0x11⟩
abbrev ldc : Opcode := ⟨0x12⟩
abbrev ldcW : Opcode := ⟨0x13⟩
abbrev ldc2W : Opcode := ⟨0x14⟩
abbrev iload : Opcode := ⟨0x15⟩
abbrev lload : Opcode := ⟨0x16⟩
abbrev fload : Opcode := ⟨0x17⟩
abbrev dload : Opcode := ⟨0x18⟩
abbrev aload : Opcode := ⟨0x19⟩
abbrev iload0 : Opcode := ⟨0x1A⟩
abbrev lload0 : Opcode := ⟨0x1E⟩
abbrev fload0 : Opcode := ⟨0x22⟩
abbrev dload0 : Opcode := ⟨0x26⟩
abbrev aload0 : Opcode := ⟨0x2A⟩
abbrev istore : Opcode := ⟨0x36⟩
abbrev lstore : Opcode := ⟨0x37⟩
abbrev fstore : Opcode := ⟨0x38⟩
abbrev dstore : Opcode := ⟨0x39⟩
abbrev astore : Opcode := ⟨0x3A⟩
abbrev istore0 : Opcode := ⟨0x3B⟩
abbrev lstore0 : Opcode := ⟨0x3F⟩
abbrev fstore0 : Opcode := ⟨0x43⟩
abbrev dstore0 : Opcode := ⟨0x47⟩
abbrev astore0 : Opcode := ⟨0x4B⟩
abbrev pop : Opcode := ⟨0x57⟩
abbrev pop2 : Opcode := ⟨0x58⟩
abbrev dup : Opcode := ⟨0x59⟩
abbrev dupX1 : Opcode := ⟨0x5A⟩
abbrev dupX2 : Opcode := ⟨0x5B⟩
abbrev dup2 : Opcode := ⟨0x5C⟩
abbrev dup2X1 : Opcode := ⟨0x5D⟩
abbrev dup2X2 : Opcode := ⟨0x5E⟩
abbrev swap : Opcode := ⟨0x5F⟩
abbrev iadd : Opcode := ⟨0x60⟩
abbrev ladd : Opcode := ⟨0x61⟩
abbrev fadd : Opcode := ⟨0x62⟩
abbrev dadd : Opcode := ⟨0x63⟩
abbrev isub : Opcode := ⟨0x64⟩
abbrev lsub : Opcode := ⟨0x65⟩
abbrev fsub : Opcode := ⟨0x66⟩
abbrev dsub : Opcode := ⟨0x67⟩
abbrev imul : Opcode := ⟨0x68⟩
abbrev lmul : Opcode := ⟨0x69⟩
abbrev fmul : Opcode := ⟨0x6A⟩
abbrev dmul : Opcode := ⟨0x6B⟩
abbrev idiv : Opcode := ⟨0x6C⟩
abbrev ldiv : Opcode := ⟨0x6D⟩
abbrev fdiv : Opcode := ⟨0x6E⟩
abbrev ddiv : Opcode := ⟨0x6F⟩
abbrev irem : Opcode := ⟨0x70⟩
abbrev lrem : Opcode := ⟨0x71⟩
abbrev frem : Opcode := ⟨0x72⟩
abbrev drem : Opcode := ⟨0x73⟩
abbrev ineg : Opcode := ⟨0x74⟩
abbrev lneg : Opcode := ⟨0x75⟩
abbrev fneg : Opcode := ⟨0x76⟩
abbrev dneg : Opcode := ⟨0x77⟩
abbrev ixor : Opcode := ⟨0x82⟩
abbrev lxor : Opcode := ⟨0x83⟩
abbrev iinc : Opcode := ⟨0x84⟩
abbrev i2l : Opcode := ⟨0x85⟩
abbrev i2f : Opcode := ⟨0x86⟩
abbrev i2d : Opcode := ⟨0x87⟩
abbrev l2i : Opcode := ⟨0x88⟩
abbrev l2f : Opcode := ⟨0x89⟩
abbrev l2d : Opcode := ⟨0x8A⟩
abbrev f2i : Opcode := ⟨0x8B⟩
abbrev f2l : Opcode := ⟨0x8C⟩
abbrev f2d : Opcode := ⟨0x8D⟩
abbrev d2i : Opcode := ⟨0x8E⟩
abbrev d2l : Opcode := ⟨0x8F⟩
abbrev d2f : Opcode := ⟨0x90⟩
abbrev i2b : Opcode := ⟨0x91⟩
abbrev i2c : Opcode := ⟨0x92⟩
abbrev i2s : Opcode := ⟨0x93⟩
abbrev lcmp : Opcode := ⟨0x94⟩
abbrev fcmpl : Opcode := ⟨0x95⟩
abbrev fcmpg : Opcode := ⟨0x96⟩
abbrev dcmpl : Opcode := ⟨0x97⟩
abbrev dcmpg : Opcode := ⟨0x98⟩
abbrev ifeq : Opcode := ⟨0x99⟩
abbrev ifne : Opcode := ⟨0x9A⟩
abbrev iflt : Opcode := ⟨0x9B⟩
abbrev ifge : Opcode := ⟨0x9C⟩
abbrev ifgt : Opcode := ⟨0x9D⟩
abbrev ifle : Opcode := ⟨0x9E⟩
abbrev ifIcmpEq : Opcode := ⟨0x9F⟩
abbrev ifIcmpNe : Opcode := ⟨0xA0⟩
abbrev ifIcmpLt : Opcode := ⟨0xA1⟩
abbrev ifIcmpGe : Opcode := ⟨0xA2⟩
abbrev ifIcmpGt : Opcode := ⟨0xA3⟩
abbrev ifIcmpLe : Opcode := ⟨0xA4⟩
abbrev ifAcmpEq : Opcode := ⟨0xA5⟩
abbrev ifAcmpNe : Opcode := ⟨0xA6⟩
abbrev goto : Opcode := ⟨0xA7⟩
abbrev ireturn : Opcode := ⟨0xAC⟩
abbrev lreturn : Opcode := ⟨0xAD⟩
abbrev freturn : Opcode := ⟨0xAE⟩
abbrev dreturn : Opcode := ⟨0xAF⟩
abbrev areturn : Opcode := ⟨0xB0⟩
abbrev returnVoid : Opcode := ⟨0xB1⟩
abbrev getstatic : Opcode := ⟨0xB2⟩
abbrev putstatic : Opcode := ⟨0xB3⟩
abbrev getfield : Opcode := ⟨0xB4⟩
abbrev putfield : Opcode := ⟨0xB5⟩
abbrev invokevirtual : Opcode := ⟨0xB6⟩
abbrev invokespecial : Opcode := ⟨0xB7⟩
abbrev invokestatic : Opcode := ⟨0xB8⟩
abbrev invokeinterface : Opcode := ⟨0xB9⟩
abbrev new : Opcode := ⟨0xBB⟩
abbrev athrow : Opcode := ⟨0xBF⟩
abbrev checkcast : Opcode := ⟨0xC0⟩
abbrev instanceof : Opcode := ⟨0xC1⟩
abbrev wide : Opcode := ⟨0xC4⟩
abbrev ifnull : Opcode := ⟨0xC6⟩
abbrev ifnonnull : Opcode := ⟨0xC7⟩

/-- Name and fixed effect of an opcode: the slots that it takes and those that it leaves. -/
structure Info where
  op : Opcode
  name : Text
  pop : Nat
  push : Nat

/-- The opcodes with names. Members and calls take and leave what their descriptors say. -/
def table : List Info := [
  ⟨nop, "nop", 0, 0⟩,
  ⟨aconstNull, "aconst_null", 0, 1⟩,
  ⟨iconstM1, "iconst_m1", 0, 1⟩,
  ⟨iconst0, "iconst_0", 0, 1⟩,
  ⟨iconst1, "iconst_1", 0, 1⟩,
  ⟨iconst2, "iconst_2", 0, 1⟩,
  ⟨iconst3, "iconst_3", 0, 1⟩,
  ⟨iconst4, "iconst_4", 0, 1⟩,
  ⟨iconst5, "iconst_5", 0, 1⟩,
  ⟨lconst0, "lconst_0", 0, 2⟩,
  ⟨lconst1, "lconst_1", 0, 2⟩,
  ⟨fconst0, "fconst_0", 0, 1⟩,
  ⟨fconst1, "fconst_1", 0, 1⟩,
  ⟨fconst2, "fconst_2", 0, 1⟩,
  ⟨dconst0, "dconst_0", 0, 2⟩,
  ⟨dconst1, "dconst_1", 0, 2⟩,
  ⟨bipush, "bipush", 0, 1⟩,
  ⟨sipush, "sipush", 0, 1⟩,
  ⟨ldc, "ldc", 0, 1⟩,
  ⟨ldcW, "ldc_w", 0, 1⟩,
  ⟨ldc2W, "ldc2_w", 0, 2⟩,
  ⟨iload, "iload", 0, 1⟩,
  ⟨lload, "lload", 0, 2⟩,
  ⟨fload, "fload", 0, 1⟩,
  ⟨dload, "dload", 0, 2⟩,
  ⟨aload, "aload", 0, 1⟩,
  ⟨istore, "istore", 1, 0⟩,
  ⟨lstore, "lstore", 2, 0⟩,
  ⟨fstore, "fstore", 1, 0⟩,
  ⟨dstore, "dstore", 2, 0⟩,
  ⟨astore, "astore", 1, 0⟩,
  ⟨pop, "pop", 1, 0⟩,
  ⟨pop2, "pop2", 2, 0⟩,
  ⟨dup, "dup", 1, 2⟩,
  ⟨dupX1, "dup_x1", 2, 3⟩,
  ⟨dupX2, "dup_x2", 3, 4⟩,
  ⟨dup2, "dup2", 2, 4⟩,
  ⟨dup2X1, "dup2_x1", 3, 5⟩,
  ⟨dup2X2, "dup2_x2", 4, 6⟩,
  ⟨swap, "swap", 2, 2⟩,
  ⟨iadd, "iadd", 2, 1⟩,
  ⟨ladd, "ladd", 4, 2⟩,
  ⟨fadd, "fadd", 2, 1⟩,
  ⟨dadd, "dadd", 4, 2⟩,
  ⟨isub, "isub", 2, 1⟩,
  ⟨lsub, "lsub", 4, 2⟩,
  ⟨fsub, "fsub", 2, 1⟩,
  ⟨dsub, "dsub", 4, 2⟩,
  ⟨imul, "imul", 2, 1⟩,
  ⟨lmul, "lmul", 4, 2⟩,
  ⟨fmul, "fmul", 2, 1⟩,
  ⟨dmul, "dmul", 4, 2⟩,
  ⟨idiv, "idiv", 2, 1⟩,
  ⟨ldiv, "ldiv", 4, 2⟩,
  ⟨fdiv, "fdiv", 2, 1⟩,
  ⟨ddiv, "ddiv", 4, 2⟩,
  ⟨irem, "irem", 2, 1⟩,
  ⟨lrem, "lrem", 4, 2⟩,
  ⟨frem, "frem", 2, 1⟩,
  ⟨drem, "drem", 4, 2⟩,
  ⟨ineg, "ineg", 1, 1⟩,
  ⟨lneg, "lneg", 2, 2⟩,
  ⟨fneg, "fneg", 1, 1⟩,
  ⟨dneg, "dneg", 2, 2⟩,
  ⟨ixor, "ixor", 2, 1⟩,
  ⟨lxor, "lxor", 4, 2⟩,
  ⟨iinc, "iinc", 0, 0⟩,
  ⟨i2l, "i2l", 1, 2⟩,
  ⟨i2f, "i2f", 1, 1⟩,
  ⟨i2d, "i2d", 1, 2⟩,
  ⟨l2i, "l2i", 2, 1⟩,
  ⟨l2f, "l2f", 2, 1⟩,
  ⟨l2d, "l2d", 2, 2⟩,
  ⟨f2i, "f2i", 1, 1⟩,
  ⟨f2l, "f2l", 1, 2⟩,
  ⟨f2d, "f2d", 1, 2⟩,
  ⟨d2i, "d2i", 2, 1⟩,
  ⟨d2l, "d2l", 2, 2⟩,
  ⟨d2f, "d2f", 2, 1⟩,
  ⟨i2b, "i2b", 1, 1⟩,
  ⟨i2c, "i2c", 1, 1⟩,
  ⟨i2s, "i2s", 1, 1⟩,
  ⟨lcmp, "lcmp", 4, 1⟩,
  ⟨fcmpl, "fcmpl", 2, 1⟩,
  ⟨fcmpg, "fcmpg", 2, 1⟩,
  ⟨dcmpl, "dcmpl", 4, 1⟩,
  ⟨dcmpg, "dcmpg", 4, 1⟩,
  ⟨ifeq, "ifeq", 1, 0⟩,
  ⟨ifne, "ifne", 1, 0⟩,
  ⟨iflt, "iflt", 1, 0⟩,
  ⟨ifge, "ifge", 1, 0⟩,
  ⟨ifgt, "ifgt", 1, 0⟩,
  ⟨ifle, "ifle", 1, 0⟩,
  ⟨ifIcmpEq, "if_icmpeq", 2, 0⟩,
  ⟨ifIcmpNe, "if_icmpne", 2, 0⟩,
  ⟨ifIcmpLt, "if_icmplt", 2, 0⟩,
  ⟨ifIcmpGe, "if_icmpge", 2, 0⟩,
  ⟨ifIcmpGt, "if_icmpgt", 2, 0⟩,
  ⟨ifIcmpLe, "if_icmple", 2, 0⟩,
  ⟨ifAcmpEq, "if_acmpeq", 2, 0⟩,
  ⟨ifAcmpNe, "if_acmpne", 2, 0⟩,
  ⟨goto, "goto", 0, 0⟩,
  ⟨ireturn, "ireturn", 1, 0⟩,
  ⟨lreturn, "lreturn", 2, 0⟩,
  ⟨freturn, "freturn", 1, 0⟩,
  ⟨dreturn, "dreturn", 2, 0⟩,
  ⟨areturn, "areturn", 1, 0⟩,
  ⟨returnVoid, "return", 0, 0⟩,
  ⟨getstatic, "getstatic", 0, 0⟩,
  ⟨putstatic, "putstatic", 0, 0⟩,
  ⟨getfield, "getfield", 0, 0⟩,
  ⟨putfield, "putfield", 0, 0⟩,
  ⟨invokevirtual, "invokevirtual", 0, 0⟩,
  ⟨invokespecial, "invokespecial", 0, 0⟩,
  ⟨invokestatic, "invokestatic", 0, 0⟩,
  ⟨invokeinterface, "invokeinterface", 0, 0⟩,
  ⟨new, "new", 0, 1⟩,
  ⟨athrow, "athrow", 1, 0⟩,
  ⟨checkcast, "checkcast", 1, 1⟩,
  ⟨instanceof, "instanceof", 1, 1⟩,
  ⟨ifnull, "ifnull", 1, 0⟩,
  ⟨ifnonnull, "ifnonnull", 1, 0⟩]

def info? (op : Opcode) : Option Info := table.find? (·.op == op)

def name (op : Opcode) : Text :=
  match op.info? with
  | some i => i.name
  | none => "op(" ++ Text.ofNat op.code.toNat ++ ")"

/-- The slots that an opcode takes and those that it leaves. -/
def effect (op : Opcode) : Nat × Nat :=
  match op.info? with
  | some i => (i.pop, i.push)
  | none => (0, 0)

def between (lo hi op : Opcode) : Bool := lo.code ≤ op.code && op.code ≤ hi.code

/-- Branches, with a condition or without. -/
def isJump (op : Opcode) : Bool := between ifeq goto op || op == ifnull || op == ifnonnull

/-- Opcodes after which control does not go on to the next instruction. -/
def isTerminal (op : Opcode) : Bool :=
  op == goto || op == athrow || between ireturn returnVoid op

/-- The branch on the opposite condition. -/
def negate (op : Opcode) : Opcode :=
  if between ifeq ifAcmpNe op then
    if (op.code - ifeq.code) % 2 = 0 then ⟨op.code + 1⟩ else ⟨op.code - 1⟩
  else if op = ifnull then ifnonnull
  else if op = ifnonnull then ifnull
  else op

/-- Opcodes whose operand is a member of a class. -/
def isMember (op : Opcode) : Bool := between getstatic invokeinterface op

/-- Loads and stores of local variables. -/
def isLocal (op : Opcode) : Bool := between iload aload op || between istore astore op

/-- What stands beside an opcode in an instruction. -/
inductive Shape where
  | plain
  | slot
  | increment
  | immediate
  | const
  | member
  | cls
  | label
  deriving DecidableEq, Repr

def shape (op : Opcode) : Shape :=
  if op.isLocal then .slot
  else if op = iinc then .increment
  else if op = bipush ∨ op = sipush then .immediate
  else if op = ldc ∨ op = ldcW ∨ op = ldc2W then .const
  else if op.isMember then .member
  else if op = new ∨ op = checkcast ∨ op = instanceof then .cls
  else if op.isJump then .label
  else .plain

/-- The member for values of a type in the family of an integer opcode; references come last. -/
def forType (op : Opcode) (t : Ty) : Opcode :=
  match t with
  | .prim .long => ⟨op.code + 1⟩
  | .prim .float => ⟨op.code + 2⟩
  | .prim .double => ⟨op.code + 3⟩
  | t => if t.isReference then ⟨op.code + 4⟩ else op

/-- The member for values of a type in the family of an arithmetic opcode, which has none for
references. -/
def forNumber (op : Opcode) (t : Ty) : Opcode :=
  if t.isReference then op else op.forType t

end Opcode

end Classwright
