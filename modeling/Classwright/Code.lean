import Classwright.Instr
import Classwright.Ty.Descriptor
import Classwright.Value
import Classwright.Word

/-!
Code of a method while it is written. Each instruction goes to the end, and the depth of the operand
stack is followed along: after a jump away the code is unreachable until a label is bound that some
jump leads to, and all jumps to a label have to agree with the code before it on the depth there.
The first disagreement is kept as the fault of the code.
-/

namespace Classwright

inductive CodeError where
  | boundTwice (l : Label)
  | labelMismatch (l : Label) (expected depth : Int)
  | jumpMismatch (l : Label) (expected depth : Int)
  | underflow (index : Nat) (op : Opcode) (depth pop : Int)
  deriving DecidableEq, Repr

namespace CodeError

def message : CodeError → Text
  | boundTwice l => "label " ++ Text.ofNat l ++ " bound twice"
  | labelMismatch l d e =>
    "stack depth mismatch at label " ++ Text.ofNat l ++ ": " ++ Text.ofInt d ++ " vs " ++ Text.ofInt e
  | jumpMismatch l d e =>
    "stack depth mismatch at jump to " ++ Text.ofNat l ++ ": " ++ Text.ofInt d ++ " vs "
      ++ Text.ofInt e
  | underflow i op d n =>
    "stack underflow at " ++ Text.ofNat i ++ " (" ++ op.name ++ "): depth " ++ Text.ofInt d
      ++ ", pop " ++ Text.ofInt n

end CodeError

/-- What is known of a label: the instruction that it stands before, once it is bound, and the depth
of the stack there, −1 as long as no jump or code has settled it. -/
structure Mark where
  index : Option Nat := none
  depth : Int := -1
  deriving DecidableEq, Repr

structure Code where
  instrs : Array Instr := #[]
  marks : Array Mark := #[]
  depth : Int := 0
  maxDepth : Int := 0
  /-- The next instruction cannot be reached. -/
  dead : Bool := false
  fault : Option CodeError := none
  deriving Repr

namespace Code

def empty : Code := {}

/-- The code with a fault, unless it has one already. -/
def fail (c : Code) (e : CodeError) : Code :=
  { c with fault := c.fault.or (some e) }

/-- A new label, and the code that has it. -/
def newLabel (c : Code) : Label × Code :=
  (c.marks.size, { c with marks := c.marks.push {} })

/-- Puts a label before the next instruction. -/
def bind (c : Code) (l : Label) : Code :=
  match c.marks[l]? with
  | none => c
  | some m =>
    if m.index.isSome then c.fail (.boundTwice l)
    else
      let index := some c.instrs.size
      if c.dead then
        let marks := c.marks.setIfInBounds l { m with index := index }
        if 0 ≤ m.depth then { c with marks := marks, depth := m.depth, dead := false }
        else { c with marks := marks, depth := 0 }
      else
        let marks := c.marks.setIfInBounds l ⟨index, c.depth⟩
        let bound := { c with marks := marks }
        if 0 ≤ m.depth ∧ m.depth ≠ c.depth then bound.fail (.labelMismatch l m.depth c.depth)
        else bound

/-- The instruction that a label stands before. -/
def labelIndex? (c : Code) (l : Label) : Option Nat := c.marks[l]?.bind (·.index)

/-- Makes a label agree with a jump from the present depth. -/
def reach (c : Code) (l : Label) : Code :=
  match c.marks[l]? with
  | none => c
  | some m =>
    if m.depth < 0 then { c with marks := c.marks.setIfInBounds l { m with depth := c.depth } }
    else if m.depth = c.depth then c
    else c.fail (.jumpMismatch l m.depth c.depth)

/-- Appends an instruction. One that cannot be reached is not checked. -/
def emit (c : Code) (i : Instr) : Code :=
  if c.dead then
    { c with instrs := c.instrs.push i, depth := max 0 (Word.wrap (c.depth + i.push - i.pop)) }
  else
    let fault := if c.depth < i.pop then
        c.fault.or (some (.underflow c.instrs.size i.op c.depth i.pop))
      else c.fault
    let depth := Word.wrap (c.depth + i.push - i.pop)
    let after := { c with
      instrs := c.instrs.push i, depth := depth, maxDepth := max c.maxDepth depth, fault := fault }
    let after := match i.target? with
      | some l => after.reach l
      | none => after
    if i.op.isTerminal then { after with dead := true } else after

/-! ### Single instructions -/

/-- An instruction without operand. -/
def op (c : Code) (op : Opcode) : Code := c.emit (.ofParts op {})

def jump (c : Code) (op : Opcode) (l : Label) : Code := c.emit (.ofParts op { label := l })

/-- Pushes a whole number in the shortest way. -/
def int (c : Code) (v : Int32) : Code :=
  let i := v.toInt
  if -1 ≤ i ∧ i ≤ 5 then c.op ⟨UInt8.ofNat (3 + i).toNat⟩
  else if -128 ≤ i ∧ i ≤ 127 then c.emit ⟨.bipush, .immediate i⟩
  else if -32768 ≤ i ∧ i ≤ 32767 then c.emit ⟨.sipush, .immediate i⟩
  else c.emit ⟨.ldc, .const (some (.int v))⟩

def long (c : Code) (v : Int64) : Code :=
  if v = 0 then c.op .lconst0
  else if v = 1 then c.op .lconst1
  else c.emit ⟨.ldc2W, .const (some (.long v))⟩

def float (c : Code) (v : Single) : Code :=
  match v.small? with
  | some n => c.op ⟨Opcode.fconst0.code + UInt8.ofNat n⟩
  | none => c.emit ⟨.ldc, .const (some (.float v))⟩

def double (c : Code) (v : Double) : Code :=
  match v.small? with
  | some n => c.op ⟨Opcode.dconst0.code + UInt8.ofNat n⟩
  | none => c.emit ⟨.ldc2W, .const (some (.double v))⟩

def string (c : Code) (s : Text) : Code := c.emit ⟨.ldc, .const (some (.string s))⟩

/-- Pushes a value as one of a type. -/
def const (c : Code) (t : Ty) : Value → Code
  | .null => c.op .aconstNull
  | .bool b => c.op (if b then .iconst1 else .iconst0)
  | .int i =>
    match t with
    | .prim .long => c.long i
    | .prim .float => c.float (.ofInt i.toInt)
    | .prim .double => c.double (.ofInt i.toInt)
    | _ => c.int i.toInt32
  | .float x =>
    match t with
    | .prim .float => c.float x.toSingle
    | _ => c.double x
  | .str s => c.string s

def load (c : Code) (t : Ty) (slot : Int) : Code :=
  c.emit ⟨Opcode.iload.forType t, .slot slot⟩

def store (c : Code) (t : Ty) (slot : Int) : Code :=
  c.emit ⟨Opcode.istore.forType t, .slot slot⟩

/-- Adds to a local variable. -/
def inc (c : Code) (slot by_ : Int) : Code := c.emit ⟨.iinc, .increment slot by_⟩

def ret (c : Code) (t : Ty) : Code :=
  c.op (if t.isVoid then .returnVoid else Opcode.ireturn.forType t)

/-- Drops a value of a type. -/
def drop (c : Code) (t : Ty) : Code :=
  match t.size with
  | 0 => c
  | 2 => c.op .pop2
  | _ => c.op .pop

/-- Copies the value of a type on top and puts the copy under some slots. -/
def dup (c : Code) (t : Ty) (under : Int) : Code :=
  let first : Opcode := if t.size = 2 then .dup2 else .dup
  c.op ⟨first.code + if under = 1 then 1 else if under = 2 then 2 else 0⟩

/-- An instruction on a class. -/
def type (c : Code) (op : Opcode) (name : Text) : Code :=
  c.emit (.ofParts op { ref := { cls := name } })

/-! ### Members -/

inductive MemberError where
  | field (cls name : Text) (cause : DescriptorError)
  | method (cls name : Text) (cause : DescriptorError)
  | notField (op : Opcode)
  | notInvoke (op : Opcode)
  deriving DecidableEq, Repr

def MemberError.message : MemberError → Text
  | .field cls name e => "field " ++ cls ++ "." ++ name ++ ": " ++ e.message
  | .method cls name e => "method " ++ cls ++ "." ++ name ++ ": " ++ e.message
  | .notField op => "not a field op: " ++ op.name
  | .notInvoke op => "not an invoke op: " ++ op.name

/-- Reads or writes a field. -/
def field (c : Code) (op : Opcode) (r : MemberRef) : Except MemberError Code :=
  match Ty.ofDescriptor r.desc with
  | .error e => .error (.field r.cls r.name e)
  | .ok t =>
    if op = .getstatic then .ok (c.emit ⟨op, .member r 0 t.size⟩)
    else if op = .putstatic then .ok (c.emit ⟨op, .member r t.size 0⟩)
    else if op = .getfield then .ok (c.emit ⟨op, .member r 1 t.size⟩)
    else if op = .putfield then .ok (c.emit ⟨op, .member r (1 + t.size) 0⟩)
    else .error (.notField op)

/-- Calls a method; all but static ones take their receiver too. -/
def invoke (c : Code) (op : Opcode) (r : MemberRef) : Except MemberError Code :=
  match Signature.ofDescriptor r.desc with
  | .error e => .error (.method r.cls r.name e)
  | .ok s =>
    if op = .invokestatic then .ok (c.emit ⟨op, .member r s.argSize s.result.size⟩)
    else if op = .invokevirtual ∨ op = .invokespecial then
      .ok (c.emit ⟨op, .member r (s.argSize + 1) s.result.size⟩)
    else if op = .invokeinterface then
      .ok (c.emit ⟨op, .member { r with isInterface := true } (s.argSize + 1) s.result.size⟩)
    else .error (.notInvoke op)

end Code

end Classwright
