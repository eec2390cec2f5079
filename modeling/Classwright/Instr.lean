import Classwright.Floating
import Classwright.Opcode

/-!
Instructions: an opcode and the operand of its shape. Labels stand for places in the code and
constants for themselves; positions and pool indices come later.
-/

namespace Classwright

/-- A constant that an instruction loads. -/
inductive Literal where
  | int (v : Int32)
  | float (v : Single)
  | long (v : Int64)
  | double (v : Double)
  | string (s : Text)
  deriving DecidableEq, Repr

/-- A member of a class. -/
structure MemberRef where
  cls : Text := []
  name : Text := []
  desc : Text := []
  isInterface : Bool := false
  deriving DecidableEq, Repr

/-- A place in the code, by number. -/
abbrev Label := Nat

inductive Operand where
  | plain
  /-- A local variable. -/
  | slot (n : Int)
  /-- A local variable and what is added to it. -/
  | increment (slot by_ : Int)
  | immediate (v : Int)
  /-- The constant to load, if there is one. -/
  | const (value : Option Literal)
  /-- A member, with the slots that its use takes and leaves. -/
  | member (ref : MemberRef) (pop push : Int)
  | cls (name : Text)
  | label (l : Label)
  deriving DecidableEq, Repr

structure Instr where
  op : Opcode
  operand : Operand
  deriving DecidableEq, Repr

namespace Instr

/-- Everything that may stand beside an opcode. -/
structure Parts where
  int : Int := 0
  inc : Int := 0
  const : Option Literal := none
  ref : MemberRef := {}
  label : Label := 0
  pop : Int := 0
  push : Int := 0

/-- The instruction of an opcode with those parts that belong to its shape. -/
def ofParts (op : Opcode) (p : Parts) : Instr :=
  ⟨op, match op.shape with
    | .plain => .plain
    | .slot => .slot p.int
    | .increment => .increment p.int p.inc
    | .immediate => .immediate p.int
    | .const => .const p.const
    | .member => .member p.ref p.pop p.push
    | .cls => .cls p.ref.cls
    | .label => .label p.label⟩

/-- The slots that an instruction takes from the stack. -/
def pop (i : Instr) : Int :=
  match i.operand with
  | .member _ n _ => n
  | _ => i.op.effect.1

/-- The slots that an instruction leaves on the stack. -/
def push (i : Instr) : Int :=
  match i.operand with
  | .member _ _ n => n
  | _ => i.op.effect.2

/-- Where an instruction may jump to. -/
def target? (i : Instr) : Option Label :=
  match i.operand with
  | .label l => some l
  | _ => none

end Instr

end Classwright
