import Classwright.Code

/-!
The control flow graph of finished code. A search from the first instruction follows jumps and falls
through, and gives each instruction the depth of the stack that it is reached with. All ways to an
instruction have to agree on it, no way may take more than there is or run past the end. The greatest
depth is what the frame of the method has to hold.
-/

namespace Classwright

/-- What may be wrong with a step from one instruction to another. -/
inductive StepFault where
  | pastEnd
  | mismatch (index : Nat) (depth now : Int)
  /-- The jump leads to a label that is not bound. -/
  | nowhere (l : Label)
  deriving DecidableEq, Repr

def StepFault.message : StepFault → Text
  | .pastEnd => "control falls off the end of code"
  | .mismatch i d e =>
    "stack depth mismatch at " ++ Text.ofNat i ++ ": " ++ Text.ofInt d ++ " vs " ++ Text.ofInt e
  | .nowhere l => "jump to unbound label " ++ Text.ofNat l

inductive FlowError where
  | unbound (l : Label)
  | underflow (index : Nat) (op : Opcode) (depth pop : Int)
  | jump (index : Nat) (cause : StepFault)
  | fall (index : Nat) (op : Opcode) (cause : StepFault)
  deriving DecidableEq, Repr

namespace FlowError

def message : FlowError → Text
  | unbound l => "jump to unbound label " ++ Text.ofNat l
  | underflow i op d n => (CodeError.underflow i op d n).message
  | jump i e => "jump at " ++ Text.ofNat i ++ ": " ++ e.message
  | fall i op e => "at " ++ Text.ofNat i ++ " (" ++ op.name ++ "): " ++ e.message

end FlowError

/-- A search: the depths found so far, the instructions still to look at in ascending order, and the
greatest depth. -/
structure Flow where
  depths : Array (Option Int)
  pending : List Nat
  maxDepth : Int
  deriving Repr

namespace Flow

/-- A number put in its place of an ascending list. -/
def insertSorted (i : Nat) : List Nat → List Nat
  | [] => [i]
  | j :: js => if i < j then i :: j :: js else j :: insertSorted i js

/-- Reaches an instruction with a depth. -/
def visit (f : Flow) (i : Nat) (d : Int) : Except StepFault Flow :=
  match f.depths[i]? with
  | none => .error .pastEnd
  | some (some e) => if e = d then .ok f else .error (.mismatch i e d)
  | some none =>
    .ok { f with depths := f.depths.setIfInBounds i (some d), pending := insertSorted i f.pending }

/-- Follows the jump of an instruction. -/
def visitTarget (c : Code) (f : Flow) (i : Instr) (d : Int) : Except StepFault Flow :=
  match i.target? with
  | none => .ok f
  | some l =>
    match c.labelIndex? l with
    | none => .error (.nowhere l)
    | some k => f.visit k d

/-- Goes on from an instruction that has been reached with a depth. -/
def leave (c : Code) (f : Flow) (i : Nat) (instr : Instr) (d : Int) : Except FlowError Flow :=
  if d < instr.pop then .error (.underflow i instr.op d instr.pop)
  else
    let d := Word.wrap (d + instr.push - instr.pop)
    let f := { f with maxDepth := max f.maxDepth d }
    match visitTarget c f instr d with
    | .error e => .error (.jump i e)
    | .ok f =>
      if instr.op.isTerminal then .ok f
      else match f.visit (i + 1) d with
        | .error e => .error (.fall i instr.op e)
        | .ok f => .ok f

/-- Looks at the first pending instruction, as often as the fuel lasts. -/
def run (c : Code) : Nat → Flow → Except FlowError Flow
  | 0, f => .ok f
  | fuel + 1, f =>
    match f.pending with
    | [] => .ok f
    | i :: rest =>
      match c.instrs[i]?, f.depths[i]? with
      | some instr, some (some d) =>
        match leave c { f with pending := rest } i instr d with
        | .error e => .error e
        | .ok f => run c fuel f
      | _, _ => .ok f

end Flow

namespace Code

/-- The first label that some jump expects a depth at and that is not bound. -/
def unboundLabel? (c : Code) : Option Label :=
  c.marks.findIdx? fun m => m.index.isNone && m.depth != -1

/-- The greatest depth of the stack on any way through the code. Each instruction is looked at once,
so their number is fuel enough. -/
def analyze (c : Code) : Except FlowError Int :=
  if c.instrs.isEmpty then .ok 0
  else match c.unboundLabel? with
    | some l => .error (.unbound l)
    | none =>
      let start : Flow := ⟨(Array.replicate c.instrs.size none).setIfInBounds 0 (some 0), [0], 0⟩
      (Flow.run c c.instrs.size start).map (·.maxDepth)

end Code

end Classwright
