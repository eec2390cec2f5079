import Classwright.Proofs.Code.Locals
import Classwright.Text.Modified
import Mathlib.Logic.Relation

/-!
The machine that runs code, as far as whole numbers, conditions and texts go. Numbers are words of 32
and 64 bits, conditions and characters are numbers of 32 bits, and a text is a sequence of units of
sixteen bits. A builder of text is a place in the heap, which holds what it has been given so far.
-/

namespace Classwright

/-- A value of the machine. -/
inductive Val where
  | int (i : Int32)
  | long (i : Int64)
  | null
  | text (units : List Nat)
  | builder (place : Nat)
  deriving DecidableEq, Repr

/-- The family of a value. -/
def Val.family : Val → Family
  | int _ => .int
  | long _ => .long
  | null | text _ | builder _ => .ref

namespace Machine

/-- The local variables of a frame, by slot. -/
abbrev Locals := Nat → Option Val

/-- Stores a value: a long one takes the slot after its own too, and what overlaps it is lost. -/
def Locals.set (locals : Locals) (slot : Nat) (v : Val) : Locals := fun k =>
  if k = slot then some v
  else if slot < k ∧ k < slot + v.family.width then none
  else match locals k with
    | some w => if k < slot ∧ slot < k + w.family.width then none else some w
    | none => none

structure State where
  pc : Nat
  stack : List Val
  locals : Locals
  /-- What the builders hold. -/
  heap : List (List Nat)

/-- How a method ends. -/
inductive Outcome where
  | value (v : Val)
  | void
  | zeroDivision
  deriving DecidableEq, Repr

/-- Where the machine is after an instruction, or how the method has ended with it. -/
inductive Effect where
  | next (s : State)
  | done (o : Outcome)

/-- Goes on to the next instruction with another stack. -/
def State.fall (s : State) (stack : List Val) : Effect :=
  .next { s with pc := s.pc + 1, stack := stack }

/-! ### Numbers -/

inductive Arith where
  | add | sub | mul | div | rem | xor
  deriving DecidableEq, Repr

namespace Arith

/-- An operation on words of 32 bits; none can be divided by zero. -/
def int? (op : Arith) (a b : Int32) : Option Int32 :=
  match op with
  | add => some (a + b)
  | sub => some (a - b)
  | mul => some (a * b)
  | div => if b = 0 then none else some (a / b)
  | rem => if b = 0 then none else some (a % b)
  | xor => some (a ^^^ b)

/-- An operation on words of 64 bits; none can be divided by zero. -/
def long? (op : Arith) (a b : Int64) : Option Int64 :=
  match op with
  | add => some (a + b)
  | sub => some (a - b)
  | mul => some (a * b)
  | div => if b = 0 then none else some (a / b)
  | rem => if b = 0 then none else some (a % b)
  | xor => some (a ^^^ b)

end Arith

inductive Order where
  | eq | ne | lt | ge | gt | le
  deriving DecidableEq, Repr

def Order.holds (o : Order) (a b : Int) : Bool :=
  match o with
  | eq => a == b
  | ne => a != b
  | lt => a < b
  | ge => b ≤ a
  | gt => b < a
  | le => a ≤ b

/-- The sign of a comparison. -/
def sign (a b : Int64) : Int32 := if a.toInt < b.toInt then -1 else if a = b then 0 else 1

/-! ### Instructions without operand -/

inductive Action where
  | push (v : Val)
  | dupX1 | swap
  | int (op : Arith)
  | long (op : Arith)
  | negateInt | negateLong
  | widen | narrow
  | compare
  | returnInt | returnLong | returnVoid

def actions : List (Opcode × Action) := [
  (.aconstNull, .push .null),
  (.iconstM1, .push (.int (-1))), (.iconst0, .push (.int 0)), (.iconst1, .push (.int 1)),
  (.iconst2, .push (.int 2)), (.iconst3, .push (.int 3)), (.iconst4, .push (.int 4)),
  (.iconst5, .push (.int 5)), (.lconst0, .push (.long 0)), (.lconst1, .push (.long 1)),
  (.dupX1, .dupX1), (.swap, .swap),
  (.iadd, .int .add), (.isub, .int .sub), (.imul, .int .mul), (.idiv, .int .div),
  (.irem, .int .rem), (.ixor, .int .xor),
  (.ladd, .long .add), (.lsub, .long .sub), (.lmul, .long .mul), (.ldiv, .long .div),
  (.lrem, .long .rem), (.lxor, .long .xor),
  (.ineg, .negateInt), (.lneg, .negateLong), (.i2l, .widen), (.l2i, .narrow), (.lcmp, .compare),
  (.ireturn, .returnInt), (.lreturn, .returnLong), (.returnVoid, .returnVoid)]

def Action.run (a : Action) (s : State) : Option Effect :=
  match a, s.stack with
  | push v, st => some (s.fall (v :: st))
  | dupX1, v :: w :: st => some (s.fall (v :: w :: v :: st))
  | swap, v :: w :: st => some (s.fall (w :: v :: st))
  | int op, .int j :: .int i :: st =>
    match op.int? i j with
    | some k => some (s.fall (.int k :: st))
    | none => some (.done .zeroDivision)
  | long op, .long j :: .long i :: st =>
    match op.long? i j with
    | some k => some (s.fall (.long k :: st))
    | none => some (.done .zeroDivision)
  | negateInt, .int i :: st => some (s.fall (.int (-i) :: st))
  | negateLong, .long i :: st => some (s.fall (.long (-i) :: st))
  | widen, .int i :: st => some (s.fall (.long i.toInt64 :: st))
  | narrow, .long i :: st => some (s.fall (.int i.toInt32 :: st))
  | compare, .long j :: .long i :: st => some (s.fall (.int (sign i j) :: st))
  | returnInt, .int i :: _ => some (.done (.value (.int i)))
  | returnLong, .long i :: _ => some (.done (.value (.long i)))
  | returnVoid, _ => some (.done .void)
  | _, _ => none

/-! ### Jumps -/

/-- What a jump depends on: how a number compares to zero, how two numbers compare, or nothing. -/
inductive Test where
  | zero (o : Order)
  | pair (o : Order)
  | always

def tests : List (Opcode × Test) := [
  (.ifeq, .zero .eq), (.ifne, .zero .ne), (.iflt, .zero .lt), (.ifge, .zero .ge), (.ifgt, .zero .gt),
  (.ifle, .zero .le), (.ifIcmpEq, .pair .eq), (.ifIcmpNe, .pair .ne), (.ifIcmpLt, .pair .lt),
  (.ifIcmpGe, .pair .ge), (.ifIcmpGt, .pair .gt), (.ifIcmpLe, .pair .le), (.goto, .always)]

/-- Whether a jump is taken, and what is left on the stack. -/
def Test.run (t : Test) (stack : List Val) : Option (Bool × List Val) :=
  match t, stack with
  | zero o, .int i :: st => some (o.holds i.toInt 0, st)
  | pair o, .int j :: .int i :: st => some (o.holds i.toInt j.toInt, st)
  | always, st => some (true, st)
  | _, _ => none

/-! ### Texts -/

/-- The units of a text of ASCII characters. -/
def spelled (t : Text) : List Nat := t.map UInt8.toNat

/-- The units of a text that is read from a class file. -/
def unitsOf (t : Text) : List Nat := Modified.decodeUnits [] (Modified.encode t)

/-- How an argument is turned into text. -/
inductive Reading where
  | int | long | char | bool | object
  deriving DecidableEq, Repr

/-- The descriptors of arguments that are turned into text. -/
def readings : List (Text × Reading) := [
  (Ty.int.descriptor, .int), (Ty.long.descriptor, .long), (Ty.char.descriptor, .char),
  (Ty.bool.descriptor, .bool), (Ty.object.descriptor, .object), (Ty.string.descriptor, .object)]

def Reading.text? (r : Reading) (v : Val) : Option (List Nat) :=
  match r, v with
  | int, .int i => some (spelled (Text.ofInt i.toInt))
  | long, .long i => some (spelled (Text.ofInt i.toInt))
  | char, .int i => some [(i.toInt % 0x10000).toNat]
  | bool, .int i => some (spelled (if i = 0 then "false" else "true"))
  | object, .text u => some u
  | object, .null => some (spelled "null")
  | _, _ => none

/-- Methods of the library. -/
inductive Call where
  | valueOf (r : Reading)
  | init
  | append (r : Reading)
  | toString
  | equals

def calls : List ((Opcode × MemberRef) × Call) :=
  let builder : Text := "java/lang/StringBuilder"
  let string := Ty.string.descriptor
  readings.map (fun (d, r) => ((.invokestatic,
    { cls := "java/lang/String", name := "valueOf", desc := "(" ++ d ++ ")" ++ string }), .valueOf r)) ++
  readings.map (fun (d, r) => ((.invokevirtual,
    { cls := builder, name := "append", desc := "(" ++ d ++ ")" ++ (Ty.cls builder).descriptor }),
    .append r)) ++
  [((.invokespecial, { cls := builder, name := "<init>", desc := "(" ++ string ++ ")V" }), .init),
   ((.invokevirtual, { cls := builder, name := "toString", desc := "()" ++ string }), .toString),
   ((.invokestatic,
      { cls := "java/util/Objects", name := "equals", desc := "(Ljava/lang/Object;Ljava/lang/Object;)Z" }),
    .equals)]

/-- Whether two references are to equal objects. -/
def equal? : Val → Val → Option Bool
  | .null, .null => some true
  | .null, .text _ | .text _, .null => some false
  | .text u, .text v => some (u == v)
  | _, _ => none

/-- The stack and the heap after a call. -/
def Call.run (c : Call) (stack : List Val) (heap : List (List Nat)) :
    Option (List Val × List (List Nat)) :=
  match c, stack with
  | valueOf r, v :: st => (r.text? v).map fun u => (.text u :: st, heap)
  | init, .text u :: .builder n :: st => some (st, heap.set n u)
  | append r, v :: .builder n :: st => do
    let u ← r.text? v
    let old ← heap[n]?
    some (.builder n :: st, heap.set n (old ++ u))
  | toString, .builder n :: st => heap[n]?.map fun u => (.text u :: st, heap)
  | equals, w :: v :: st => (equal? v w).map fun b => (.int (if b then 1 else 0) :: st, heap)
  | _, _ => none

/-! ### Running -/

/-- What loading a constant pushes. -/
def ofLiteral? : Literal → Option Val
  | .int i => some (.int i)
  | .long i => some (.long i)
  | .string s => some (.text (unitsOf s))
  | .float _ | .double _ => none

/-- Reads or writes a local variable. -/
def access (op : Opcode) (slot : Nat) (s : State) : Option Effect :=
  if Opcode.between .istore .astore op then
    match s.stack with
    | v :: st =>
      if v.family = op.family then
        some (.next { s with pc := s.pc + 1, stack := st, locals := s.locals.set slot v })
      else none
    | [] => none
  else
    match s.locals slot with
    | some v => if v.family = op.family then some (s.fall (v :: s.stack)) else none
    | none => none

/-- Runs an instruction. -/
def exec (c : Code) (i : Instr) (s : State) : Option Effect :=
  match i.operand with
  | .plain => (actions.lookup i.op).bind (·.run s)
  | .slot n => access i.op n.toNat s
  | .increment n by_ =>
    match s.locals n.toNat with
    | some (.int v) =>
      some (.next { s with
        pc := s.pc + 1, locals := s.locals.set n.toNat (.int (v + Int32.ofInt by_)) })
    | _ => none
  | .immediate v => some (s.fall (.int (Int32.ofInt v) :: s.stack))
  | .const v => (v.bind ofLiteral?).map fun v => s.fall (v :: s.stack)
  | .member r _ _ => do
    let call ← calls.lookup (i.op, r)
    let (st, heap) ← call.run s.stack s.heap
    some (.next { s with pc := s.pc + 1, stack := st, heap := heap })
  | .cls name =>
    if i.op = .new ∧ name = "java/lang/StringBuilder" then
      some (.next { s with
        pc := s.pc + 1, stack := .builder s.heap.length :: s.stack, heap := s.heap ++ [[]] })
    else none
  | .label l => do
    let test ← tests.lookup i.op
    let (jumps, st) ← test.run s.stack
    if jumps then (c.labelIndex? l).map fun k => .next { s with pc := k, stack := st }
    else some (s.fall st)

/-- One step of the machine. -/
def step (c : Code) (s : State) : Option Effect := c.instrs[s.pc]?.bind (exec c · s)

/-- The machine gets from one state to another. -/
def Steps (c : Code) : State → State → Prop :=
  Relation.ReflTransGen fun s s' => step c s = some (.next s')

/-- The machine ends a method. -/
def Ends (c : Code) (s : State) (o : Outcome) : Prop :=
  ∃ s', Steps c s s' ∧ step c s' = some (.done o)

end Machine

end Classwright
