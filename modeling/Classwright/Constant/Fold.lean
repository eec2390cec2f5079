import Classwright.Constant.Literal
import Classwright.Floating.Power
import Classwright.Syntax

/-!
Expressions of literals as constants. An operator is applied as the program would apply it when it
runs; an operation that would fail there, or that has no meaning for its operands, is left as it is.
-/

namespace Classwright

namespace Constant

def foldUnary? (op : UnaryOp) (a : Constant) : Option Constant :=
  match op with
  | .not =>
    match a.value with
    | .bool b => some (ofBool !b)
    | _ => none
  | .plus => (a.type.promote? a.type).map a.widen
  | .minus => do
    let p ← a.type.promote? a.type
    match (a.widen p).value with
    | .int i => some (ofInt p (-i))
    | .float x => some (ofDouble p x.neg)
    | _ => none
  | .percent => none

/-- Whether two constants are equal, if they can be compared. -/
def foldEqual? (a b : Constant) : Option Bool :=
  match a.value, b.value with
  | .null, .null => if a.type.isReference && b.type.isReference then some true else none
  | .null, _ | _, .null => if a.type.isReference && b.type.isReference then some false else none
  | .bool x, .bool y => some (x == y)
  | .str s, .str t => some (s == t)
  | .bool _, _ | .str _, _ => none
  | _, _ => do
    let p ← a.type.promote? b.type
    some (compare? (a.widen p) (b.widen p) == some .eq)

/-- Whether an order satisfies a comparison; without one none is satisfied. -/
def ordered (op : BinaryOp) (o : Option Ordering) : Bool :=
  match op, o with
  | .lt, some o => o == .lt
  | .le, some o => o != .gt
  | .gt, some o => o == .gt
  | .ge, some o => o != .lt
  | _, _ => false

/-- The text of a constant in a concatenation. Floating point numbers have none here. -/
def text? (c : Constant) : Option Text :=
  match c.value with
  | .null => some "null"
  | .str s => some s
  | .bool b => some (if b then "true" else "false")
  | .int i =>
    match c.type with
    | .prim .char => some (Text.ofChars [Char.ofNat i.toInt.toNat])
    | _ => some (Text.ofInt i.toInt)
  | .float _ => none

/-- An arithmetic operator on whole numbers; none can be divided by zero. -/
def intArith? (op : BinaryOp) (i j : Int64) : Option Int64 :=
  match op with
  | .add => some (i + j)
  | .sub => some (i - j)
  | .mul => some (i * j)
  | .div => if j = 0 then none else some (i / j)
  | .mod => if j = 0 then none else some (i % j)
  | _ => none

def floatArith? (op : BinaryOp) (x y : Double) : Option Double :=
  match op with
  | .add => some (x.add y)
  | .sub => some (x.sub y)
  | .mul => some (x.mul y)
  | .div => some (x.div y)
  | .mod => some (x.mod y)
  | _ => none

/-- An arithmetic operator on operands of the type that both are widened to. -/
def foldArith? (op : BinaryOp) (a b : Constant) : Option Constant := do
  let p ← a.type.promote? b.type
  match (a.widen p).value, (b.widen p).value with
  | .int i, .int j => (intArith? op i j).map (ofInt p)
  | .float x, .float y => (floatArith? op x y).map (ofDouble p)
  | _, _ => none

def foldXor? (a b : Constant) : Option Constant :=
  match a.value, b.value with
  | .bool x, .bool y => some (ofBool (x != y))
  | _, _ => do
    let p ← a.type.promote? b.type
    match isIntegral p, (a.widen p).value, (b.widen p).value with
    | true, .int i, .int j => some (ofInt p (i ^^^ j))
    | _, _, _ => none

def foldPow? (a b : Constant) : Option Constant := do
  let _ ← a.type.promote? b.type
  match (a.widen .double).value, (b.widen .double).value with
  | .float x, .float y => some (ofDouble .double (x.pow y))
  | _, _ => none

def foldBinary? (op : BinaryOp) (a b : Constant) : Option Constant :=
  match op with
  | .and =>
    match a.value, b.value with
    | .bool x, .bool y => some (ofBool (x && y))
    | _, _ => none
  | .or =>
    match a.value, b.value with
    | .bool x, .bool y => some (ofBool (x || y))
    | _, _ => none
  | .eq => (foldEqual? a b).map ofBool
  | .ne => (foldEqual? a b).map fun e => ofBool !e
  | .lt | .le | .gt | .ge => do
    let p ← a.type.promote? b.type
    some (ofBool (ordered op (compare? (a.widen p) (b.widen p))))
  | .xor => foldXor? a b
  | .pow => foldPow? a b
  | .add =>
    if a.type.isString || b.type.isString then do
      let s ← a.text?
      let t ← b.text?
      some (ofText (s ++ t))
    else foldArith? .add a b
  | .sub | .mul | .div | .mod => foldArith? op a b
  | .range => none

end Constant

/-- The constant that an expression is, if its operands are literals and its operators can be
applied. -/
def Expr.fold : Expr → Except LiteralError (Option Constant)
  | .literal tok => (Constant.ofToken tok).map some
  | .unary _ op x => do
    let a ← x.fold
    return a.bind (Constant.foldUnary? op)
  | .binary _ op x y => do
    match ← x.fold with
    | none => return none
    | some a =>
      let b ← y.fold
      return b.bind (Constant.foldBinary? op a)
  | _ => .ok none

end Classwright
