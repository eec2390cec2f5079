import Classwright.Body.Convert

/-!
Code for expressions. A constant is pushed as it is. What an expression leaves depends on the mode:
its value, nothing, or a jump that is taken when a condition has a given value; comparisons and
logical operators jump without making a value first.
-/

namespace Classwright

/-- What the code of an expression does with its value. -/
inductive Mode where
  /-- Leaves it on the stack. -/
  | value
  | drop
  /-- Jumps to the label if the condition has the given value, and goes on otherwise. -/
  | jump (target : Label) (jumpIf : Bool)

/-- A variable or a field that is assigned to. -/
inductive Target where
  | var (v : Var)
  | field (owner : StructType) (f : Var)

namespace Target

def type : Target → Ty
  | var v => v.type
  | field _ f => f.type

end Target

namespace Gen

/-- Jumps if the value on top, which has the given type, is a condition of the given value. -/
def test (tok : Token) (t : Ty) (target : Label) (jumpIf : Bool) : Gen Unit := do
  if !t.isBool then refuse tok (.condition t)
  jump (if jumpIf then .ifne else .ifeq) target

/-- Uses a value as the mode says; `value` leaves it if asked to. -/
def finish (tok : Token) (mode : Mode) (value : Bool → Gen Ty) : Gen Ty := do
  match mode with
  | .value => value true
  | .drop => value false
  | .jump target jumpIf =>
    let t ← value true
    test tok t target jumpIf
    return t

/-- A value that is made in any case and dropped if it is not asked for. -/
def pushed (m : Gen Ty) (keep : Bool) : Gen Ty := do
  let t ← m
  if !keep then edit (·.drop t)
  return t

/-- Uses a constant as the mode says. A jump on it is taken or not, once and for all. -/
def constant (tok : Token) (c : Constant) (mode : Mode) : Gen Ty := do
  match mode with
  | .value => edit (·.const c.type c.value)
  | .drop => pure ()
  | .jump target jumpIf =>
    match c.value with
    | .bool b => if b = jumpIf then jump .goto target
    | _ => refuse tok (.condition c.type)
  return c.type

/-! ### Operators -/

/-- Makes the value of a condition, given the code that jumps if it is false. -/
def boolValue (jumpFalse : Label → Gen Unit) : Gen Unit := do
  let isFalse ← newLabel
  let done ← newLabel
  jumpFalse isFalse
  edit (·.int 1)
  jump .goto done
  bind isFalse
  edit (·.int 0)
  bind done

/-- Jumps on two conditions joined by "and", or by "or". If the first condition alone can decide
against the jump, it jumps over the second one. -/
def junction (isAnd : Bool) (left right : Label → Bool → Gen Unit) (target : Label) (jumpIf : Bool) :
    Gen Unit := do
  if isAnd = jumpIf then
    let skip ← newLabel
    left skip !jumpIf
    right target jumpIf
    bind skip
  else
    left target jumpIf
    right target jumpIf

/-- Pushes two operands and converts each to a type. -/
def operands (l r target : Ty) (left right : Gen Unit) : Gen Unit := do
  left
  convert l target
  right
  convert r target

/-- The jump that is taken if a number compares to zero as an operator says. -/
def comparisonJump : BinaryOp → Opcode
  | .ne => .ifne
  | .lt => .iflt
  | .ge => .ifge
  | .gt => .ifgt
  | .le => .ifle
  | _ => .ifeq

/-- The jump on two whole numbers in place of one on a number and zero. -/
def onPair (op : Opcode) : Opcode := ⟨op.code + (Opcode.ifIcmpEq.code - Opcode.ifeq.code)⟩

/-- The comparison of floating point numbers that lets none hold for what is not a number. -/
def floatComparison (op : BinaryOp) (p : Prim) : Opcode :=
  let less := op == .lt || op == .le
  if p = .double then if less then .dcmpg else .dcmpl
  else if less then .fcmpg else .fcmpl

/-- Jumps on the comparison of two operands. Numbers are compared by value and all else by
`equals`. -/
def comparison (tok : Token) (op : BinaryOp) (l r : Ty) (left right : Gen Unit) (target : Label)
    (jumpIf : Bool) : Gen Unit := do
  let _ ← Env.binaryType tok op l r
  let first := comparisonJump op
  let final ← match l.promote? r with
    | some p =>
      operands l r (.prim p) left right
      match p with
      | .long =>
        Gen.op .lcmp
        pure first
      | .float | .double =>
        Gen.op (floatComparison op p)
        pure first
      | _ => pure (onPair first)
    | none =>
      if (op == .eq || op == .ne) && l.isBool && r.isBool then
        operands l r .bool left right
        pure (onPair first)
      else
        operands l r .object left right
        invoke .invokestatic "java/util/Objects" "equals" "(Ljava/lang/Object;Ljava/lang/Object;)Z"
        pure first.negate
  jump (if jumpIf then final else final.negate) target

def stringBuilder : Text := "java/lang/StringBuilder"

/-- Joins the texts of two operands. The left one goes first, so that a compound assignment can load
it in place. -/
def concat (l r : Ty) (left right : Gen Unit) : Gen Unit := do
  let string := Ty.string.descriptor
  left
  let desc := if l.isString then Ty.object.descriptor else l.textDescriptor
  invoke .invokestatic "java/lang/String" "valueOf" ("(" ++ desc ++ ")" ++ string)
  edit (·.type .new stringBuilder)
  Gen.op .dupX1
  Gen.op .swap
  invoke .invokespecial stringBuilder "<init>" ("(" ++ string ++ ")V")
  right
  invoke .invokevirtual stringBuilder "append"
    ("(" ++ r.textDescriptor ++ ")" ++ (Ty.cls stringBuilder).descriptor)
  invoke .invokevirtual stringBuilder "toString" ("()" ++ string)

/-- The instruction of an operator for whole numbers. -/
def arithOpcode : BinaryOp → Opcode
  | .sub => .isub
  | .mul => .imul
  | .div => .idiv
  | .mod => .irem
  | .xor => .ixor
  | _ => .iadd

/-- Applies an operator to two operands. -/
def arith (tok : Token) (op : BinaryOp) (l r : Ty) (left right : Gen Unit) : Gen Ty := do
  let t ← Env.binaryType tok op l r
  if op = .add && t.isString then
    concat l r left right
  else
    operands l r t left right
    if op = .pow then invoke .invokestatic "java/lang/Math" "pow" "(DD)D"
    else Gen.op ((arithOpcode op).forNumber t)
  return t

/-! ### Assignment -/

/-- Pushes the object of a field that is named without one, and tells the slots that it takes. -/
def receiver (env : Env) (tok : Token) (v : Var) : Gen Nat := do
  match v.kind with
  | .local | .global => return 0
  | _ =>
    loadSelf env tok v.name
    return 1

/-- Pushes the value of a target, whose object is on the stack already and stays there. -/
def loadTarget (env : Env) (tok : Token) (target : Target) (under : Nat) : Gen Unit := do
  match target with
  | .var v =>
    if under = 0 then load env tok v
    else
      Gen.op .dup
      field .getfield v.owner v
  | .field owner f =>
    Gen.op .dup
    field .getfield owner.cls f

def storeTarget : Target → Gen Unit
  | .var v => store v
  | .field owner f => field .putfield owner.cls f

/-- Refuses to change a constant. -/
def checkVariable (tok : Token) (v : Var) : Gen Unit := do
  if v.const then refuse tok (.constant v.name)

/-- Assigns to a target whose object is on the stack already. A compound assignment converts its
result back, also to a narrower number. -/
def assignTo (env : Env) (tok targetTok : Token) (op : AssignOp) (target : Target) (under : Nat)
    (valueType value : Gen Ty) (keep : Bool) : Gen Ty := do
  let t := target.type
  match op.operator? with
  | some op =>
    let vt ← valueType
    let rt ← arith tok op t vt (loadTarget env targetTok target under) (discard value)
    if !t.assignable rt && !(rt.isPrim && t.isPrim && !t.isBool) then
      refuse tok (.assignment rt t)
    conv rt t true
  | none =>
    let vt ← value
    if !t.assignable vt then refuse tok (.assignment vt t)
    convert vt t
  if keep then edit (·.dup t under)
  storeTarget target
  return t

/-- Declares a variable by its first assignment. -/
def declareAssign (env : Env) (tok nameTok : Token) (name : Text) (valueType value : Gen Ty)
    (keep : Bool) : Gen Ty := do
  let t ← valueType
  if t.isVoid then refuse tok (.voidAssignment name)
  let t := if t.isNull then .object else t
  let vt ← value
  convert vt t
  let v ← declare env nameTok name t false
  if keep then edit (·.dup t 0)
  store v
  return t

/-- Adds to a target one or minus one; `receiver` pushes its object. The value kept is that before.
A local whole number is changed in place. -/
def stepTarget (env : Env) (tok targetTok : Token) (op : StepOp) (target : Target)
    (receiver : Gen Nat) (keep : Bool) : Gen Ty := do
  let t := target.type
  match t.promote? t with
  | none => refuse tok (.unaryOperator tok.text t)
  | some p =>
    let delta : Int := match op with
      | .inc => 1
      | .dec => -1
    match target, t with
    | .var ⟨_, .local, _, _, slot, _, _⟩, .prim .int =>
      if keep then edit (·.load t slot)
      edit (·.inc slot delta)
    | _, _ =>
      let under ← receiver
      loadTarget env targetTok target under
      if keep then edit (·.dup t under)
      convert t (.prim p)
      edit (·.const (.prim p) (.int (Int64.ofInt delta)))
      Gen.op (Opcode.iadd.forNumber (.prim p))
      conv (.prim p) t true
      storeTarget target
    return t

/-! ### Calls and objects -/

/-- Calls a function; `receiver` pushes the object that a method is called on, if one is named. -/
def call (env : Env) (tok : Token) (f : Function) (receiver : Option (Gen Unit)) (args : Gen Unit) :
    Gen Ty := do
  let op ← match f.dispatch with
    | .output =>
      access (·.field .getstatic
        { cls := "java/lang/System", name := "out", desc := (Ty.cls Registry.outputOwner).descriptor })
      pure Opcode.invokevirtual
    | .virtual =>
      match receiver, env.self with
      | some push, _ => push
      | none, some s =>
        if s.cls ≠ f.owner then refuse tok (.staticMethod f.name)
        edit (·.load s.type 0)
      | none, none => refuse tok (.staticMethod f.name)
      pure Opcode.invokevirtual
    | _ => pure Opcode.invokestatic
  args
  invoke op f.owner f.name f.sig.descriptor
  return f.sig.result

/-- The class to make an object of, and the parameters of its constructor. -/
def construction (env : Env) (tok : Token) (type : TypeName) (hasArgs : Bool)
    (argTypes : Gen (List Ty)) : Gen (Text × List Ty) := do
  let t ← env.typeName type
  match t with
  | .cls name =>
    match env.structOfClass? name with
    | none =>
      if hasArgs then refuse tok (.notInstantiable t)
      return (name, [])
    | some s =>
      let ts ← argTypes
      let fields := s.constructor.ins
      if fields.length ≠ ts.length || !(fields.zip ts).all fun (f, t) => f.assignable t then
        refuse type.tok (.unresolvedCall s.name ts)
      return (name, fields)
  | _ => refuse tok (.notInstantiable t)

def arrayList : Text := "java/util/ArrayList"

/-! ### All expressions -/

mutual

/-- Writes the code of an expression and gives its type. -/
def expr (env : Env) (x : Expr) (mode : Mode) : Gen Ty := do
  match ← Env.fold x with
  | some c => constant x.tok c mode
  | none =>
    match x with
    | .literal tok => refuse tok .unexpectedExpression
    | .ident tok name =>
      finish tok mode (pushed do
        let v ← Env.variable_ (← get).scopes tok name
        load env tok v
        return v.type)
    | .unary tok op x =>
      match op, mode with
      | .not, .jump target jumpIf => expr env x (.jump target !jumpIf)
      | .not, _ =>
        finish tok mode (pushed do
          let t ← Env.unaryType tok op (← typeOf env x)
          boolValue fun isFalse => discard (expr env x (.jump isFalse true))
          return t)
      | _, _ =>
        finish tok mode (pushed do
          let xt ← typeOf env x
          let t ← Env.unaryType tok op xt
          discard (expr env x .value)
          convert xt t
          if op = .minus then Gen.op (Opcode.ineg.forNumber t)
          return t)
    | .step tok op target =>
      finish tok mode fun keep =>
        match target with
        | .ident targetTok name => do
          let v ← Env.variable_ (← get).scopes targetTok name
          checkVariable targetTok v
          stepTarget env tok targetTok op (.var v) (receiver env targetTok v) keep
        | .property targetTok x name => do
          let (owner, f) ← env.property targetTok (← typeOf env x) name
          let push : Gen Nat := do
            discard (expr env x .value)
            return 1
          stepTarget env tok targetTok op (.field owner f) push keep
        | _ => refuse tok .notAssignable
    | .binary tok op x y =>
      let condition (jumping : Label → Bool → Gen Unit) : Gen Ty :=
        match mode with
        | .jump target jumpIf => do
          jumping target jumpIf
          return .bool
        | _ => finish tok mode (pushed do
          boolValue fun isFalse => jumping isFalse false
          return .bool)
      match op with
      | .and | .or =>
        condition (junction (op == .and)
          (fun target jumpIf => discard (expr env x (.jump target jumpIf)))
          (fun target jumpIf => discard (expr env y (.jump target jumpIf))))
      | .eq | .ne | .lt | .le | .gt | .ge =>
        condition fun target jumpIf => do
          let l ← typeOf env x
          let r ← typeOf env y
          comparison tok op l r (discard (expr env x .value)) (discard (expr env y .value)) target
            jumpIf
      | .range => refuse tok .rangeValue
      | _ =>
        finish tok mode (pushed do
          let l ← typeOf env x
          let r ← typeOf env y
          arith tok op l r (discard (expr env x .value)) (discard (expr env y .value)))
    | .assign tok op target value =>
      finish tok mode fun keep =>
        match target with
        | .ident targetTok name => do
          match (← get).scopes.lookup? name with
          | none =>
            if op ≠ .plain then refuse targetTok (.unresolvedName name)
            declareAssign env tok targetTok name (typeOf env value) (expr env value .value) keep
          | some v =>
            checkVariable targetTok v
            let under ← receiver env targetTok v
            assignTo env tok targetTok op (.var v) under (typeOf env value) (expr env value .value)
              keep
        | .property targetTok x name => do
          let (owner, f) ← env.property targetTok (← typeOf env x) name
          discard (expr env x .value)
          assignTo env tok targetTok op (.field owner f) 1 (typeOf env value) (expr env value .value)
            keep
        | _ => refuse tok .notAssignable
    | .call tok callee args =>
      finish tok mode (pushed do
        let ts ← env.typesOf (← get).scopes args
        match callee with
        | .ident nameTok name =>
          let f ← env.function nameTok name ts
          call env tok f none (arguments env args f.sig.ins)
        | .property nameTok x name =>
          let f ← env.method nameTok (← typeOf env x) name ts
          call env tok f (some (discard (expr env x .value))) (arguments env args f.sig.ins)
        | _ => refuse tok .notCallable)
    | .property tok x name =>
      finish tok mode (pushed do
        let (owner, f) ← env.property tok (← typeOf env x) name
        discard (expr env x .value)
        field .getfield owner.cls f
        return f.type)
    | .construct tok type args =>
      finish tok mode (pushed do
        let ts : Gen (List Ty) := do env.typesOf (← get).scopes args
        let (cls, params) ← construction env tok type (!args.isEmpty) ts
        edit (·.type .new cls)
        Gen.op .dup
        arguments env args params
        invoke .invokespecial cls "<init>" (Signature.mk params none).descriptor
        return .cls cls)
    | .list tok xs =>
      finish tok mode (pushed do
        edit (·.type .new arrayList)
        Gen.op .dup
        invoke .invokespecial arrayList "<init>" "()V"
        elements env xs
        return .list)

/-- Pushes arguments, each converted to its parameter. -/
def arguments (env : Env) (xs : List Expr) (params : List Ty) : Gen Unit := do
  match xs with
  | [] => return
  | x :: xs =>
    let t ← expr env x .value
    convert t (params.headD t)
    arguments env xs params.tail

/-- Adds elements to the list on top. -/
def elements (env : Env) (xs : List Expr) : Gen Unit := do
  match xs with
  | [] => return
  | x :: xs =>
    Gen.op .dup
    let t ← expr env x .value
    if t.isVoid then refuse x.tok .voidElement
    convert t .object
    invoke .invokevirtual arrayList "add" "(Ljava/lang/Object;)Z"
    Gen.op .pop
    elements env xs

end

/-- A constant is used without code for its parts. -/
theorem expr_of_constant {env : Env} {x : Expr} {c : Constant} (h : Env.fold x = .ok (some c))
    (mode : Mode) : expr env x mode = constant x.tok c mode := by
  rw [expr.eq_def, h]
  rfl

end Gen

end Classwright
