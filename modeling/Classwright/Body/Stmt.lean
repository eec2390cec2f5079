import Classwright.Body.Expr

/-!
Code for statements. Statements after a jump away are left out, since nothing reaches them.
-/

namespace Classwright.Gen

/-- Declares a variable with its first value. -/
def varDecl (env : Env) (d : VarDecl) : Gen Unit := do
  let declared ← match d.type with
    | none => pure none
    | some r =>
      let t ← env.typeRef r
      if t.isVoid then refuse d.tok (.voidVariable d.name)
      pure (some t)
  let vt ← expr env d.value .value
  let t ← match declared with
    | some t =>
      if !t.assignable vt then refuse d.tok (.assignment vt t)
      pure t
    | none =>
      if vt.isVoid then refuse d.tok (.voidAssignment d.name)
      pure (if vt.isNull then .object else vt)
  convert vt t
  let v ← declare env d.tok d.name t d.const
  store v

/-- Ends the method, with a value unless it is void. -/
def returnStmt (env : Env) (tok : Token) (value : Option Expr) : Gen Unit := do
  if env.topLevel then refuse tok .outsideFunction
  let result := ((← get).scopes.frame.bind (·.result)).getD .void
  match value with
  | none =>
    if !result.isVoid then refuse tok .missingResult
    edit (·.ret .void)
  | some x =>
    if result.isVoid then refuse tok .unexpectedResult
    let t ← expr env x .value
    if !result.assignable t then refuse tok (.resultType t result)
    convert t result
    edit (·.ret result)

/-- Leaves the innermost loop or starts its next round. -/
def branch (env : Env) (tok : Token) : Gen Unit :=
  match env.loops with
  | [] => refuse tok (.outsideLoop tok.text)
  | l :: _ => jump .goto (if tok.kind = .keyword .break_ then l.leave else l.next)

/-! ### Loops -/

/-- Jumps back to the start of a loop, if the code gets there. -/
def again (top : Label) : Gen Unit := do
  if ← isReachable then jump .goto top

/-- Pushes a bound of a range. -/
def bound (env : Env) (x : Expr) : Gen Unit := do
  let t ← expr env x .value
  if !Ty.int.assignable t then refuse x.tok (.rangeBound t)
  convert t .int

/-- Counts from one bound up to but not including the other one, which is computed once. -/
def forRange (env : Env) (tok : Token) (name : Text) (first last : Expr)
    (body : LoopLabels → Gen Unit) : Gen Unit := inScope do
  bound env first
  let i ← declare env tok name .int false
  edit (·.store .int i.slot)
  bound env last
  let stop ← alloc .int
  edit (·.store .int stop)
  let top ← newLabel
  let next ← newLabel
  let leave ← newLabel
  bind top
  edit (·.load .int i.slot)
  edit (·.load .int stop)
  jump .ifIcmpGe leave
  body ⟨leave, next⟩
  bind next
  if ← isReachable then
    edit (·.inc i.slot 1)
    jump .goto top
  bind leave

def iterator : Text := "java/util/Iterator"

/-- Goes through the elements of an object that has an iterator. -/
def forEach (env : Env) (tok : Token) (name : Text) (iter : Expr) (body : LoopLabels → Gen Unit) :
    Gen Unit := inScope do
  let t ← expr env iter .value
  if !t.isReference || t.isString || t.isNull then refuse iter.tok (.notIterable t)
  let desc := (Ty.cls iterator).descriptor
  invoke .invokeinterface "java/lang/Iterable" "iterator" ("()" ++ desc)
  let x ← declare env tok name .object false
  let it ← alloc .object
  edit (·.store .object it)
  let top ← newLabel
  let leave ← newLabel
  bind top
  edit (·.load .object it)
  invoke .invokeinterface iterator "hasNext" "()Z"
  jump .ifeq leave
  edit (·.load .object it)
  invoke .invokeinterface iterator "next" ("()" ++ Ty.object.descriptor)
  edit (·.store .object x.slot)
  body ⟨leave, top⟩
  again top
  bind leave

/-! ### Cases -/

/-- The class that values of a type are of when the program runs. -/
def instanceClass : Ty → Text
  | .prim p => p.wrapper
  | .nullable t => instanceClass t
  | .cls name => name
  | _ => ClassFile.root

/-- The types of the arms of a case, each a member of the union and none there twice; `seen` holds
those before. -/
def armTypes (env : Env) (union : Ty) (members seen : List Ty) : List CaseArm → Gen (List Ty)
  | [] => return seen.reverse
  | a :: arms => do
    let t ← env.typeName a.type
    if !Ty.hasMember members t then refuse a.type.tok (.notMember t union)
    if seen.any (·.same t) then refuse a.type.tok (.duplicateCase t)
    armTypes env union members (t :: seen) arms

/-- The type of each arm, after the check that the arms cover the union. -/
def caseTypes (env : Env) (tok : Token) (x : Expr) (arms : List CaseArm) : Gen (List Ty) := do
  let t ← match ← typeOf env x with
    | .nullable t => pure t
    | t => pure t
  match t with
  | .union members =>
    let types ← armTypes env t members [] arms
    let missing := members.filter fun m => !types.any (·.same m)
    if !missing.isEmpty then refuse tok (.missingCases t missing)
    return types
  | _ => refuse x.tok (.notUnion t)

/-- Runs an arm if the value in a slot is of its type. -/
def arm (env : Env) (tok : Token) (name : Text) (t : Ty) (value : Nat) (done : Label)
    (body : Gen Unit) : Gen Unit := do
  let next ← newLabel
  let cls := instanceClass t
  edit (·.load .object value)
  edit (·.type .instanceof cls)
  jump .ifeq next
  inScope do
    edit (·.load .object value)
    edit (·.type .checkcast cls)
    if let .prim p := t then unbox p
    let v ← declare env tok name t false
    store v
    body
  again done
  bind next

/-! ### All statements -/

mutual

def stmt (env : Env) (s : Stmt) : Gen Unit := do
  match s with
  | .expr x => discard (expr env x .drop)
  | .var d => varDecl env d
  | .block b => block env b
  | .cond c => ifStmt env c
  | .loop _ x body =>
    let top ← newLabel
    let leave ← newLabel
    bind top
    discard (expr env x (.jump leave false))
    block { env with loops := ⟨leave, top⟩ :: env.loops } body
    again top
    bind leave
  | .each tok name (.binary _ .range first last) body =>
    forRange env tok name first last fun l => block { env with loops := l :: env.loops } body
  | .each tok name iter body =>
    forEach env tok name iter fun l => block { env with loops := l :: env.loops } body
  | .case tok x arms =>
    let types ← caseTypes env tok x arms
    inScope do
      discard (expr env x .value)
      let value ← alloc .object
      edit (·.store .object value)
      let done ← newLabel
      caseArms env arms types value done
      bind done
  | .ret tok value => returnStmt env tok value
  | .branch tok => branch env tok
  | .func d => refuse d.tok .nestedDeclaration
  | .struct d => refuse d.tok .nestedDeclaration
  | .typeAlias d => refuse d.tok .nestedDeclaration
  | .use d => refuse d.tok .nestedDeclaration

/-- Statements up to the first that cannot be reached. -/
def stmts (env : Env) (ss : List Stmt) : Gen Unit := do
  match ss with
  | [] => return
  | s :: ss =>
    if ← isReachable then
      stmt env s
      stmts env ss

def block (env : Env) (b : Block) : Gen Unit :=
  match b with
  | .mk _ ss => inScope (stmts env ss)

def ifStmt (env : Env) (c : IfStmt) : Gen Unit := do
  match c with
  | .mk _ x body other =>
    let otherwise ← newLabel
    discard (expr env x (.jump otherwise false))
    block env body
    elseBranch env other otherwise

/-- What follows the first branch; it starts at a label. -/
def elseBranch (env : Env) (e : Else) (start : Label) : Gen Unit := do
  match e with
  | .none => bind start
  | .block b =>
    let done ← newLabel
    again done
    bind start
    block env b
    bind done
  | .cond c =>
    let done ← newLabel
    again done
    bind start
    ifStmt env c
    bind done

/-- The arms of a case with their types, in turn. -/
def caseArms (env : Env) (arms : List CaseArm) (types : List Ty) (value : Nat) (done : Label) :
    Gen Unit := do
  match arms with
  | [] => return
  | a :: arms =>
    caseArm env a (types.headD .void) value done
    caseArms env arms types.tail value done

def caseArm (env : Env) (a : CaseArm) (t : Ty) (value : Nat) (done : Label) : Gen Unit :=
  match a with
  | .mk tok _ name (.mk _ ss) => arm env tok name t value done (stmts env ss)

end

end Classwright.Gen
