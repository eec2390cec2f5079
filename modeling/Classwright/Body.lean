import Classwright.Typing

/-!
The body of a method while it is written: its code, the variables in scope, and the fields of the
main class that its top level variables have become.
-/

namespace Classwright

structure Body where
  code : Code := {}
  scopes : Scopes := {}
  globals : Array Field := #[]

/-- Writing code, which may fail. -/
abbrev Gen := StateT Body Compiled

namespace Gen

theorem modifyGet_eq (f : Body → α × Body) (b : Body) : (modifyGet f : Gen α) b = .ok (f b) := rfl

/-- Changes the code. -/
def edit (f : Code → Code) : Gen Unit := modify fun b => { b with code := f b.code }

/-- Changes the code by a member access. -/
def access (f : Code → Except Code.MemberError Code) : Gen Unit := fun b =>
  match f b.code with
  | .ok c => .ok ((), { b with code := c })
  | .error e => .error (.member e)

def newLabel : Gen Label := modifyGet fun b =>
  let (l, c) := b.code.newLabel
  (l, { b with code := c })

def bind (l : Label) : Gen Unit := edit (·.bind l)

def jump (op : Opcode) (l : Label) : Gen Unit := edit (·.jump op l)

def op (op : Opcode) : Gen Unit := edit (·.op op)

def invoke (op : Opcode) (cls name desc : Text) : Gen Unit :=
  access (·.invoke op { cls := cls, name := name, desc := desc })

def isReachable : Gen Bool := do return !(← get).code.dead

/-- Refuses the meaning of the source at a token. -/
def refuse {α : Type} (tok : Token) (fault : CompileFault) : Gen α := throw (.compile tok fault)

/-- Writes code in a scope of its own. -/
def inScope {α : Type} (m : Gen α) : Gen α := do
  modify fun b => { b with scopes := b.scopes.push }
  let x ← m
  modify fun b => { b with scopes := b.scopes.pop }
  return x

/-- Slots of the frame for a value without a name. -/
def alloc (t : Ty) : Gen Nat := modifyGet fun b =>
  match b.scopes.alloc? t with
  | some (slot, s) => (slot, { b with scopes := s })
  | none => (0, b)

def typeOf (env : Env) (x : Expr) : Gen Ty := do env.typeOf (← get).scopes x

/-- Declares a variable: a static field of the main class at the top level outside all blocks, a
local elsewhere. -/
def declare (env : Env) (tok : Token) (name : Text) (t : Ty) (isConst : Bool) : Gen Var := do
  let b ← get
  let isGlobal := env.topLevel && b.scopes.isGlobal
  let v : Var := {
    name := name, kind := if isGlobal then .global else .local, type := t, const := isConst
    owner := if isGlobal then env.mainClass else [], tok := tok }
  match b.scopes.declare v with
  | .error .redefined => refuse tok (.variableDefined name)
  | .error e => throw (.scope e)
  | .ok (v, scopes) =>
    let access := if isConst then Access.static ||| Access.final else Access.static
    let globals := if isGlobal then b.globals.push ⟨access, name, t.descriptor⟩ else b.globals
    set { b with scopes := scopes, globals := globals }
    return v

/-- Reads or writes the field of a variable. -/
def field (op : Opcode) (owner : Text) (v : Var) : Gen Unit :=
  access (·.field op { cls := owner, name := v.name, desc := v.type.descriptor })

/-- Pushes the object whose method is being written; `name` is the field that needs it. -/
def loadSelf (env : Env) (tok : Token) (name : Text) : Gen Unit :=
  match env.self with
  | none => refuse tok (.staticField name)
  | some s => edit (·.load s.type 0)

/-- Pushes the value of a variable. -/
def load (env : Env) (tok : Token) (v : Var) : Gen Unit :=
  match v.kind with
  | .local => edit (·.load v.type v.slot)
  | .global => field .getstatic v.owner v
  | _ => do
    loadSelf env tok v.name
    field .getfield v.owner v

/-- Stores the value on top into a variable; the object of a field is below it. -/
def store (v : Var) : Gen Unit :=
  match v.kind with
  | .local => edit (·.store v.type v.slot)
  | .global => field .putstatic v.owner v
  | _ => field .putfield v.owner v

end Gen

end Classwright
