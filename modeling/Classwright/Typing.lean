import Classwright.Constant.Fold
import Classwright.Env

/-!
Types of expressions, before any code is written for them.
-/

namespace Classwright

namespace Ty

def isBool : Ty → Bool
  | prim .bool => true
  | _ => false

def isNull : Ty → Bool
  | null => true
  | _ => false

def isPrim : Ty → Bool
  | prim _ => true
  | _ => false

end Ty

/-- The type of a unary operator's result. -/
def UnaryOp.type? (op : UnaryOp) (t : Ty) : Option Ty :=
  match op with
  | .not => if t.isBool then some .bool else none
  | .plus | .minus => (t.promote? t).map .prim
  | .percent => none

/-- The type of a binary operator's result. -/
def BinaryOp.type? (op : BinaryOp) (l r : Ty) : Option Ty :=
  let bools := l.isBool && r.isBool
  let promoted := l.promote? r
  match op with
  | .and | .or => if bools then some .bool else none
  | .eq | .ne =>
    if promoted.isSome || bools || l.isReference && r.isReference then some .bool else none
  | .lt | .le | .gt | .ge => promoted.map fun _ => .bool
  | .pow => promoted.map fun _ => .double
  | .xor =>
    if bools then some .bool
    else (promoted.filter Constant.isIntegral).map .prim
  | .add =>
    if !l.isVoid && !r.isVoid && (l.isString || r.isString) then some .string
    else promoted.map .prim
  | .sub | .mul | .div | .mod => promoted.map .prim
  | .range => none

namespace Env

def unaryType (tok : Token) (op : UnaryOp) (t : Ty) : Compiled Ty :=
  match op.type? t with
  | some t => .ok t
  | none => refuse tok (.unaryOperator tok.text t)

def binaryType (tok : Token) (op : BinaryOp) (l r : Ty) : Compiled Ty :=
  match op.type? l r with
  | some t => .ok t
  | none => refuse tok (.binaryOperator tok.text l r)

/-- The constant that an expression is, if it is one. -/
def fold (x : Expr) : Compiled (Option Constant) :=
  match x.fold with
  | .ok c => .ok c
  | .error e => refuse e.tok (.literal e.fault)

/-- The variable of a name. -/
def variable_ (s : Scopes) (tok : Token) (name : Text) : Compiled Var :=
  match s.lookup? name with
  | some v => .ok v
  | none => refuse tok (.unresolvedName name)

/-- The struct and the field that a property of a value is. -/
def property (env : Env) (tok : Token) (t : Ty) (name : Text) : Compiled (StructType × Var) :=
  match env.structOf? t with
  | none => refuse tok (.noProperty name t)
  | some s =>
    match s.field? name with
    | none => refuse tok (.noProperty name t)
    | some f => .ok (s, f)

/-- The function that a call by name takes: a method of the struct at hand, then any function, then
a method of some struct, which can be called on an object only. -/
def function (env : Env) (tok : Token) (name : Text) (args : List Ty) : Compiled Function :=
  let own := env.self.bind fun s => s.methods.lookup? name args
  let found := own.or ((env.funcs.lookup? name args).or
    (env.structs.findSome? fun s => s.methods.lookup? name args))
  match found with
  | some f => .ok f
  | none => refuse tok (.unresolvedCall name args)

/-- The method that a call on a value takes. -/
def method (env : Env) (tok : Token) (t : Ty) (name : Text) (args : List Ty) : Compiled Function :=
  match env.structOf? t with
  | none => refuse tok (.noMethod name t)
  | some s =>
    match s.methods.lookup? name args with
    | some f => .ok f
    | none => refuse tok (.unresolvedCall name args)

mutual

/-- The type of an expression. -/
def typeOf (env : Env) (s : Scopes) (x : Expr) : Compiled Ty := do
  match ← fold x with
  | some c => return c.type
  | none =>
    match x with
    | .literal _ => return .void
    | .ident tok name => return (← variable_ s tok name).type
    | .unary tok op x => unaryType tok op (← env.typeOf s x)
    | .step _ _ x => env.typeOf s x
    | .binary tok op x y =>
      let l ← env.typeOf s x
      let r ← env.typeOf s y
      binaryType tok op l r
    | .assign _ _ (.ident _ name) value =>
      match s.lookup? name with
      | some v => return v.type
      | none => env.typeOf s value
    | .assign _ _ (.property tok x name) _ =>
      let t ← env.typeOf s x
      return (← env.property tok t name).2.type
    | .assign _ _ _ value => env.typeOf s value
    | .call tok callee args =>
      let ts ← env.typesOf s args
      match callee with
      | .ident tok name => return (← env.function tok name ts).sig.result
      | .property tok x name =>
        let t ← env.typeOf s x
        return (← env.method tok t name ts).sig.result
      | _ => refuse tok .notCallable
    | .property tok x name =>
      let t ← env.typeOf s x
      return (← env.property tok t name).2.type
    | .construct _ type _ => env.typeName type
    | .list _ _ => return .list

/-- The types of expressions. -/
def typesOf (env : Env) (s : Scopes) (xs : List Expr) : Compiled (List Ty) := do
  match xs with
  | [] => return []
  | x :: xs =>
    let t ← env.typeOf s x
    return t :: (← env.typesOf s xs)

end

end Env

end Classwright
