import Classwright.Failure
import Classwright.Syntax

/-!
What the code of a source may refer to besides its variables: the types and functions that are
declared, the struct whose method is being written, and the loops around the place at hand.
-/

namespace Classwright

/-- Compiling that may fail. -/
abbrev Compiled := Except Failure

/-- Refuses the meaning of a source at a token. -/
def refuse {α : Type} (tok : Token) (fault : CompileFault) : Compiled α :=
  .error (.compile tok fault)

/-- A function with its declaration. -/
structure DeclaredFunction where
  decl : FuncDecl
  fn : Function

/-- A struct of the source. -/
structure StructType where
  name : Text
  /-- The internal name of its class. -/
  cls : Text
  fields : List Var := []
  methods : Registry := {}
  /-- The methods in the order of their declaration. -/
  declared : List DeclaredFunction := []

namespace StructType

def type (s : StructType) : Ty := .cls s.cls

def field? (s : StructType) (name : Text) : Option Var := s.fields.find? (·.name == name)

/-- The constructor takes all fields in the order of their declaration. -/
def constructor (s : StructType) : Signature := ⟨s.fields.map (·.type), none⟩

end StructType

/-- Where leaving a loop and starting its next round lead to. -/
structure LoopLabels where
  leave : Label
  next : Label

structure Env where
  /-- The internal name of the class for top level code. -/
  mainClass : Text
  structs : List StructType := []
  aliases : List (Text × Ty) := []
  funcs : Registry := {}
  /-- The struct whose method is being written. -/
  self : Option StructType := none
  /-- Whether top level code is being written. -/
  topLevel : Bool := false
  /-- The loops around, the innermost first. -/
  loops : List LoopLabels := []

namespace Env

def structNamed? (env : Env) (name : Text) : Option StructType :=
  env.structs.find? (·.name == name)

def structOfClass? (env : Env) (cls : Text) : Option StructType :=
  env.structs.find? (·.cls == cls)

/-- The struct that values of a type are, null aside. -/
def structOf? (env : Env) : Ty → Option StructType
  | .cls name | .nullable (.cls name) => env.structOfClass? name
  | _ => none

/-- Whether a name already stands for a type. -/
def isType (env : Env) (name : Text) : Bool :=
  (Ty.ofName? name).isSome || (env.structNamed? name).isSome || (env.aliases.lookup name).isSome

/-! ### Types as they are written -/

/-- A host class by its name with dots. -/
def hostClass? (name : Text) : Option Ty :=
  if name.contains (ascii '.') then
    some (.cls (name.map fun b => if b = ascii '.' then ascii '/' else b))
  else none

/-- The type of a bare name. -/
def named (env : Env) (tok : Token) (name : Text) : Compiled Ty :=
  let found := (Ty.ofName? name).or
    ((env.aliases.lookup name).or (((env.structNamed? name).map (·.type)).or (hostClass? name)))
  match found with
  | some t => .ok t
  | none => refuse tok (.unknownType name)

/-- The type whose values are those of a type and null; a primitive is boxed for it. -/
def nullable (tok : Token) : Ty → Compiled Ty
  | .prim .void => refuse tok .voidNullable
  | .prim p => .ok (.nullable (.cls p.wrapper))
  | .nullable t => .ok (.nullable t)
  | .null => .ok .null
  | t => .ok (.nullable t)

/-- The type of a name with its marks. -/
def typeName (env : Env) (t : TypeName) : Compiled Ty := do
  let base ← if t.list then pure Ty.list else env.named t.tok t.name
  if t.nullable then nullable t.tok base else return base

/-- The members of a union as it is written. -/
def unionMembers (env : Env) : List TypeName → Compiled (List Ty)
  | [] => .ok []
  | n :: ns => do
    let t ← env.typeName n
    if t.isVoid then refuse n.tok .voidMember
    return t :: (← env.unionMembers ns)

def typeRef (env : Env) (r : TypeRef) : Compiled Ty :=
  match r.others with
  | [] => env.typeName r.first
  | _ => do return Ty.unionOf (← env.unionMembers r.members)

/-- The types of parameters. -/
def params (env : Env) : List Binding → Compiled (List Ty)
  | [] => .ok []
  | p :: ps => do
    let t ← env.typeRef p.type
    if t.isVoid then refuse p.tok (.voidParameter p.name)
    return t :: (← env.params ps)

/-- The signature of a declared function. -/
def signature (env : Env) (d : FuncDecl) : Compiled Signature := do
  let ins ← env.params d.params
  match d.result with
  | none => return ⟨ins, none⟩
  | some r =>
    let out ← env.typeRef r
    return ⟨ins, if out.isVoid then none else some out⟩

end Env

end Classwright
