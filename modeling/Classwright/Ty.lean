import Classwright.Text

/-!
Types of values and of functions: primitives, classes by internal name, nullable references, the
type of `null`, and unions, whose values are objects with primitives boxed.

`Ty.same` compares types structurally, the members of unions as sets; `Ty.descriptor` is the form a
type has in class files, where nullables and unions are erased.
-/

namespace Classwright

inductive Prim where
  | void | bool | char | byte | short | int | long | float | double
  deriving DecidableEq, Repr

namespace Prim

/-- The primitives in the order of their numbers. -/
def all : List Prim := [void, bool, char, byte, short, int, long, float, double]

/-- The number of slots that a value takes in a frame or on the stack. -/
def size : Prim → Nat
  | void => 0
  | long | double => 2
  | _ => 1

def descriptor : Prim → Text
  | void => "V"
  | bool => "Z"
  | char => "C"
  | byte => "B"
  | short => "S"
  | int => "I"
  | long => "J"
  | float => "F"
  | double => "D"

def name : Prim → Text
  | void => "void"
  | bool => "bool"
  | char => "char"
  | byte => "byte"
  | short => "short"
  | int => "int"
  | long => "long"
  | float => "float"
  | double => "double"

/-- The class that a boxed value has. Nothing boxes `void`, so its class has no name. -/
def wrapper : Prim → Text
  | void => []
  | bool => "java/lang/Boolean"
  | char => "java/lang/Character"
  | byte => "java/lang/Byte"
  | short => "java/lang/Short"
  | int => "java/lang/Integer"
  | long => "java/lang/Long"
  | float => "java/lang/Float"
  | double => "java/lang/Double"

def isNumeric : Prim → Bool
  | void | bool => false
  | _ => true

/-- The place on the widening chain from byte to double. -/
def rank : Prim → Nat
  | byte => 1
  | short => 2
  | char | int => 3
  | long => 4
  | float => 5
  | double => 6
  | void | bool => 0

/-- The wider of two operands, and at least `int`. -/
def promote (a b : Prim) : Option Prim :=
  if a.isNumeric && b.isNumeric then
    let wider (p q : Prim) := if p.rank < q.rank then q else p
    some (wider (wider int a) b)
  else none

end Prim

inductive Ty where
  | prim (p : Prim)
  /-- A class, host provided or declared in a source, by internal name. -/
  | cls (name : Text)
  /-- The type of the `null` literal. -/
  | null
  | nullable (of : Ty)
  | union (members : List Ty)
  /-- A function; without a result it is void. -/
  | method (ins : List Ty) (out : Option Ty)
  deriving Repr, Inhabited

namespace Ty

def void : Ty := prim .void
def bool : Ty := prim .bool
def char : Ty := prim .char
def byte : Ty := prim .byte
def short : Ty := prim .short
def int : Ty := prim .int
def long : Ty := prim .long
def float : Ty := prim .float
def double : Ty := prim .double

def object : Ty := cls "java/lang/Object"
def string : Ty := cls "java/lang/String"
def list : Ty := cls "java/util/List"
/-- The number of slots that a value takes in a frame or on the stack. -/
def size : Ty → Nat
  | prim p => p.size
  | _ => 1

mutual

/-- The form of a type in class files. -/
def descriptor : Ty → Text
  | prim p => p.descriptor
  | cls name => "L" ++ name ++ ";"
  | null => "Ljava/lang/Object;"
  | nullable t => t.descriptor
  | union _ => "Ljava/lang/Object;"
  | method ins out => "(" ++ descriptors ins ++ ")" ++ resultDescriptor out

def descriptors : List Ty → Text
  | [] => []
  | t :: ts => t.descriptor ++ descriptors ts

def resultDescriptor : Option Ty → Text
  | none => "V"
  | some t => t.descriptor

end

mutual

/-- A type as messages show it. -/
def display : Ty → Text
  | prim p => p.name
  | cls name => name
  | null => "null"
  | nullable t => t.display ++ "?"
  | union ts => displayUnion ts
  | method ins out => (method ins out).descriptor

def displayUnion : List Ty → Text
  | [] => []
  | [t] => t.display
  | t :: ts => t.display ++ " | " ++ displayUnion ts

end

def isVoid : Ty → Bool
  | prim .void => true
  | _ => false

mutual

/-- Whether two types are the same. The members of a union are compared as sets. -/
def same : Ty → Ty → Bool
  | prim p, prim q => p == q
  | cls m, cls n => m == n
  | null, null => true
  | nullable s, nullable t => same s t
  | union ss, union ts => ss.length == ts.length && allMembers ts ss
  | method is o, method js q => sameAll is js && sameResult o q
  | _, _ => false
  termination_by a b => sizeOf a + sizeOf b

/-- Whether a type is one of the members of a union. -/
def hasMember (members : List Ty) (t : Ty) : Bool :=
  match members with
  | [] => false
  | m :: ms => same m t || hasMember ms t
  termination_by sizeOf members + sizeOf t

/-- Whether all types are members of a union. -/
def allMembers (members : List Ty) (ts : List Ty) : Bool :=
  match ts with
  | [] => true
  | t :: ts => hasMember members t && allMembers members ts
  termination_by sizeOf members + sizeOf ts

/-- Whether two lists have the same types one by one. -/
def sameAll : List Ty → List Ty → Bool
  | [], [] => true
  | s :: ss, t :: ts => same s t && sameAll ss ts
  | _, _ => false
  termination_by a b => sizeOf a + sizeOf b

/-- Whether two results are the same; a missing one is `void`. -/
def sameResult : Option Ty → Option Ty → Bool
  | none, none => true
  | none, some t => t.isVoid
  | some s, none => s.isVoid
  | some s, some t => same s t
  termination_by a b => sizeOf a + sizeOf b

end

/-- Whether two types that may be missing are the same. -/
def sameOption : Option Ty → Option Ty → Bool
  | some s, some t => same s t
  | none, none => true
  | _, _ => false

def isReference : Ty → Bool
  | cls _ | null | nullable _ | union _ => true
  | prim _ | method _ _ => false

def isString (t : Ty) : Bool := same t string

mutual

/-- The members of a union after those already there: a union among the types stands for its own
members, and a type that is there already is left out. -/
def addMember (members : List Ty) : Ty → List Ty
  | union ts => addMembers members ts
  | t => if hasMember members t then members else members ++ [t]

def addMembers (members : List Ty) : List Ty → List Ty
  | [] => members
  | t :: ts => addMembers (addMember members t) ts

end

/-- The union of types; a single type is itself. -/
def unionOf (ts : List Ty) : Ty :=
  match addMembers [] ts with
  | [t] => t
  | members => union members

/-- The builtin type of a name in a source. -/
def ofName? (name : Text) : Option Ty :=
  if name = "void" then some void
  else if name = "bool" ∨ name = "boolean" then some bool
  else if name = "char" then some char
  else if name = "byte" then some byte
  else if name = "short" then some short
  else if name = "int" then some int
  else if name = "long" then some long
  else if name = "float" then some float
  else if name = "double" then some double
  else if name = "string" ∨ name = "String" then some string
  else if name = "any" ∨ name = "Object" then some object
  else if name = "list" then some list
  else none

end Ty

/-- What a function takes and gives; without a result it is void. -/
structure Signature where
  ins : List Ty := []
  out : Option Ty := none
  deriving Repr, Inhabited

namespace Signature

def descriptor (s : Signature) : Text := (Ty.method s.ins s.out).descriptor

/-- The number of stack slots that the arguments take. -/
def argSize (s : Signature) : Nat := s.ins.foldr (fun t n => t.size + n) 0

def result (s : Signature) : Ty := s.out.getD Ty.void

end Signature

end Classwright
