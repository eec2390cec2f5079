import Classwright.Token
import Classwright.Ty

/-!
Scopes of variables and the frame of the method that is being written. Locals take the next free
slots of the frame; leaving a scope frees the slots from its lowest local on.
-/

namespace Classwright

inductive VarKind where
  | local | global | field
  | other (code : Int)
  deriving DecidableEq, Repr, Inhabited

namespace VarKind

def ofCode (n : Int) : VarKind :=
  if n = 0 then .local else if n = 1 then .global else if n = 2 then .field else .other n

def name : VarKind → Text
  | .local => "local"
  | .global => "global"
  | .field => "field"
  | .other _ => "unknown"

end VarKind

structure Var where
  name : Text
  kind : VarKind
  type : Ty
  const : Bool := false
  /-- The first slot of a local. -/
  slot : Nat := 0
  /-- The class of a global or a field. -/
  owner : Text := []
  tok : Token := Token.nowhere
  deriving Repr, Inhabited

/-- The frame of a method; without a result it is void. -/
structure Frame where
  isStatic : Bool
  result : Option Ty
  /-- The first free slot. -/
  next : Nat := 0
  /-- The number of slots ever used. -/
  max : Nat := 0
  deriving Repr, Inhabited

namespace Frame

/-- The number of slots that a variable of a type takes, at least one. -/
def width (t : Ty) : Nat := Nat.max t.size 1

/-- Takes slots for a value. -/
def alloc (f : Frame) (t : Ty) : Nat × Frame :=
  let next := f.next + width t
  (f.next, { f with next, max := Nat.max f.max next })

/-- Frees the slots from one on. -/
def release (f : Frame) (slot : Nat) : Frame := { f with next := Nat.min f.next slot }

end Frame

inductive ScopeError where
  | redefined
  | outsideMethod (name : Text)
  | noScope
  deriving DecidableEq, Repr

namespace ScopeError

def message : ScopeError → Text
  | redefined => "already defined"
  | outsideMethod name => "local variable " ++ name ++ " outside of method"
  | noScope => "no scope is open"

end ScopeError

/-- The open scopes, the innermost first, and the frame of the method that is being written. -/
structure Scopes where
  vars : List (List Var) := [[]]
  frame : Option Frame := none
  deriving Inhabited

namespace Scopes

/-- The number of scopes inside the outermost one. -/
def depth (s : Scopes) : Int := (s.vars.length : Int) - 1

/-- Whether the outermost scope is the only one. -/
def isGlobal (s : Scopes) : Bool := s.vars.length == 1

def push (s : Scopes) : Scopes := { s with vars := [] :: s.vars }

/-- The frame after the locals of a scope are gone. -/
def releaseAll (f : Frame) (vars : List Var) : Frame :=
  vars.foldl (fun f v => if v.kind = .local then f.release v.slot else f) f

/-- Leaves the innermost scope. -/
def pop (s : Scopes) : Scopes :=
  match s.vars with
  | [] => s
  | vars :: outer => ⟨outer, s.frame.map (releaseAll · vars)⟩

/-- The innermost variable of a name. -/
def lookup? (s : Scopes) (name : Text) : Option Var :=
  s.vars.findSome? fun vars => vars.find? (·.name == name)

/-- Adds a variable to the innermost scope; a local gets its slot. -/
def declare (s : Scopes) (v : Var) : Except ScopeError (Var × Scopes) :=
  match s.vars with
  | [] => .error .noScope
  | vars :: outer =>
    if vars.any (·.name == v.name) then .error .redefined
    else if v.kind = .local then
      match s.frame with
      | none => .error (.outsideMethod v.name)
      | some f =>
        let (slot, f) := f.alloc v.type
        let v := { v with slot }
        .ok (v, ⟨(v :: vars) :: outer, some f⟩)
    else .ok (v, ⟨(v :: vars) :: outer, s.frame⟩)

/-- Takes slots of the frame for a value without a name. -/
def alloc? (s : Scopes) (t : Ty) : Option (Nat × Scopes) :=
  s.frame.map fun f =>
    let (slot, f) := f.alloc t
    (slot, { s with frame := some f })

/-- Starts a method; an instance method keeps slot zero for its receiver. -/
def enter (s : Scopes) (isStatic : Bool) (result : Option Ty) : Scopes :=
  let f : Frame := { isStatic, result }
  { s with frame := some (if isStatic then f else (f.alloc .object).2) }.push

/-- Ends a method. -/
def leave (s : Scopes) : Scopes := { s.pop with frame := none }

end Scopes

end Classwright
