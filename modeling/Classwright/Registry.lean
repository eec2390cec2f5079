import Classwright.Ty.Assign

/-!
Functions that a source may call, by name. A registry keeps the overloads of a name in the order in
which they were declared, and the names in the order of their first function.

A call takes the overload with the cheapest conversions; on a tie a function of the source goes
before one of the host, and then the earlier one wins. Two functions of a name must differ in the
descriptors of their arguments, except that one of the source may replace one of the host.
-/

namespace Classwright

/-- How a function is called. -/
inductive Dispatch where
  | static
  | virtual
  /-- A method of the standard output stream. -/
  | output
  | other (code : Int)
  deriving DecidableEq, Repr, Inhabited

namespace Dispatch

def code : Dispatch → Int
  | static => 0
  | virtual => 1
  | output => 2
  | other n => n

def ofCode (n : Int) : Dispatch :=
  if n = 0 then static else if n = 1 then virtual else if n = 2 then output else other n

def name : Dispatch → Text
  | static => "static"
  | virtual => "virtual"
  | output => "output"
  | other _ => "unknown"

end Dispatch

structure Function where
  dispatch : Dispatch
  name : Text
  /-- The internal name of the class that holds it. -/
  owner : Text
  sig : Signature
  /-- Whether it is declared in the source at hand. -/
  isLocal : Bool := false
  deriving Repr, Inhabited

namespace Function

def display (f : Function) : Text := f.owner ++ "." ++ f.name ++ f.sig.descriptor

/-- The descriptors of the arguments alone. -/
def argDescriptor (f : Function) : Text := Ty.descriptors f.sig.ins

/-- The sum of the costs of converting each argument to its parameter. -/
def convertAll : List Ty → List Ty → Option Nat
  | [], [] => some 0
  | target :: targets, source :: sources => do
    let c ← target.assignCost? source
    let cs ← convertAll targets sources
    return c + cs
  | _, _ => none

/-- The cost of a call with some arguments, if they fit. -/
def callCost? (f : Function) (args : List Ty) : Option Nat := convertAll f.sig.ins args

end Function

/-- A function stands in the way of another one. -/
structure Conflict where
  name : Text
  sig : Signature

namespace Conflict

def message (c : Conflict) : Text :=
  "function '" ++ c.name ++ "' is already defined with signature " ++ c.sig.descriptor

/-- The message for a conflict between two registries. -/
def mergeMessage (c : Conflict) : Text := "merge: " ++ c.message

end Conflict

structure Registry where
  groups : List (Text × List Function) := []

namespace Registry

def empty : Registry := {}

/-- The functions of a name, in the order of their declaration. -/
def overloads (r : Registry) (name : Text) : List Function := (r.groups.lookup name).getD []

def has (r : Registry) (name : Text) : Bool := !(r.overloads name).isEmpty

/-- All functions, grouped by name. -/
def all (r : Registry) : List Function := r.groups.flatMap (·.2)

def size (r : Registry) : Nat := r.all.length

/-- The groups with a function put at the end of its own. -/
def insertGroup (f : Function) : List (Text × List Function) → List (Text × List Function)
  | [] => [(f.name, [f])]
  | (name, fs) :: groups =>
    if name = f.name then (name, fs ++ [f]) :: groups else (name, fs) :: insertGroup f groups

/-- The registry with one more function, whether it may be there or not. -/
def push (r : Registry) (f : Function) : Registry := ⟨insertGroup f r.groups⟩

/-- The function that stands in the way of a new one. -/
def conflict? (r : Registry) (f : Function) : Option Function :=
  (r.overloads f.name).find? fun prev =>
    (prev.isLocal || !f.isLocal) && prev.argDescriptor == f.argDescriptor

/-- The registry with one more function, if none stands in its way. -/
def add (r : Registry) (f : Function) : Except Conflict Registry :=
  match r.conflict? f with
  | some prev => .error ⟨f.name, prev.sig⟩
  | none => .ok (r.push f)

/-- The registry with more functions up to the first conflict, and that conflict. -/
def addAll (r : Registry) : List Function → Registry × Option Conflict
  | [] => (r, none)
  | f :: fs =>
    match r.add f with
    | .ok r' => r'.addAll fs
    | .error e => (r, some e)

/-- The registry with the functions of another one up to the first conflict, and that conflict. -/
def merge (r other : Registry) : Registry × Option Conflict := r.addAll other.all

/-- The function with exactly the given argument types. -/
def findExact? (r : Registry) (name : Text) (args : List Ty) : Option Function :=
  (r.overloads name).find? fun f => Ty.sameAll f.sig.ins args

/-- The better of the choice so far and a function with the cost of calling it. -/
def better (best : Option (Function × Nat)) (f : Function) (cost : Option Nat) :
    Option (Function × Nat) :=
  match best, cost with
  | best, none => best
  | none, some c => some (f, c)
  | some (g, d), some c =>
    if c < d || c == d && f.isLocal && !g.isLocal then some (f, c) else some (g, d)

/-- The best of some functions for the arguments, and the cost of calling it. -/
def best? (fs : List Function) (args : List Ty) : Option (Function × Nat) :=
  fs.foldl (fun best f => better best f (f.callCost? args)) none

/-- The overload that a call takes. -/
def lookup? (r : Registry) (name : Text) (args : List Ty) : Option Function :=
  if args.any Ty.isVoid then none else (best? (r.overloads name) args).map (·.1)

/-- The class of the standard output stream. -/
def outputOwner : Text := "java/io/PrintStream"

/-- The argument types that the output functions come in. -/
def outputArgs : List (List Ty) :=
  [[], [.double], [.float], [.int], [.bool], [.char], [.long], [.object]]

def outputFunctions (name : Text) : List Function :=
  outputArgs.map fun ins => { dispatch := .output, name, owner := outputOwner, sig := { ins } }

/-- The functions that every source may call. -/
def builtins : Registry :=
  (outputFunctions "print" ++ outputFunctions "println").foldl push empty

end Registry

end Classwright
