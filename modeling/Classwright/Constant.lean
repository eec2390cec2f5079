import Classwright.Ty.Assign
import Classwright.Value

/-!
Constants: values with their types, and how a value moves from one number type to another.
-/

namespace Classwright

structure Constant where
  type : Ty
  value : Value
  deriving Repr

namespace Constant

def ofBool (b : Bool) : Constant := ⟨.bool, .bool b⟩

def ofText (s : Text) : Constant := ⟨.string, .str s⟩

/-- A whole number wrapped into the range of a type. -/
def wrapInt (p : Prim) (i : Int64) : Int64 :=
  match p with
  | .int => i.toInt32.toInt64
  | .short => i.toInt16.toInt64
  | .byte => i.toInt8.toInt64
  | .char => i.toUInt64.toUInt16.toUInt64.toInt64
  | _ => i

/-- The constant of a whole number in the range of its type. -/
def ofInt (p : Prim) (i : Int64) : Constant := ⟨.prim p, .int (wrapInt p i)⟩

/-- The constant of a number in the precision of its type. -/
def ofDouble (p : Prim) (x : Double) : Constant :=
  ⟨.prim p, .float (if p = .float then x.toSinglePrecision else x)⟩

def isFloating (p : Prim) : Bool := p == .float || p == .double

def isIntegral (p : Prim) : Bool := p == .int || p == .long

/-- A number as one of a wider type. -/
def widen (c : Constant) (p : Prim) : Constant :=
  match c.value with
  | .int i => if isFloating p then ofDouble p (.ofInt i.toInt) else ⟨.prim p, .int i⟩
  | v => ⟨.prim p, v⟩

/-- How two numbers of one type compare, if they do. -/
def compare? (a b : Constant) : Option Ordering :=
  match a.value, b.value with
  | .int i, .int j => some (compare i.toInt j.toInt)
  | .float x, .float y => x.compare? y
  | _, _ => none

end Constant

end Classwright
