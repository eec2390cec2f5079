import Classwright.Floating.Shortest
import Classwright.Instr
import Classwright.Text.Quoted
import Std.Data.HashMap

/-!
Constant pools. An entry refers to others by index; each entry is there once, and asking for it again
gives the same index. Index zero is never used, and numbers of eight bytes take two indices. A pool
that is full answers zero and remembers that it ran over.
-/

namespace Classwright

/-- An entry of a constant pool. -/
inductive PoolEntry where
  /-- What stands at index zero and after a number of eight bytes. -/
  | filler
  | utf8 (s : Text)
  | int (v : Int32)
  | float (v : Single)
  | long (v : Int64)
  | double (v : Double)
  | cls (name : Nat)
  | string (s : Nat)
  | field (cls member : Nat)
  | method (cls member : Nat)
  | interfaceMethod (cls member : Nat)
  | nameAndType (name desc : Nat)
  deriving DecidableEq, Repr, Hashable, Inhabited

namespace PoolEntry

/-- The number that marks the kind of an entry in a class file. -/
def tag : PoolEntry → Nat
  | filler => 0
  | utf8 _ => 1
  | int _ => 3
  | float _ => 4
  | long _ => 5
  | double _ => 6
  | cls _ => 7
  | string _ => 8
  | field .. => 9
  | method .. => 10
  | interfaceMethod .. => 11
  | nameAndType .. => 12

/-- How many indices an entry takes. -/
def slots : PoolEntry → Nat
  | long _ | double _ => 2
  | _ => 1

/-- The characters of an entry that holds some. -/
def text : PoolEntry → Text
  | utf8 s => s
  | _ => []

end PoolEntry

structure Pool where
  entries : Array PoolEntry := #[.filler]
  index : Std.HashMap PoolEntry Nat := {}
  /-- An entry was asked for that did not fit. -/
  overflow : Bool := false

namespace Pool

def empty : Pool := {}

/-- The number of indices in use. -/
def size (p : Pool) : Nat := p.entries.size

/-- The greatest size of a pool. -/
def maxSize : Nat := 65535

def get? (p : Pool) (i : Nat) : Option PoolEntry := if i = 0 then none else p.entries[i]?

/-- The index of an entry, which is added if it is not there. -/
def add (p : Pool) (e : PoolEntry) : Nat × Pool :=
  match p.index[e]? with
  | some i => (i, p)
  | none =>
    if maxSize < p.entries.size + e.slots then (0, { p with overflow := true })
    else
      let i := p.entries.size
      let entries := p.entries.push e
      let entries := if e.slots = 2 then entries.push .filler else entries
      (i, { p with entries := entries, index := p.index.insert e i })

def utf8 (p : Pool) (s : Text) : Nat × Pool := p.add (.utf8 s)

def cls (p : Pool) (name : Text) : Nat × Pool :=
  let (i, p) := p.utf8 name
  p.add (.cls i)

def string (p : Pool) (s : Text) : Nat × Pool :=
  let (i, p) := p.utf8 s
  p.add (.string i)

def nameAndType (p : Pool) (name desc : Text) : Nat × Pool :=
  let (i, p) := p.utf8 name
  let (j, p) := p.utf8 desc
  p.add (.nameAndType i j)

/-- A member of a class; `entry` is for its kind. -/
def member (p : Pool) (entry : Nat → Nat → PoolEntry) (cls name desc : Text) : Nat × Pool :=
  let (i, p) := p.cls cls
  let (j, p) := p.nameAndType name desc
  p.add (entry i j)

def field (p : Pool) (cls name desc : Text) : Nat × Pool := p.member .field cls name desc

def method (p : Pool) (cls name desc : Text) : Nat × Pool := p.member .method cls name desc

def interfaceMethod (p : Pool) (cls name desc : Text) : Nat × Pool :=
  p.member .interfaceMethod cls name desc

def literal (p : Pool) : Literal → Nat × Pool
  | .int v => p.add (.int v)
  | .float v => p.add (.float v)
  | .long v => p.add (.long v)
  | .double v => p.add (.double v)
  | .string s => p.string s

/-- An entry in words, as deep as the fuel lasts. -/
def describeEntry (p : Pool) : Nat → Nat → Text
  | 0, i => "#" ++ Text.ofNat i ++ "?"
  | fuel + 1, i =>
    match p.get? i with
    | none => "#" ++ Text.ofNat i ++ "?"
    | some e =>
      match e with
      | .filler => "#" ++ Text.ofNat i ++ "(tag 0)"
      | .utf8 s => s
      | .int v => Text.ofInt v.toInt
      | .float v => v.text ++ "f"
      | .long v => Text.ofInt v.toInt ++ "L"
      | .double v => v.text
      | .cls n => p.describeEntry fuel n
      | .string n => Text.quoted (((p.get? n).map (·.text)).getD [])
      | .nameAndType a b => p.describeEntry fuel a ++ ":" ++ p.describeEntry fuel b
      | .field a b | .method a b | .interfaceMethod a b =>
        p.describeEntry fuel a ++ "." ++ p.describeEntry fuel b

/-- The entry at an index in words. A chain of references without a cycle is not longer than the
pool. -/
def describe (p : Pool) (i : Nat) : Text := p.describeEntry (p.size + 1) i

end Pool

end Classwright
