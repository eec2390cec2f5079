import Classwright.ClassFile.Encode

/-!
Reading classes from bytes. Attributes other than the code of a method and the source of a class are
passed over; nothing may follow the class.
-/

namespace Classwright

inductive DecodeError where
  | badMagic (n : Nat)
  | version (n : Nat)
  | poolEnded
  | badTag (tag index : Nat)
  | ended
  | badClass (offset : Nat)
  | badUtf8 (offset : Nat)
  | trailing (size : Nat)
  deriving DecidableEq, Repr

def DecodeError.message : DecodeError → Text
  | .badMagic n => "bad magic: " ++ Text.hex 0 n
  | .version n => "unsupported class file version: " ++ Text.ofNat n
  | .poolEnded => "constant pool: unexpected end of class file"
  | .badTag t i =>
    "constant pool: unsupported constant tag " ++ Text.ofNat t ++ " at " ++ Text.ofNat i
  | .ended => "unexpected end of class file"
  | .badClass i => "bad class reference at " ++ Text.ofNat i
  | .badUtf8 i => "bad utf8 reference at " ++ Text.ofNat i
  | .trailing n => Text.ofNat n ++ " trailing bytes"

/-- Bytes that are left, after those already read. -/
structure Reader where
  offset : Nat
  rest : Text

/-- Reading that may fail. -/
abbrev Read := StateT Reader (Except DecodeError)

namespace Read

/-- The next bytes; `short` is the error if there are fewer. -/
def bytesOr (short : DecodeError) (n : Nat) : Read Text := fun r =>
  match Text.split? [] n r.rest with
  | none => .error short
  | some (t, rest) => .ok (t, ⟨r.offset + n, rest⟩)

def bytes (n : Nat) : Read Text := bytesOr .ended n

/-- The number that the next bytes spell; `short` is the error if there are fewer. -/
def numberOr (short : DecodeError) (n : Nat) : Read Nat := do
  return Text.ofBigEndian (← bytesOr short n)

def number (n : Nat) : Read Nat := numberOr .ended n

def skip (n : Nat) : Read Unit := do
  let _ ← bytes n

/-- Some items; `done` holds those before. -/
def many {α : Type} (item : Read α) (done : Array α) : Nat → Read (Array α)
  | 0 => return done
  | n + 1 => do
    let x ← item
    many item (done.push x) n

/-! ### The pool -/

/-- The entry at an index of the pool. -/
def entry (index : Nat) : Read PoolEntry := do
  let number := numberOr .poolEnded
  let tag ← numberOr (.badTag 0 index) 1
  match tag with
  | 1 => return .utf8 (Modified.decode (← bytesOr .poolEnded (← number 2)))
  | 3 => return .int (UInt32.ofNat (← number 4)).toInt32
  | 4 => return .float ⟨UInt32.ofNat (← number 4)⟩
  | 5 => return .long (UInt64.ofNat (← number 8)).toInt64
  | 6 => return .double ⟨UInt64.ofNat (← number 8)⟩
  | 7 => return .cls (← number 2)
  | 8 => return .string (← number 2)
  | 9 => return .field (← number 2) (← number 2)
  | 10 => return .method (← number 2) (← number 2)
  | 11 => return .interfaceMethod (← number 2) (← number 2)
  | 12 => return .nameAndType (← number 2) (← number 2)
  | t => throw (.badTag t index)

/-- The entries of a pool of some size, after those already read. -/
def entries (size : Nat) (p : Pool) : Nat → Read Pool
  | 0 => return p
  | fuel + 1 =>
    if size ≤ p.size then return p
    else do
      let e ← entry p.size
      let list := p.entries.push e
      let list := if e.slots = 2 then list.push .filler else list
      entries size { p with entries := list, index := p.index.insert e p.size } fuel

/-- The pool. Each entry takes an index at least, so the size is fuel enough. -/
def pool : Read Pool := do
  let size ← numberOr .poolEnded 2
  entries size .empty size

/-! ### The rest of a class -/

def className (p : Pool) : Read Text := do
  let at_ := (← get).offset
  match p.get? (← number 2) with
  | some (.cls n) => return ((p.get? n).map (·.text)).getD []
  | _ => throw (.badClass at_)

def name (p : Pool) : Read Text := do
  let at_ := (← get).offset
  match p.get? (← number 2) with
  | some (.utf8 s) => return s
  | _ => throw (.badUtf8 at_)

/-- Passes over attributes. -/
def skipAttributes : Read Unit := do
  let one : Read Unit := do
    skip 2
    skip (← number 4)
  let _ ← many one #[] (← number 2)

def field (p : Pool) : Read Field := do
  let access ← number 2
  let name ← name p
  let desc ← Read.name p
  skipAttributes
  return ⟨UInt16.ofNat access, name, desc⟩

/-- The attributes of a method, of which its code is kept. -/
def methodAttributes (p : Pool) (m : Method) : Nat → Read Method
  | 0 => return m
  | n + 1 => do
    let attr ← name p
    let size ← number 4
    if attr = "Code" then
      let stack ← number 2
      let locals ← number 2
      let code ← bytes (← number 4)
      skip (8 * (← number 2))
      skipAttributes
      methodAttributes p { m with maxStack := stack, maxLocals := locals, code := code } n
    else
      skip size
      methodAttributes p m n

def method (p : Pool) : Read Method := do
  let access ← number 2
  let name ← name p
  let desc ← Read.name p
  methodAttributes p { access := UInt16.ofNat access, name := name, desc := desc } (← number 2)

/-- The attributes of a class, of which its source is kept. -/
def classAttributes (p : Pool) (source : Text) : Nat → Read Text
  | 0 => return source
  | n + 1 => do
    let attr ← name p
    let size ← number 4
    if attr = "SourceFile" ∧ size = 2 then
      classAttributes p (← name p) n
    else
      skip size
      classAttributes p source n

def classFile : Read ClassFile := do
  let magic ← numberOr (.badMagic 0) 4
  if magic ≠ ClassFile.magic then throw (.badMagic magic)
  skipHead
  let version ← numberOr .poolEnded 2
  if ClassFile.majorVersion < version then throw (.version version)
  let p ← pool
  let access ← number 2
  let this ← className p
  let super ← className p
  let _ ← many (skip 2) #[] (← number 2)
  let fields ← many (field p) #[] (← number 2)
  let methods ← many (method p) #[] (← number 2)
  let source ← classAttributes p [] (← number 2)
  return ⟨UInt16.ofNat access, this, super, fields, methods, source, p⟩
where
  /-- The minor version does not matter. -/
  skipHead : Read Unit := do
    let _ ← numberOr .poolEnded 2

end Read

/-- The class that bytes spell. -/
def ClassFile.decode (t : Text) : Except DecodeError ClassFile := do
  let (c, r) ← Read.classFile.run ⟨0, t⟩
  if r.rest.isEmpty then return c
  throw (.trailing r.rest.length)

end Classwright
