import Classwright.ClassFile
import Classwright.Text.Modified

/-!
Classes as bytes. The body is written first, since its names have to be in the pool, which stands in
front of it.
-/

namespace Classwright

inductive EncodeError where
  | frame (method : Text) (stack locals : Int)
  | overflow (cls : Text)
  | tooLong (cls : Text) (size : Nat)
  deriving DecidableEq, Repr

def EncodeError.message : EncodeError → Text
  | .frame m s l =>
    "method " ++ m ++ ": frame too large: stack " ++ Text.ofInt s ++ ", locals " ++ Text.ofInt l
  | .overflow c => "class " ++ c ++ ": constant pool overflow"
  | .tooLong c n => "class " ++ c ++ ": string constant too long: " ++ Text.ofNat n ++ " bytes"

/-- The bytes of an entry after its tag, or the size of a text that is too long. -/
def PoolEntry.encodeBody : PoolEntry → Except Nat Text
  | .filler => .ok []
  | .utf8 s =>
    let t := Modified.encode s
    let n := t.length
    if 65535 < n then .error n else .ok (Text.word n ++ t)
  | .int v => .ok (Text.bigEndian 4 v.toUInt32.toNat)
  | .float v => .ok (Text.bigEndian 4 v.bits.toNat)
  | .long v => .ok (Text.bigEndian 8 v.toUInt64.toNat)
  | .double v => .ok (Text.bigEndian 8 v.bits.toNat)
  | .cls a | .string a => .ok (Text.word a)
  | .field a b | .method a b | .interfaceMethod a b | .nameAndType a b =>
    .ok (Text.word a ++ Text.word b)

/-- The bytes of an entry; what only keeps an index free has none. -/
def PoolEntry.encode (e : PoolEntry) : Except Nat Text :=
  match e with
  | .filler => .ok []
  | e => e.encodeBody.map (UInt8.ofNat e.tag :: ·)

/-- The bytes of a pool, or the size of a text in it that is too long. -/
def Pool.encode (p : Pool) : Except Nat Text := do
  let chunks ← p.entries.toList.mapM PoolEntry.encode
  return Text.word p.size ++ chunks.flatten

namespace ClassFile

def magic : Nat := 0xCAFEBABE

def majorVersion : Nat := 49

/-- A field, and the pool with its name and descriptor. -/
def encodeField (f : Field) (p : Pool) : Text × Pool :=
  let (name, p) := p.utf8 f.name
  let (desc, p) := p.utf8 f.desc
  (Text.word f.access.toNat ++ Text.word name ++ Text.word desc ++ Text.word 0, p)

/-- A method, and the pool with its names. An abstract one has no code. -/
def encodeMethod (m : Method) (p : Pool) : Except EncodeError (Text × Pool) :=
  let (name, p) := p.utf8 m.name
  let (desc, p) := p.utf8 m.desc
  let head := Text.word m.access.toNat ++ Text.word name ++ Text.word desc
  if m.access.has .abstract then .ok (head ++ Text.word 0, p)
  else if 65535 < m.maxStack ∨ 65535 < m.maxLocals then
    .error (.frame m.name m.maxStack m.maxLocals)
  else
    let (attr, p) := p.utf8 "Code"
    let size := m.code.length
    .ok (head ++ Text.word 1 ++ Text.word attr ++ Text.bigEndian 4 (12 + size)
      ++ Text.word m.maxStack ++ Text.word m.maxLocals ++ Text.bigEndian 4 size ++ m.code
      ++ Text.word 0 ++ Text.word 0, p)

/-- Fields one after the other; `done` holds those before, the last one first. -/
def encodeFields (done : List Text) : List Field → Pool → Text × Pool
  | [], p => (done.reverse.flatten, p)
  | f :: fs, p =>
    let (t, p) := encodeField f p
    encodeFields (t :: done) fs p

/-- Methods one after the other; `done` holds those before, the last one first. -/
def encodeMethods (done : List Text) : List Method → Pool → Except EncodeError (Text × Pool)
  | [], p => .ok (done.reverse.flatten, p)
  | m :: ms, p =>
    match encodeMethod m p with
    | .error e => .error e
    | .ok (t, p) => encodeMethods (t :: done) ms p

/-- The attributes of a class: the file that it was made from. -/
def encodeSource (file : Text) (p : Pool) : Text × Pool :=
  if file.isEmpty then (Text.word 0, p)
  else
    let (attr, p) := p.utf8 "SourceFile"
    let (name, p) := p.utf8 file
    (Text.word 1 ++ Text.word attr ++ Text.bigEndian 4 2 ++ Text.word name, p)

/-- The bytes of a class, and the pool that they were written with. -/
def encode (c : ClassFile) : Except EncodeError (Text × Pool) := do
  let (this, p) := c.pool.cls c.name
  let (super, p) := p.cls c.super
  let (fields, p) := encodeFields [] c.fields.toList p
  let (methods, p) ← encodeMethods [] c.methods.toList p
  let (source, p) := encodeSource c.sourceFile p
  if p.overflow then throw (.overflow c.name)
  let body := Text.word c.access.toNat ++ Text.word this ++ Text.word super ++ Text.word 0
    ++ Text.word c.fields.size ++ fields ++ Text.word c.methods.size ++ methods ++ source
  match p.encode with
  | .error n => throw (.tooLong c.name n)
  | .ok pool =>
    return (Text.bigEndian 4 magic ++ Text.word 0 ++ Text.word majorVersion ++ pool ++ body, p)

end ClassFile

end Classwright
