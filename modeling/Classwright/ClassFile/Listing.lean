import Classwright.ClassFile

/-!
Classes in words: fields, and methods with their code, one instruction a line after its offset. The
code is read from its bytes, so a class that was read from a file has a listing too.
-/

namespace Classwright

inductive ListingFault where
  | truncated (offset : Nat) (op : Opcode)
  | unsupported (offset : Nat) (code : UInt8)
  deriving DecidableEq, Repr

def ListingFault.message : ListingFault → Text
  | .truncated i op => "offset " ++ Text.ofNat i ++ " (" ++ op.name ++ "): truncated"
  | .unsupported i c =>
    "offset " ++ Text.ofNat i ++ ": unsupported opcode 0x" ++ Text.hex 0 c.toNat

/-- What is wrong with the code of a method. -/
structure ListingError where
  name : Text
  desc : Text
  cause : ListingFault
  deriving DecidableEq, Repr

def ListingError.message (e : ListingError) : Text :=
  "method " ++ e.name ++ e.desc ++ ": " ++ e.cause.message

namespace Listing

/-- The one byte forms of loads, or of stores: the long form and the variable. -/
def shortForm? (op : Opcode) : Option (Opcode × Nat) :=
  let form (long short : Opcode) : Option (Opcode × Nat) :=
    let n := op.code.toNat - short.code.toNat
    if short.code ≤ op.code ∧ n < 20 then some (⟨long.code + UInt8.ofNat (n / 4)⟩, n % 4) else none
  (form .iload .iload0).or (form .istore .istore0)

/-- The words for an operand and the number of its bytes; `none` if there are fewer. `offset` is that
of the instruction. -/
def operand? (p : Pool) (offset : Nat) (wide : Bool) (op : Opcode) (t : Text) :
    Option (Text × Nat) := do
  let width := if wide then 2 else 1
  let (bytes, words) : Nat × (Text → Text) := match op.shape with
    | .slot => (width, fun b => " " ++ Text.ofNat (Text.ofBigEndian b))
    | .increment => (2 * width, fun b =>
        " " ++ Text.ofNat (Text.ofBigEndian (b.take width)) ++ " "
          ++ Text.ofInt (Text.signed (8 * width) (Text.ofBigEndian (b.drop width))))
    | .immediate =>
      let n := if op = .bipush then 1 else 2
      (n, fun b => " " ++ Text.ofInt (Text.signed (8 * n) (Text.ofBigEndian b)))
    | .const =>
      (if op = .ldc then 1 else 2, fun b => " " ++ p.describe (Text.ofBigEndian b))
    | .member =>
      (if op = .invokeinterface then 4 else 2, fun b =>
        " " ++ p.describe (Text.ofBigEndian (b.take 2)))
    | .cls => (2, fun b => " " ++ p.describe (Text.ofBigEndian b))
    | .label => (2, fun b => " " ++ Text.ofInt (offset + Text.signed 16 (Text.ofBigEndian b)))
    | .plain => (0, fun _ => [])
  let (b, _) ← Text.split? [] bytes t
  return (words b, bytes)

/-- The words for an instruction and the number of its bytes after the opcode. A prefix for wide
operands counts as a part of the opcode. -/
def instr (p : Pool) (offset : Nat) (wide : Bool) (op : Opcode) (t : Text) :
    Except ListingFault (Text × Nat) :=
  match shortForm? op with
  | some (long, n) => .ok (long.name ++ " " ++ Text.ofNat n, 0)
  | none =>
    match operand? p offset wide op t with
    | none => .error (.truncated offset op)
    | some (words, n) =>
      if op.info?.isNone then .error (.unsupported offset op.code) else .ok (op.name ++ words, n)

/-- The instruction that a text starts with, after its first byte, and the bytes after that one. -/
def first (p : Pool) (offset : Nat) (b : UInt8) (rest : Text) : Except ListingFault (Text × Nat) :=
  if b = Opcode.wide.code then
    match rest with
    | [] => .error (.truncated offset .wide)
    | b' :: rest' => (instr p offset true ⟨b'⟩ rest').map fun (words, n) => (words, n + 1)
  else instr p offset false ⟨b⟩ rest

/-- The lines of code from an offset on, after those in `done`, the last one first. -/
def lines (p : Pool) (done : List (Nat × Text)) (offset : Nat) (t : Text) :
    Except ListingFault (List (Nat × Text)) :=
  match t with
  | [] => .ok done.reverse
  | b :: rest =>
    match first p offset b rest with
    | .error e => .error e
    | .ok (words, n) => lines p ((offset, words) :: done) (offset + n + 1) (rest.drop n)
  termination_by t.length
  decreasing_by simp only [List.length_drop, List.length_cons]; omega

/-- A line of the listing. -/
def line (l : Nat × Text) : Text :=
  "\t\t" ++ Text.padLeft 4 (Text.ofNat l.1) ++ ": " ++ l.2 ++ "\n"

/-- The listing of code. -/
def code (p : Pool) (t : Text) : Except ListingFault Text :=
  (lines p [] 0 t).map (List.flatMap line)

/-- The flags that have names. -/
def accessNames : List (Access × Text) :=
  [(.pub, "public"), (.priv, "private"), (.prot, "protected"), (.static, "static"),
    (.final, "final")]

def access (a : Access) : Text :=
  accessNames.flatMap fun (flag, name) => if a.has flag then name ++ " " else []

def field (f : Field) : Text := "\t" ++ access f.access ++ f.name ++ " " ++ f.desc ++ "\n"

def method (p : Pool) (m : Method) : Except ListingError Text :=
  match code p m.code with
  | .error e => .error ⟨m.name, m.desc, e⟩
  | .ok t =>
    .ok ("\n\t" ++ access m.access ++ m.name ++ m.desc ++ "  // stack " ++ Text.ofInt m.maxStack
      ++ " locals " ++ Text.ofInt m.maxLocals ++ "\n" ++ t)

end Listing

/-- The listing of a class. -/
def ClassFile.listing (c : ClassFile) : Except ListingError Text := do
  let extend : Text :=
    if c.super.isEmpty || c.super == root then [] else " extends " ++ c.super
  let source : Text := if c.sourceFile.isEmpty then [] else "  // " ++ c.sourceFile
  let methods ← c.methods.toList.mapM (Listing.method c.pool)
  return Listing.access c.access ++ "class " ++ c.name ++ extend ++ source ++ " \x7b\n"
    ++ c.fields.toList.flatMap Listing.field ++ methods.flatten ++ "\x7d\n"

end Classwright
