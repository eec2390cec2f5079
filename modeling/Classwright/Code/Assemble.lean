import Classwright.Code
import Classwright.Pool
import Classwright.Text.BigEndian

/-!
Code as bytes. Constants and members get their places in the pool first, in the order of the
instructions; this settles the size of every instruction, hence all offsets, and with them the
distances of the jumps.
-/

namespace Classwright

inductive AssembleError where
  | tracking (cause : CodeError)
  | noConstant (index : Nat) (op : Opcode)
  | tooLarge (size : Nat)
  | unboundLabel (index : Nat) (op : Opcode) (l : Label)
  | tooFar (index : Nat) (op : Opcode) (distance : Int)
  deriving DecidableEq, Repr

namespace AssembleError

/-- An instruction by its number and opcode. -/
def site (i : Nat) (op : Opcode) : Text := "instr " ++ Text.ofNat i ++ " (" ++ op.name ++ "): "

def message : AssembleError → Text
  | tracking e => e.message
  | noConstant i op => site i op ++ "unsupported constant <nil>"
  | tooLarge n => "code too large: " ++ Text.ofNat n ++ " bytes"
  | unboundLabel i op l => site i op ++ "unbound label " ++ Text.ofNat l
  | tooFar i op n => site i op ++ "jump too far: " ++ Text.ofInt n

end AssembleError

namespace Instr

/-- The place in the pool of what an instruction refers to, zero if it refers to nothing. There is
none for a constant that is missing. -/
def intern (i : Instr) (p : Pool) : Option Nat × Pool :=
  match i.operand with
  | .const none => (none, p)
  | .const (some v) => (p.literal v).map some id
  | .member r _ _ =>
    let found :=
      if Opcode.between .getstatic .putfield i.op then p.field r.cls r.name r.desc
      else if i.op = .invokeinterface ∨ r.isInterface then p.interfaceMethod r.cls r.name r.desc
      else p.method r.cls r.name r.desc
    found.map some id
  | .cls name => (p.cls name).map some id
  | _ => (some 0, p)

/-- Local variables and increments that fit one byte each. -/
def isNarrow (slot by_ : Int) : Bool := slot ≤ 255 && -128 ≤ by_ && by_ ≤ 127

/-- The number of bytes of an instruction; `index` is its place in the pool. -/
def size (i : Instr) (index : Nat) : Nat :=
  match i.operand with
  | .plain => 1
  | .slot n => if n ≤ 3 then 1 else if n ≤ 255 then 2 else 4
  | .increment n by_ => if isNarrow n by_ then 3 else 6
  | .immediate _ => if i.op = .bipush then 2 else 3
  | .const _ => if i.op ≠ .ldc2W ∧ index ≤ 255 then 2 else 3
  | .member .. => if i.op = .invokeinterface then 5 else 3
  | .cls _ | .label _ => 3

/-- The low byte of a number. -/
def byte (n : Int) : UInt8 := UInt8.ofNat (n % 256).toNat

/-- The one byte form of an access to one of the first four local variables. -/
def shortForm (op : Opcode) (slot : Int) : UInt8 :=
  if Opcode.istore.code ≤ op.code then
    Opcode.istore0.code + (op.code - Opcode.istore.code) * 4 + byte slot
  else Opcode.iload0.code + (op.code - Opcode.iload.code) * 4 + byte slot

/-- The bytes of an instruction; `distance` is that of its jump. -/
def encode (i : Instr) (index : Nat) (distance : Int) : Text :=
  let code := i.op.code
  match i.operand with
  | .plain => [code]
  | .slot n =>
    if n ≤ 3 then [shortForm i.op n]
    else if n ≤ 255 then [code, byte n]
    else Opcode.wide.code :: code :: Text.word n
  | .increment n by_ =>
    if isNarrow n by_ then [code, byte n, byte by_]
    else Opcode.wide.code :: code :: (Text.word n ++ Text.word by_)
  | .immediate v => if i.op = .bipush then [code, byte v] else code :: Text.word v
  | .const _ =>
    if i.op = .ldc2W then code :: Text.word index
    else if index ≤ 255 then [Opcode.ldc.code, byte index]
    else Opcode.ldcW.code :: Text.word index
  | .member _ pop _ =>
    if i.op = .invokeinterface then code :: (Text.word index ++ [byte pop, 0])
    else code :: Text.word index
  | .cls _ => code :: Text.word index
  | .label _ => code :: Text.word distance

end Instr

namespace Code

/-- An instruction with its offset and its place in the pool. -/
structure Placed where
  instr : Instr
  offset : Nat
  index : Nat

/-- Gives instructions their places after those already placed; `offset` is where the next one goes.
The pool keeps what was added even if a constant is missing. -/
def place (done : Array Placed) (offset : Nat) :
    List Instr → Pool → Except AssembleError (Array Placed × Nat) × Pool
  | [], p => (.ok (done, offset), p)
  | i :: rest, p =>
    match i.intern p with
    | (none, p) => (.error (.noConstant done.size i.op), p)
    | (some index, p) => place (done.push ⟨i, offset, index⟩) (offset + i.size index) rest p

/-- The bytes of a placed instruction. A label at the end stands for the size of the code. -/
def encodePlaced (c : Code) (placed : Array Placed) (total k : Nat) (x : Placed) :
    Except AssembleError Text :=
  match x.instr.target? with
  | none => .ok (x.instr.encode x.index 0)
  | some l =>
    match c.labelIndex? l with
    | none => .error (.unboundLabel k x.instr.op l)
    | some t =>
      let target := (placed[t]?.map (·.offset)).getD total
      let distance : Int := (target : Int) - x.offset
      if distance < -32768 ∨ 32767 < distance then .error (.tooFar k x.instr.op distance)
      else .ok (x.instr.encode x.index distance)

/-- The greatest size of code. -/
def maxSize : Nat := 65535

/-- The bytes of code, and the pool with what it refers to. -/
def assemble (c : Code) (p : Pool) : Except AssembleError Text × Pool :=
  match c.fault with
  | some e => (.error (.tracking e), p)
  | none =>
    match place #[] 0 c.instrs.toList p with
    | (.error e, p) => (.error e, p)
    | (.ok (placed, total), p) =>
      if maxSize < total then (.error (.tooLarge total), p)
      else
        let chunks := placed.toList.zipIdx.mapM fun (x, k) => c.encodePlaced placed total k x
        (chunks.map List.flatten, p)

end Code

end Classwright
