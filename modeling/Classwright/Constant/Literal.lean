import Classwright.Constant
import Classwright.Floating.Reading
import Classwright.Text.Utf8
import Classwright.Token

/-!
The constants that literals stand for.
-/

namespace Classwright

inductive LiteralFault where
  | badChar (text : Text)
  | outOfRange
  | badNumber
  | unexpected
  deriving DecidableEq, Repr

def LiteralFault.message : LiteralFault → Text
  | .badChar t => "Invalid character literal " ++ t ++ "."
  | .outOfRange => "Integer literal out of range."
  | .badNumber => "Invalid number literal."
  | .unexpected => "Unexpected literal."

/-- Why a literal stands for nothing. -/
structure LiteralError where
  fault : LiteralFault
  tok : Token
  deriving DecidableEq, Repr

namespace Literal

/-- The byte that a backslash and a byte stand for. -/
def escaped (b : UInt8) : UInt8 :=
  if b = ascii 'n' then 0x0A
  else if b = ascii 't' then 0x09
  else if b = ascii 'r' then 0x0D
  else if b = ascii '0' then 0
  else b

/-- The text with its escapes resolved, after what was read of it backwards. -/
def unescape (read : Text) : Text → Text
  | [] => read.reverse
  | [b] => (b :: read).reverse
  | b :: c :: rest =>
    if b = ascii '\\' then unescape (escaped c :: read) rest else unescape (b :: read) (c :: rest)
  termination_by t => t.length

/-- The text between the quotes of a literal. -/
def unquote (t : Text) : Text := unescape [] (t.drop 1).dropLast

/-- The number of digits that may be followed by a mark for long numbers. -/
def integer (t : Text) : Except LiteralFault Constant :=
  let isLong := t.getLast? == some (ascii 'l') || t.getLast? == some (ascii 'L')
  let n := Text.toNat (if isLong then t.dropLast else t)
  if isLong then
    if n < 0x8000000000000000 then .ok ⟨.long, .int (Int64.ofNat n)⟩ else .error .outOfRange
  else if n < 0x80000000 then .ok ⟨.int, .int (Int64.ofNat n)⟩
  else .error .outOfRange

/-- The number of a text that may end in a mark for its precision. -/
def floating (t : Text) : Except LiteralFault Constant :=
  let last := t.getLast?
  let isFloat := last == some (ascii 'f') || last == some (ascii 'F')
  let isDouble := last == some (ascii 'd') || last == some (ascii 'D')
  match (Decimal.read (if isFloat || isDouble then t.dropLast else t)).toDouble? with
  | none => .error .badNumber
  | some x => .ok (.ofDouble (if isFloat then .float else .double) x)

/-- The character between quotes, which has to be a single one of sixteen bits. -/
def character (t : Text) : Except LiteralFault Constant :=
  match Utf8.pieces (unquote t) with
  | [p] =>
    if p.toChar.toNat ≤ 0xFFFF then .ok ⟨.char, .int (Int64.ofNat p.toChar.toNat)⟩
    else .error (.badChar t)
  | _ => .error (.badChar t)

def ofKind (kind : Kind) (t : Text) : Except LiteralFault Constant :=
  match kind with
  | .keyword .true_ => .ok (.ofBool true)
  | .keyword .false_ => .ok (.ofBool false)
  | .keyword .null_ => .ok ⟨.null, .null⟩
  | .string => .ok (.ofText (unquote t))
  | .char => character t
  | .int => integer t
  | .float => floating t
  | _ => .error .unexpected

end Literal

/-- The constant of a literal token. -/
def Constant.ofToken (tok : Token) : Except LiteralError Constant :=
  match Literal.ofKind tok.kind tok.text with
  | .error e => .error ⟨e, tok⟩
  | .ok c => .ok c

end Classwright
