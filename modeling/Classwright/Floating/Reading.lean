import Classwright.Floating.Shortest

/-!
Decimal numbers from text: digits, a fraction and an exponent, each of the last two optional.
-/

namespace Classwright.Decimal

/-- From here on an exponent takes no more digits. -/
def farExponent : Nat := 10000

/-- The size of an exponent: its digits, as long as it has not gone too far. -/
def exponentSize (digits : Text) : Nat :=
  digits.foldl (fun e b => if e < farExponent then 10 * e + (b.toNat - 48) else e) 0

/-- The number of an exponent after its mark: a sign or none, and digits. -/
def readExponent : Text → Int
  | 0x2D :: digits => -(exponentSize digits : Int)
  | 0x2B :: digits => exponentSize digits
  | digits => exponentSize digits

/-- The fraction that a text starts with, without its point. -/
def readFraction : Text → Text
  | 0x2E :: rest => rest.takeWhile Text.isDigit
  | _ => []

/-- The number that a text spells. -/
def read (t : Text) : Decimal :=
  let isMark (b : UInt8) : Bool := b == ascii 'e' || b == ascii 'E'
  let whole := t.takeWhile Text.isDigit
  let frac := readFraction (t.drop whole.length)
  let exp := readExponent ((t.dropWhile (!isMark ·)).drop 1)
  ⟨Text.toNat (whole ++ frac), exp - frac.length⟩

/-- Beyond this place a number with its first digit there has no double near it. -/
def farPlace : Int := 400

/-- The nearest double, unless the number is too large for one. -/
def toDouble? (d : Decimal) : Option Double :=
  if d.digits = 0 then some ⟨0⟩
  else
    -- a bit is more than a quarter of a digit and less than a third of one
    let bits := Nat.log2 d.digits
    if farPlace < d.exp + (bits / 4 : Nat) then none
    else if d.exp + (bits / 3 + 1 : Nat) < -farPlace then some ⟨0⟩
    else
      let (num, den) := scale d.digits 1 d.exp
      let mag := Format.binary64.magnitude num den
      if mag = Format.binary64.infinity then none else some ⟨UInt64.ofNat mag⟩

end Classwright.Decimal
