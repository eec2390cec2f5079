import Classwright.Floating
import Classwright.Text

/-!
Decimal text of floating point numbers: the fewest digits that read back as the same number, of
these the nearest, and of two as near the one with an even last digit. Numbers from 0.0001 up to but
not including a million are written positionally, the others with an exponent of at least two digits.
-/

namespace Classwright

/-- The decimal number `digits · 10^exp`. -/
structure Decimal where
  digits : Nat
  exp : Int
  deriving DecidableEq, Repr

namespace Decimal

/-- A number times a power of ten, its denominator taken along. -/
def scale (num den : Nat) (e : Int) : Nat × Nat :=
  if 0 ≤ e then (num * Nat.pow 10 e.toNat, den) else (num, den * Nat.pow 10 (-e).toNat)

/-- The numbers that round to a given one: those between the ends, and the ends too if `closed`. -/
structure Interval where
  loNum : Nat
  loDen : Nat
  hiNum : Nat
  hiDen : Nat
  closed : Bool

namespace Interval

def contains (i : Interval) (num den : Nat) : Bool :=
  if i.closed then i.loNum * den ≤ num * i.loDen && num * i.hiDen ≤ i.hiNum * den
  else i.loNum * den < num * i.loDen && num * i.hiDen < i.hiNum * den

/-- The numbers that round to the one with a significand and an exponent. -/
def around (f : Format) (m : Nat) (e : Int) : Interval :=
  let (hiNum, hiDen) := Format.shift (2 * m + 1) 1 (e - 1)
  let (loNum, loDen) :=
    if m = Nat.pow 2 (f.precision - 1) ∧ f.minExp < e then Format.shift (4 * m - 1) 1 (e - 2)
    else Format.shift (2 * m - 1) 1 (e - 1)
  ⟨loNum, loDen, hiNum, hiDen, m % 2 = 0⟩

end Interval

/-- The nearest number with digits up to the place of `10^exp` that lies in the interval; the even
one first if two are as near. -/
def onGrid? (i : Interval) (num den : Nat) (exp : Int) : Option Nat :=
  let (n, d) := scale num den (-exp)
  let below := n / d
  let fits (k : Nat) : Bool :=
    let (a, b) := scale k 1 exp
    i.contains a b
  let down : Bool := 2 * (n % d) < d || 2 * (n % d) = d && below % 2 = 0
  let nearer := if down then below else below + 1
  let farther := if down then below + 1 else below
  if 0 < nearer && fits nearer then some nearer
  else if 0 < farther && fits farther then some farther
  else none

/-- The first of some grids, from coarse to fine, that has a number in the interval. -/
def search (i : Interval) (num den : Nat) : Nat → Int → Decimal
  | 0, exp => ⟨(let (n, d) := scale num den (-exp); n / d), exp⟩
  | fuel + 1, exp =>
    match onGrid? i num den exp with
    | some k => ⟨k, exp⟩
    | none => search i num den fuel (exp - 1)

/-- An upper bound for the place of the first digit of a positive quotient. -/
def leadingPlace (num den : Nat) : Int :=
  let k := Format.leadingExp num den + 1
  (k * 30103).fdiv 100000 + 1

/-- The number without trailing zeros in its digits. -/
def trim : Nat → Decimal → Decimal
  | 0, d => d
  | fuel + 1, d =>
    if d.digits % 10 = 0 ∧ d.digits ≠ 0 then trim fuel ⟨d.digits / 10, d.exp + 1⟩ else d

/-- The shortest decimal that rounds to the positive number with some bits. -/
def shortest (f : Format) (bits : Nat) : Decimal :=
  let (m, e) := f.significand bits
  let (num, den) := Format.shift m 1 e
  trim 20 (search (.around f m e) num den 30 (leadingPlace num den))

/-! ### Layout -/

/-- Exponents below the first and from the second on are written out. -/
def positional (e : Int) : Bool := -4 ≤ e && e < 6

/-- A mantissa of one digit before the point, and an exponent with its sign. -/
def exponentText (digits : Text) (e : Int) : Text :=
  let mantissa := match digits with
    | [] => []
    | [d] => [d]
    | d :: ds => d :: ascii '.' :: ds
  let size := Text.ofNat e.natAbs
  let size := if size.length < 2 then ascii '0' :: size else size
  mantissa ++ ascii 'e' :: (if e < 0 then ascii '-' else ascii '+') :: size

/-- The digits with the point at its place; `place` digits stand before it. -/
def positionalText (digits : Text) (place : Int) : Text :=
  if place ≤ 0 then
    ascii '0' :: ascii '.' :: (List.replicate (-place).toNat (ascii '0') ++ digits)
  else if digits.length ≤ place.toNat then
    digits ++ List.replicate (place.toNat - digits.length) (ascii '0')
  else digits.take place.toNat ++ ascii '.' :: digits.drop place.toNat

/-- The text of a positive decimal without trailing zeros. -/
def text (d : Decimal) : Text :=
  let digits := Text.ofNat d.digits
  let e := d.exp + digits.length - 1
  if positional e then positionalText digits (e + 1) else exponentText digits e

end Decimal

/-- The text of the number with some bits. -/
def Format.text (f : Format) (bits : Nat) : Text :=
  let mag := bits % f.signBit
  let neg := f.signBit ≤ bits
  if f.infinity < mag then "NaN"
  else if mag = f.infinity then if neg then "-Inf" else "+Inf"
  else
    let digits : Text := if mag = 0 then "0" else (Decimal.shortest f mag).text
    if neg then ascii '-' :: digits else digits

def Single.text (x : Single) : Text := Format.binary32.text x.bits.toNat

def Double.text (x : Double) : Text := Format.binary64.text x.bits.toNat

end Classwright
