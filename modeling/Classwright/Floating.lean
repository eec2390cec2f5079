/-!
Binary floating point numbers as their bits. The bits of a format stand for rational numbers, signed
zeros, infinities and not-a-number; an operation is computed on these exactly and its result is
rounded back to the format, to the nearest number and on a tie to the even one.
-/

namespace Classwright

/-- A number beyond the rationals; zero has a sign. -/
inductive Extended where
  | nan
  | infinite (neg : Bool)
  /-- The quotient of two numbers; the second one is not zero. -/
  | finite (neg : Bool) (num den : Nat)
  deriving DecidableEq, Repr

namespace Extended

def zero (neg : Bool) : Extended := finite neg 0 1

def ofInt (i : Int) : Extended := finite (i < 0) i.natAbs 1

def isNan : Extended → Bool
  | nan => true
  | _ => false

def isZero : Extended → Bool
  | finite _ num _ => num == 0
  | _ => false

def neg : Extended → Extended
  | nan => nan
  | infinite s => infinite (!s)
  | finite s num den => finite (!s) num den

/-- A sum of numbers with opposite signs is a positive zero. -/
def add : Extended → Extended → Extended
  | nan, _ | _, nan => nan
  | infinite s, infinite t => if s = t then infinite s else nan
  | infinite s, finite .. => infinite s
  | finite .., infinite t => infinite t
  | finite s a b, finite t c d =>
    let x := a * d
    let y := c * b
    if s = t then finite s (x + y) (b * d)
    else if x = y then finite false 0 1
    else if x < y then finite t (y - x) (b * d)
    else finite s (x - y) (b * d)

def sub (x y : Extended) : Extended := add x (neg y)

def mul : Extended → Extended → Extended
  | nan, _ | _, nan => nan
  | infinite s, infinite t => infinite (s != t)
  | infinite s, finite t c _ => if c = 0 then nan else infinite (s != t)
  | finite s a _, infinite t => if a = 0 then nan else infinite (s != t)
  | finite s a b, finite t c d => finite (s != t) (a * c) (b * d)

def div : Extended → Extended → Extended
  | nan, _ | _, nan => nan
  | infinite _, infinite _ => nan
  | infinite s, finite t _ _ => infinite (s != t)
  | finite s _ _, infinite t => zero (s != t)
  | finite s a b, finite t c d =>
    if c = 0 then if a = 0 then nan else infinite (s != t)
    else finite (s != t) (a * d) (b * c)

/-- The remainder of the division that rounds toward zero; it has the sign of the dividend. -/
def mod : Extended → Extended → Extended
  | nan, _ | _, nan | infinite _, _ => nan
  | x@(finite ..), infinite _ => x
  | finite s a b, finite _ c d =>
    if c = 0 then nan else finite s (a * d % (c * b)) (b * d)

/-- How two numbers compare, if they do; zeros are equal. -/
def compare? : Extended → Extended → Option Ordering
  | nan, _ | _, nan => none
  | infinite s, infinite t => some (if s = t then .eq else if s then .lt else .gt)
  | infinite s, finite .. => some (if s then .lt else .gt)
  | finite .., infinite t => some (if t then .gt else .lt)
  | finite s a b, finite t c d =>
    let x : Int := if s then -(a * d : Nat) else (a * d : Nat)
    let y : Int := if t then -(c * b : Nat) else (c * b : Nat)
    some (compare x y)

end Extended

/-- A binary format: the bits of a significand with its leading one, the exponent of the smallest
positive number, and the bits of the exponent field. -/
structure Format where
  precision : Nat
  minExp : Int
  expBits : Nat

namespace Format

def binary64 : Format := ⟨53, -1074, 11⟩

def binary32 : Format := ⟨24, -149, 8⟩

/-- The bits of positive infinity. -/
def infinity (f : Format) : Nat := (Nat.pow 2 f.expBits - 1) * Nat.pow 2 (f.precision - 1)

/-- The sign bit. -/
def signBit (f : Format) : Nat := Nat.pow 2 (f.expBits + f.precision - 1)

/-- The bits of a quiet not-a-number. -/
def quietNan (f : Format) : Nat := f.infinity + Nat.pow 2 (f.precision - 2)

/-- A number times a power of two, its denominator taken along. -/
def shift (num den : Nat) (e : Int) : Nat × Nat :=
  if 0 ≤ e then (num * Nat.pow 2 e.toNat, den) else (num, den * Nat.pow 2 (-e).toNat)

/-- The quotient rounded to the nearest number, on a tie to the even one. -/
def roundDiv (num den : Nat) : Nat :=
  let q := num / den
  let r := num % den
  if den < 2 * r ∨ 2 * r = den ∧ q % 2 = 1 then q + 1 else q

/-- The exponent of the leading bit of a positive quotient. -/
def leadingExp (num den : Nat) : Int :=
  let k : Int := (Nat.log2 num : Int) - Nat.log2 den
  let (n, d) := shift num den (-k)
  if n < d then k - 1 else k

/-- The bits of a quotient without its sign. -/
def magnitude (f : Format) (num den : Nat) : Nat :=
  if num = 0 then 0
  else
    let e := max f.minExp (leadingExp num den - (f.precision - 1 : Nat))
    let (n, d) := shift num den (-e)
    min ((e - f.minExp).toNat * Nat.pow 2 (f.precision - 1) + roundDiv n d) f.infinity

/-- The bits of the nearest number of the format. -/
def round (f : Format) : Extended → Nat
  | .nan => f.quietNan
  | .infinite neg => f.infinity + if neg then f.signBit else 0
  | .finite neg num den => f.magnitude num den + if neg then f.signBit else 0

/-- Significand and exponent of the finite number with some bits, its sign left aside. -/
def significand (f : Format) (bits : Nat) : Nat × Int :=
  let unit := Nat.pow 2 (f.precision - 1)
  let field := bits / unit % Nat.pow 2 f.expBits
  if field = 0 then (bits % unit, f.minExp) else (unit + bits % unit, f.minExp + (field - 1 : Nat))

/-- The number that bits stand for. -/
def decode (f : Format) (bits : Nat) : Extended :=
  let neg := f.signBit ≤ bits
  let mag := bits % f.signBit
  if mag = f.infinity then .infinite neg
  else if f.infinity < mag then .nan
  else
    let (m, e) := f.significand mag
    let (num, den) := shift m 1 e
    .finite neg num den

end Format

/-- A double precision number. -/
structure Double where
  bits : UInt64
  deriving DecidableEq, Repr, Hashable, Inhabited

/-- A single precision number. -/
structure Single where
  bits : UInt32
  deriving DecidableEq, Repr, Hashable, Inhabited

namespace Single

def value (x : Single) : Extended := Format.binary32.decode x.bits.toNat

def ofExtended (v : Extended) : Single := ⟨UInt32.ofNat (Format.binary32.round v)⟩

def ofInt (i : Int) : Single := ofExtended (.ofInt i)

/-- The whole number from zero to two that a number is, unless it is a negative zero. -/
def small? (x : Single) : Option Nat :=
  if x.bits = 0 then some 0
  else if x.bits = 0x3F800000 then some 1
  else if x.bits = 0x40000000 then some 2
  else none

end Single

namespace Double

def value (x : Double) : Extended := Format.binary64.decode x.bits.toNat

def ofExtended (v : Extended) : Double := ⟨UInt64.ofNat (Format.binary64.round v)⟩

def ofInt (i : Int) : Double := ofExtended (.ofInt i)

/-- Zero or one, unless it is a negative zero. -/
def small? (x : Double) : Option Nat :=
  if x.bits = 0 then some 0 else if x.bits = 0x3FF0000000000000 then some 1 else none

def neg (x : Double) : Double := ⟨x.bits ^^^ 0x8000000000000000⟩

def add (x y : Double) : Double := ofExtended (x.value.add y.value)

def sub (x y : Double) : Double := ofExtended (x.value.sub y.value)

def mul (x y : Double) : Double := ofExtended (x.value.mul y.value)

def div (x y : Double) : Double := ofExtended (x.value.div y.value)

def mod (x y : Double) : Double := ofExtended (x.value.mod y.value)

def compare? (x y : Double) : Option Ordering := x.value.compare? y.value

/-- The nearest single precision number; what is not a number keeps the head of its payload. -/
def toSingle (x : Double) : Single :=
  if x.value.isNan then
    let bits := x.bits.toNat
    ⟨UInt32.ofNat ((bits >>> 63) <<< 31 + 0x7FC00000 + (bits % 0x8000000000000) >>> 29)⟩
  else .ofExtended x.value

/-- The number rounded to single precision. -/
def toSinglePrecision (x : Double) : Double := ofExtended x.toSingle.value

end Double

end Classwright
