import Classwright.Floating

/-!
Powers of double precision numbers. Whole exponents are worked off by squaring, with the fraction and
the exponent of two kept apart, so nothing overflows on the way; what is left of an exponent goes
through logarithm and exponential function. Every step rounds to double precision.
-/

namespace Classwright.Double

def one : Double := ⟨0x3FF0000000000000⟩
def two : Double := ⟨0x4000000000000000⟩
def half : Double := ⟨0x3FE0000000000000⟩
def infinity : Double := ⟨0x7FF0000000000000⟩
def notNumber : Double := ⟨0x7FF8000000000001⟩

def isNan (x : Double) : Bool := x.value.isNan

def isZero (x : Double) : Bool := x.value.isZero

def isNegative (x : Double) : Bool := 0x8000000000000000 ≤ x.bits

def abs (x : Double) : Double := ⟨x.bits &&& 0x7FFFFFFFFFFFFFFF⟩

def isInfinite (x : Double) : Bool := x.abs == infinity

def lt (x y : Double) : Bool := x.compare? y == some .lt

def equal (x y : Double) : Bool := x.compare? y == some .eq

/-- The product and the sum with one rounding. -/
def mulAdd (x y z : Double) : Double := ofExtended ((x.value.mul y.value).add z.value)

/-- The number times a power of two. -/
def scale (x : Double) (e : Int) : Double :=
  ofExtended (match x.value with
    | .finite neg num den =>
      let (n, d) := Format.shift num den e
      .finite neg n d
    | v => v)

/-- A fraction from one half up to one, and the power of two that it stands before, of a finite
number other than zero. -/
def split (x : Double) : Double × Int :=
  match x.value with
  | .finite neg num den =>
    let e := Format.leadingExp num den + 1
    let (n, d) := Format.shift num den (-e)
    (ofExtended (.finite neg n d), e)
  | _ => (x, 0)

/-- The whole number below a finite number without its sign, and what is left. -/
def wholePart (x : Double) : Nat × Double :=
  match x.value with
  | .finite _ num den => (num / den, ofExtended (.finite false (num % den) den))
  | _ => (0, x)

/-- The greatest number below `r + 2^bits` whose square is not above `n`, if that of `r` is not. -/
def sqrtFrom (n : Nat) : Nat → Nat → Nat
  | 0, r => r
  | bits + 1, r =>
    let s := r + Nat.pow 2 bits
    sqrtFrom n bits (if s * s ≤ n then s else r)

/-- The square root. A quotient is scaled so far that the root of the whole number in it has more
digits than a double; what is lost then counts as half a unit. -/
def sqrt (x : Double) : Double :=
  match x.value with
  | .finite neg num den =>
    if num = 0 then x
    else if neg then notNumber
    else
      let t := Nat.log2 den + 64
      let q := num * Nat.pow 4 t / den
      let r := sqrtFrom q (Nat.log2 q / 2 + 1) 0
      let lost := if r * r = q ∧ num * Nat.pow 4 t % den = 0 then 0 else 1
      ofExtended (.finite false (2 * r + lost) (Nat.pow 2 (t + 1)))
  | .infinite false => x
  | _ => notNumber

/-! ### Logarithm -/

/-- The coefficients of the series for the logarithm, those of the even places first. -/
def logEven : List Double := [⟨0x3FC39A09D078C69F⟩, ⟨0x3FCC71C51D8E78AF⟩, ⟨0x3FD999999997FA04⟩]
def logOdd : List Double :=
  [⟨0x3FC2F112DF3E5244⟩, ⟨0x3FC7466496CB03DE⟩, ⟨0x3FD2492494229359⟩, ⟨0x3FE5555555555593⟩]

/-- A polynomial by its coefficients, that of the highest power first. -/
def polynomial (x : Double) : List Double → Double
  | [] => ⟨0⟩
  | c :: cs => cs.foldl (fun acc d => (acc.mul x).add d) c

def ln2High : Double := ⟨0x3FE62E42FEE00000⟩
def ln2Low : Double := ⟨0x3DEA39EF35793C76⟩
def halfSqrt2 : Double := ⟨0x3FE6A09E667F3BCD⟩

/-- The natural logarithm of a positive number. -/
def log (x : Double) : Double :=
  let fraction : Double := ⟨x.bits &&& 0x000FFFFFFFFFFFFF ||| half.bits⟩
  let k : Int := (x.bits >>> 52).toNat - 0x3FE
  let low := !halfSqrt2.lt fraction
  let k := ofInt (if low then k - 1 else k)
  let f := (if low then fraction.mul two else fraction).sub one
  let s := f.div (two.add f)
  let s2 := s.mul s
  let s4 := s2.mul s2
  let r := (s2.mul (polynomial s4 logOdd)).add (s4.mul (polynomial s4 logEven))
  let hfsq := (half.mul f).mul f
  let inner := (s.mul (hfsq.add r)).add (k.mul ln2Low)
  (k.mul ln2High).sub ((hfsq.sub inner).sub f)

/-! ### Exponential function -/

def log2e : Double := ⟨0x3FF71547652B82FE⟩
def ln2Upper : Double := ⟨0x3FE62E42FEFA3000⟩
def ln2Lower : Double := ⟨0x3D53DE6AF278ECE6⟩
def sixteenth : Double := ⟨0x3FB0000000000000⟩

/-- Inverse factorials from that of eight down to that of one. -/
def inverseFactorials : List Double :=
  [⟨0x3F2A01A01A01A01A⟩, ⟨0x3F56C16C16C16C17⟩, ⟨0x3F81111111111111⟩, ⟨0x3FA5555555555555⟩,
    ⟨0x3FC5555555555555⟩, half, one]

/-- The nearest whole number of a finite number. -/
def nearestInt (x : Double) : Int :=
  match x.value with
  | .finite neg num den =>
    let n := Format.roundDiv num den
    if neg then -(n : Int) else n
  | _ => 0

/-- `x · (x + 2)`: from `e^a - 1` to `e^(2a) - 1`. -/
def doubling (x : Double) : Double := x.mul (x.add two)

/-- The exponential function, for numbers whose result is neither too large nor too small. -/
def exp (x : Double) : Double :=
  let e := nearestInt (log2e.mul x)
  let k := ofInt e
  let r := (k.neg.mulAdd ln2Upper x)
  let r := (k.neg.mulAdd ln2Lower r).mul sixteenth
  let series := inverseFactorials.foldl (fun acc c => acc.mulAdd r c) ⟨0x3EFA01A01A01A01A⟩
  let m := doubling (doubling (doubling (r.mul series)))
  (m.mulAdd (m.add two) one).scale e

/-! ### Powers -/

/-- Whether a number is an odd whole one. -/
def isOdd (x : Double) : Bool :=
  match x.value with
  | .finite _ num den => num % den = 0 && num / den % 2 == 1
  | _ => false

/-- Beyond this exponent of two a factor settles the result. -/
def farExp : Int := 4096

/-- Multiplies `a · 2^ae` by the power of `x · 2^xe` with a whole exponent. Halving the exponent ends
after as many steps as it has bits. -/
def raise : Nat → Nat → Double → Int → Double → Int → Double × Int
  | 0, _, _, _, a, ae => (a, ae)
  | fuel + 1, n, x, xe, a, ae =>
    if n = 0 then (a, ae)
    else if xe < -farExp ∨ farExp < xe then (a, ae + xe)
    else
      let (a, ae) := if n % 2 = 1 then (a.mul x, ae + xe) else (a, ae)
      let x := x.mul x
      let xe := 2 * xe
      let (x, xe) := if x.lt half then (x.add x, xe - 1) else (x, xe)
      raise fuel (n / 2) x xe a ae

/-- The power of a number to an exponent so large that only its sign and the size of the number
count. -/
def limitPower (x : Double) (up : Bool) : Double :=
  if x.equal one.neg then one
  else if x.abs.lt one == up then ⟨0⟩
  else infinity

/-- The power of finite numbers, neither of them zero. -/
def finitePower (x y : Double) : Double :=
  let (n, f) := y.abs.wholePart
  if !f.isZero && x.isNegative then notNumber
  else if 0x8000000000000000 ≤ n then limitPower x !y.isNegative
  else
    let (n, f) := if half.lt f then (n + 1, f.sub one) else (n, f)
    let a := if f.isZero then one else exp (f.mul (log x))
    let (x1, xe) := x.split
    let (a, ae) := raise 64 n x1 xe a 0
    if y.isNegative then (one.div a).scale (-ae) else a.scale ae

/-- The power of a zero to an exponent other than zero. -/
def zeroPower (x y : Double) : Double :=
  let size : Double := if y.isNegative then infinity else ⟨0⟩
  if x.isNegative && y.isOdd then size.neg else size

/-- The power of a number. -/
def pow (x y : Double) : Double :=
  if y.isZero || x.equal one then one
  else if y.equal one then x
  else if x.isNan || y.isNan then notNumber
  else if x.isZero then zeroPower x y
  else if y.isInfinite then limitPower x !y.isNegative
  else if x.isInfinite then
    if x.isNegative then zeroPower ⟨0x8000000000000000⟩ y.neg
    else if y.isNegative then ⟨0⟩ else infinity
  else if y.equal half then x.sqrt
  else if y.equal half.neg then one.div x.sqrt
  else finitePower x y

end Classwright.Double
