import Classwright.Floating.Reading

/-!
Which spellings are numbers and times in TOML. Digits may be grouped by single underscores, decimal
numbers have no zero in front, and what does not fit into 64 bits is refused.
-/

namespace Classwright.Toml

/-- Whether digits stand on both sides of every underscore, and nothing else. -/
def isGrouped (isDigit : UInt8 → Bool) (t : Text) : Bool :=
  (t.splitOnP (· == ascii '_')).all fun g => !g.isEmpty && g.all isDigit

def ungrouped (t : Text) : Text := t.filter (· != ascii '_')

def isSign (b : UInt8) : Bool := b == ascii '+' || b == ascii '-'

/-- The text without the sign in front of it. -/
def unsigned (t : Text) : Text :=
  match t with
  | b :: rest => if isSign b then rest else t
  | [] => []

/-- Whether grouped decimal digits have no needless zero in front. -/
def isWhole (t : Text) : Bool :=
  isGrouped Text.isDigit t && (t.length ≤ 1 || t.head? != some (ascii '0'))

/-- The number of a digit in a base up to 16. -/
def digit? (base : Nat) (b : UInt8) : Option Nat :=
  let v := if Text.isDigit b then b.toNat - 48
    else if ascii 'a' ≤ b && b ≤ ascii 'f' then b.toNat - 87
    else if ascii 'A' ≤ b && b ≤ ascii 'F' then b.toNat - 55
    else base
  if v < base then some v else none

/-- Whole numbers stay below this, or down to it with a minus sign: it is 2^63. -/
def wordLimit : Nat := 0x8000000000000000

/-- Whether grouped digits of a base are a number below the limit. -/
def isBased (base : Nat) (t : Text) : Bool :=
  isGrouped (fun b => (digit? base b).isSome) t
    && (ungrouped t).foldl (fun n b => base * n + (digit? base b).getD 0) 0 < wordLimit

def isInteger (t : Text) : Bool :=
  match t with
  | 0x30 :: 0x78 :: ds => isBased 16 ds
  | 0x30 :: 0x6F :: ds => isBased 8 ds
  | 0x30 :: 0x62 :: ds => isBased 2 ds
  | _ =>
    let ds := unsigned t
    let n := Text.toNat (ungrouped ds)
    isWhole ds && (if t.head? == some (ascii '-') then n ≤ wordLimit else n < wordLimit)

def isMark (b : UInt8) : Bool := b == ascii 'e' || b == ascii 'E'

/-- Whether an exponent after its mark, if there is one, is written well. -/
def isExponent (t : Text) : Bool :=
  match t with
  | [] => true
  | _ :: e => isGrouped Text.isDigit (unsigned e)

/-- Whether a fraction with its point, if there is one, is written well. -/
def isFraction (t : Text) : Bool :=
  match t with
  | [] => true
  | _ :: f => isGrouped Text.isDigit f && (f.head?.all Text.isDigit)

/-- Whether a number has a fraction, an exponent or both, or is none that has digits. -/
def isFloat (t : Text) : Bool :=
  let u := unsigned t
  let mantissa := u.takeWhile (!isMark ·)
  let whole := mantissa.takeWhile (· != ascii '.')
  u = "inf" || u = "nan"
    || (whole.length < u.length && isWhole whole && isFraction (mantissa.drop whole.length)
      && isExponent (u.drop mantissa.length) && (Decimal.read (ungrouped u)).toDouble?.isSome)

/-- The number of digits at a place with exactly `n` of them. -/
def digits? (n : Nat) (t : Text) : Option (Nat × Text) :=
  let ds := t.take n
  if ds.length = n && ds.all Text.isDigit then some (Text.toNat ds, t.drop n) else none

def char? (b : UInt8) (t : Text) : Option Text :=
  if t.head? = some b then some t.tail else none

def isLeap (year : Nat) : Bool := year % 4 == 0 && (year % 100 != 0 || year % 400 == 0)

def daysIn (year month : Nat) : Nat :=
  if month == 2 then if isLeap year then 29 else 28
  else if month == 4 || month == 6 || month == 9 || month == 11 then 30 else 31

/-- Reads a date; what remains is the result. -/
def date? (t : Text) : Option Text := do
  let (y, t) ← digits? 4 t
  let (m, t) ← digits? 2 (← char? (ascii '-') t)
  let (d, t) ← digits? 2 (← char? (ascii '-') t)
  if 1 ≤ m && m ≤ 12 && 1 ≤ d && d ≤ daysIn y m then some t else none

/-- Reads seconds and a fraction of them if there is one. -/
def seconds? (t : Text) : Option Text := do
  let (s, t) ← digits? 2 t
  if 60 ≤ s then none
  else match t with
    | 0x2E :: f =>
      let rest := f.dropWhile Text.isDigit
      if rest.length < f.length then some rest else none
    | _ => some t

/-- Reads a time of day; the seconds may be left out. -/
def time? (t : Text) : Option Text := do
  let (h, t) ← digits? 2 t
  let (m, t) ← digits? 2 (← char? (ascii ':') t)
  if 24 ≤ h || 60 ≤ m then none
  else match t with
    | 0x3A :: s => seconds? s
    | _ => some t

/-- Whether a text is nothing or a distance from universal time. -/
def isZone (t : Text) : Bool :=
  match t with
  | [] => true
  | [0x5A] | [0x7A] => true
  | b :: rest =>
    isSign b && (match digits? 2 rest with
      | some (h, 0x3A :: m) => h ≤ 24 && m.length == 2 && m.all Text.isDigit && Text.toNat m ≤ 60
      | _ => false)

/-- Whether a text is a date, a time, or both with a `T` between them. -/
def isMoment (t : Text) : Bool :=
  match date? t with
  | some [] => true
  | some (b :: rest) =>
    (b == ascii 'T' || b == ascii 't') && (match time? rest with
      | some zone => isZone zone
      | none => false)
  | none => time? t == some []

end Classwright.Toml
