/-!
Text is a sequence of bytes. Sources, names and string constants are UTF-8 as a rule, but a program
may hold any bytes between quotes, so nothing below assumes it. A string literal stands for the
bytes of its UTF-8 form.
-/

namespace Classwright

/-- Text, as the bytes that spell it. -/
abbrev Text := List UInt8

/-- The byte of an ASCII character. -/
def ascii (c : Char) : UInt8 := UInt8.ofNat c.toNat

namespace Text

/-- The UTF-8 form of a string. -/
def ofString (s : String) : Text := s.toUTF8.data.toList

instance : Coe String Text := ⟨ofString⟩

def ofChars (cs : List Char) : Text := cs.flatMap String.utf8EncodeChar

/-- Decimal digits of a number. -/
def ofNat (n : Nat) : Text := (Nat.toDigits 10 n).map ascii

/-- Decimal digits of a number, after a minus sign if it is negative. -/
def ofInt (i : Int) : Text :=
  if i < 0 then ascii '-' :: ofNat i.natAbs else ofNat i.natAbs

/-- Lower case hexadecimal digits of a number, with zeros in front up to the width. -/
def hex (width n : Nat) : Text :=
  let digits := (Nat.toDigits 16 n).map ascii
  List.replicate (width - digits.length) (ascii '0') ++ digits

/-- The texts with a separator between neighbours. -/
def join (sep : Text) : List Text → Text
  | [] => []
  | t :: ts => t ++ ts.flatMap (sep ++ ·)

/-- Digits with blanks in front up to the width. -/
def padLeft (width : Nat) (t : Text) : Text :=
  List.replicate (width - t.length) (ascii ' ') ++ t

/-- The text with blanks after it up to a width. -/
def padRight (width : Nat) (t : Text) : Text :=
  t ++ List.replicate (width - t.length) (ascii ' ')

def isDigit (b : UInt8) : Bool := ascii '0' ≤ b && b ≤ ascii '9'

def isLetter (b : UInt8) : Bool :=
  ascii 'a' ≤ b && b ≤ ascii 'z' || ascii 'A' ≤ b && b ≤ ascii 'Z' || b == ascii '_'

/-- The letter in lower case. -/
def lower (b : UInt8) : UInt8 := if ascii 'A' ≤ b && b ≤ ascii 'Z' then b + 32 else b

/-- The number spelled by decimal digits. -/
def toNat (t : Text) : Nat := t.foldl (fun n b => 10 * n + (b.toNat - 48)) 0

end Text

end Classwright
