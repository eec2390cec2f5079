import Classwright.Text.Utf8

/-!
The form of text in class files. A character is written as one or two units of sixteen bits, and a
unit in one to three bytes as UTF-8 would write its number, except that zero takes two bytes.
-/

namespace Classwright.Modified

/-- The units of a character: itself, or a pair of surrogates. -/
def units (c : Char) : List Nat :=
  if c.toNat < 0x10000 then [c.toNat]
  else [0xD800 + (c.toNat - 0x10000) / 0x400, 0xDC00 + (c.toNat - 0x10000) % 0x400]

def encodeUnit (u : Nat) : Text :=
  if u = 0 then [0xC0, 0x80]
  else if u < 0x80 then [UInt8.ofNat u]
  else if u < 0x800 then [UInt8.ofNat (0xC0 + u / 64), UInt8.ofNat (0x80 + u % 64)]
  else [UInt8.ofNat (0xE0 + u / 4096), UInt8.ofNat (0x80 + u / 64 % 64), UInt8.ofNat (0x80 + u % 64)]

def encodeChar (c : Char) : Text := (units c).flatMap encodeUnit

/-- The written form of a text; a stray byte is written as the replacement character. -/
def encode (t : Text) : Text := (Utf8.pieces t).flatMap fun p => encodeChar p.toChar

def pairUnit (b b1 : UInt8) : Nat := b.toNat % 32 * 64 + b1.toNat % 64

def tripleUnit (b b1 b2 : UInt8) : Nat := b.toNat % 16 * 4096 + b1.toNat % 64 * 64 + b2.toNat % 64

/-- The units that bytes spell, after those in `acc`, the last one first. Only the first byte of a
unit is looked at to see how many belong to it; one that starts none counts as a unit of its own. -/
def decodeUnits (acc : List Nat) : Text → List Nat
  | [] => acc.reverse
  | b :: rest =>
    if b < 0x80 then decodeUnits (b.toNat :: acc) rest
    else match rest with
      | [] => decodeUnits (0xFFFD :: acc) []
      | b1 :: rest1 =>
        if b.toNat / 32 = 6 then decodeUnits (pairUnit b b1 :: acc) rest1
        else match rest1 with
          | [] => decodeUnits (0xFFFD :: acc) [b1]
          | b2 :: rest2 =>
            if b.toNat / 16 = 14 then decodeUnits (tripleUnit b b1 b2 :: acc) rest2
            else decodeUnits (0xFFFD :: acc) (b1 :: b2 :: rest2)
  termination_by t => t.length

def isHigh (u : Nat) : Bool := 0xD800 ≤ u && u < 0xDC00

def isLow (u : Nat) : Bool := 0xDC00 ≤ u && u < 0xE000

/-- The character of a unit on its own; half a pair is replaced. -/
def charOf (u : Nat) : Char := if isHigh u || isLow u then Utf8.replacement else Char.ofNat u

/-- The characters of units, after those in `acc`, the last one first. -/
def ofUnits (acc : List Char) : List Nat → List Char
  | [] => acc.reverse
  | u :: v :: rest =>
    if isHigh u && isLow v then
      ofUnits (Char.ofNat (0x10000 + (u - 0xD800) * 0x400 + (v - 0xDC00)) :: acc) rest
    else ofUnits (charOf u :: acc) (v :: rest)
  | [u] => ofUnits (charOf u :: acc) []
  termination_by us => us.length

/-- The text that bytes of a class file spell. -/
def decode (t : Text) : Text := Text.ofChars (ofUnits [] (decodeUnits [] t))

end Classwright.Modified
