import Classwright.Text.Printable
import Classwright.Text.Utf8

/-!
Quoted text. A character that shows stands for itself; the quote in use and the backslash get a
backslash in front; the rest is written as an escape, a stray byte by its two hexadecimal digits.
-/

namespace Classwright.Text

/-- The letter of the short escape of a control character. -/
def shortEscape? (c : Char) : Option Char :=
  match c.toNat with
  | 0x07 => some 'a'
  | 0x08 => some 'b'
  | 0x0C => some 'f'
  | 0x0A => some 'n'
  | 0x0D => some 'r'
  | 0x09 => some 't'
  | 0x0B => some 'v'
  | _ => none

/-- A character as it stands between the given quotes. -/
def escapeChar (quote c : Char) : Text :=
  if c = quote ∨ c = '\\' then [ascii '\\', ascii c]
  else if isPrintable c then String.utf8EncodeChar c
  else match shortEscape? c with
    | some e => [ascii '\\', ascii e]
    | none =>
      if c.toNat < 0x20 ∨ c.toNat = 0x7F then "\\x" ++ hex 2 c.toNat
      else if c.toNat < 0x10000 then "\\u" ++ hex 4 c.toNat
      else "\\U" ++ hex 8 c.toNat

def escapePiece (quote : Char) : Utf8.Piece → Text
  | .char c => escapeChar quote c
  | .stray b => "\\x" ++ hex 2 b.toNat

/-- The text between double quotes. -/
def quoted (t : Text) : Text :=
  "\"" ++ (Utf8.pieces t).flatMap (escapePiece '"') ++ "\""

/-- The character between single quotes. -/
def quotedChar (c : Char) : Text :=
  "'" ++ escapeChar '\'' c ++ "'"

end Classwright.Text
