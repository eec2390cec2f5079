import Classwright.Text

/-!
Reading bytes as UTF-8. Text splits into pieces: a character with the bytes of its shortest form, or
a single stray byte where no character starts. Every text splits in exactly one way, and the number
of its pieces is what columns count.
-/

namespace Classwright.Utf8

/-- A unit of text. -/
inductive Piece where
  | char (c : Char)
  | stray (b : UInt8)
  deriving DecidableEq, Repr

/-- What a stray byte reads as. -/
def replacement : Char := Char.ofNat 0xFFFD

namespace Piece

/-- The character of a piece; a stray byte counts as the replacement character. -/
def toChar : Piece → Char
  | char c => c
  | stray _ => replacement

def bytes : Piece → Text
  | char c => String.utf8EncodeChar c
  | stray b => [b]

end Piece

def isContinuation (b : UInt8) : Bool := 0x80 ≤ b && b < 0xC0

/-- The character with a code in the range that its number of bytes is for. -/
def charIn? (lo hi code : Nat) : Option Char :=
  if h : lo ≤ code ∧ code < hi ∧ code.isValidChar then some (Char.ofNatAux code h.2.2) else none

def pair? (b b1 : UInt8) : Option Char :=
  if 0xC0 ≤ b && b < 0xE0 && isContinuation b1 then
    charIn? 0x80 0x800 ((b.toNat - 0xC0) * 64 + (b1.toNat - 0x80))
  else none

def triple? (b b1 b2 : UInt8) : Option Char :=
  if 0xE0 ≤ b && b < 0xF0 && isContinuation b1 && isContinuation b2 then
    charIn? 0x800 0x10000 ((b.toNat - 0xE0) * 4096 + (b1.toNat - 0x80) * 64 + (b2.toNat - 0x80))
  else none

def quadruple? (b b1 b2 b3 : UInt8) : Option Char :=
  if 0xF0 ≤ b && b < 0xF8 && isContinuation b1 && isContinuation b2 && isContinuation b3 then
    charIn? 0x10000 0x110000 ((b.toNat - 0xF0) * 262144 + (b1.toNat - 0x80) * 4096
      + (b2.toNat - 0x80) * 64 + (b3.toNat - 0x80))
  else none

/-- The piece that starts with a byte, and the number of bytes after it that belong to it. -/
def first (b : UInt8) (rest : Text) : Piece × Nat :=
  if b < 0x80 then (.char (Char.ofNat b.toNat), 0)
  else match rest with
    | [] => (.stray b, 0)
    | b1 :: rest1 =>
      match pair? b b1 with
      | some c => (.char c, 1)
      | none =>
        match rest1 with
        | [] => (.stray b, 0)
        | b2 :: rest2 =>
          match triple? b b1 b2 with
          | some c => (.char c, 2)
          | none =>
            match rest2 with
            | [] => (.stray b, 0)
            | b3 :: _ =>
              match quadruple? b b1 b2 b3 with
              | some c => (.char c, 3)
              | none => (.stray b, 0)

/-- The pieces of a text in front of those already read, the last one first. -/
def piecesOnto (acc : List Piece) : Text → List Piece
  | [] => acc.reverse
  | b :: rest =>
    let (p, n) := first b rest
    piecesOnto (p :: acc) (rest.drop n)
  termination_by t => t.length
  decreasing_by simp only [List.length_drop, List.length_cons]; omega

/-- The pieces of a text. -/
def pieces (t : Text) : List Piece := piecesOnto [] t

/-- The number of characters of a text, a stray byte counting as one. -/
def count (t : Text) : Nat := (pieces t).length

def isValid (t : Text) : Bool :=
  (pieces t).all fun | .char _ => true | .stray _ => false

end Classwright.Utf8
