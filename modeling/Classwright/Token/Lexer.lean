import Classwright.Text.Quoted
import Classwright.Token

/-!
From source text to tokens. `Source.tokens` reads blanks, comments and tokens in turn until the end
of the text; the end marker is the last token. A token never ends before it must: words, numbers and
symbols are the longest ones that the text allows. Positions count lines and, within a line,
characters.
-/

namespace Classwright

/-- A place in a source, line and column counted from one. -/
structure Pos where
  line : Nat
  col : Nat
  deriving DecidableEq, Repr

namespace Pos

def start : Pos := ⟨1, 1⟩

/-- The place reached from `p` after some text. -/
def after (p : Pos) : Text → Pos
  | [] => p
  | b :: rest =>
    if b = ascii '\n' then after ⟨p.line + 1, 1⟩ rest
    else after ⟨p.line, p.col + 1⟩ (rest.drop (Utf8.first b rest).2)
  termination_by t => t.length
  decreasing_by
  · simp
  · simp only [List.length_drop, List.length_cons]; omega

end Pos

inductive LexFault where
  | openComment
  | openLiteral (kind : Kind)
  | unexpected (c : Char)
  deriving DecidableEq, Repr

namespace LexFault

def message : LexFault → Text
  | openComment => "Unterminated block comment."
  | openLiteral k => "Unterminated " ++ k.name ++ " literal."
  | unexpected c => "Unexpected character " ++ Text.quotedChar c ++ "."

end LexFault

/-- Why a source has no tokens, and the text and place of what is wrong. -/
structure LexError where
  fault : LexFault
  text : Text
  pos : Pos
  deriving DecidableEq, Repr

namespace Source

def isBlank (b : UInt8) : Bool :=
  b == ascii ' ' || b == ascii '\t' || b == ascii '\r' || b == ascii '\n'

/-- The rest of a block comment with its closing mark, after what was read of it backwards; and what
follows the comment. -/
def closeComment (read : Text) : Text → Option (Text × Text)
  | 0x2A :: 0x2F :: rest => some ((0x2F :: 0x2A :: read).reverse, rest)
  | b :: rest => closeComment (b :: read) rest
  | [] => none

theorem length_of_closeComment {read t comment rest : Text}
    (h : closeComment read t = some (comment, rest)) : rest.length < t.length := by
  fun_induction closeComment read t with
  | case1 read rest =>
    cases h
    simp only [List.length_cons]
    omega
  | case2 read b rest _ ih => exact Nat.lt_succ_of_lt (ih h)
  | case3 => simp at h

/-- Passes blanks and complete comments. -/
def skip (pos : Pos) (src : Text) : Except LexError (Pos × Text) :=
  match src with
  | 0x2F :: 0x2F :: rest =>
    let comment := rest.takeWhile (· != ascii '\n')
    skip (pos.after (0x2F :: 0x2F :: comment)) (rest.drop comment.length)
  | 0x2F :: 0x2A :: rest =>
    match _h : closeComment [0x2A, 0x2F] rest with
    | some (comment, rest') => skip (pos.after comment) rest'
    | none => .error ⟨.openComment, "/*", pos⟩
  | b :: rest => if isBlank b then skip (pos.after [b]) rest else .ok (pos, src)
  | [] => .ok (pos, src)
  termination_by src.length
  decreasing_by
  · simp only [List.length_drop, List.length_cons]; omega
  · have := length_of_closeComment _h; simp only [List.length_cons]; omega
  · simp

theorem length_of_skip {pos p : Pos} {src rest : Text} (h : skip pos src = .ok (p, rest)) :
    rest.length ≤ src.length := by
  fun_induction skip pos src with
  | case1 pos rest' comment ih =>
    have := ih h
    simp only [List.length_drop, List.length_cons] at this ⊢
    omega
  | case2 pos rest' comment rest'' hc ih =>
    have := ih h
    have := length_of_closeComment hc
    simp only [List.length_cons]
    omega
  | case3 => simp at h
  | case4 pos b rest' _ _ _ ih =>
    have := ih h
    simp only [List.length_cons]
    omega
  | case5 => cases h; exact Nat.le_refl _
  | case6 => cases h; exact Nat.le_refl _

/-- The fraction that a text starts with: a point and at least one digit, or nothing. -/
def fraction : Text → Text
  | 0x2E :: d :: rest =>
    if Text.isDigit d then 0x2E :: d :: rest.takeWhile Text.isDigit else []
  | _ => []

def sign : Text → Text
  | 0x2B :: _ => [0x2B]
  | 0x2D :: _ => [0x2D]
  | _ => []

/-- The exponent that a text starts with: its mark, a sign or none, and at least one digit; or
nothing. -/
def exponent : Text → Text
  | e :: rest =>
    if e = ascii 'e' ∨ e = ascii 'E' then
      let digits := (rest.drop (sign rest).length).takeWhile Text.isDigit
      if digits.isEmpty then [] else e :: (sign rest ++ digits)
    else []
  | [] => []

/-- The kind of a number given whether it is whole so far, and the suffix that a text starts
with. -/
def suffix (whole : Bool) (t : Text) : Kind × Text :=
  match t with
  | c :: _ =>
    if c = ascii 'f' ∨ c = ascii 'F' ∨ c = ascii 'd' ∨ c = ascii 'D' then (.float, [c])
    else if whole ∧ (c = ascii 'l' ∨ c = ascii 'L') then (.int, [c])
    else (if whole then .int else .float, [])
  | [] => (if whole then .int else .float, [])

/-- The number that a text starts with. -/
def number (t : Text) : Kind × Text :=
  let digits := t.takeWhile Text.isDigit
  let t := t.drop digits.length
  let frac := fraction t
  let t := t.drop frac.length
  let exp := exponent t
  let t := t.drop exp.length
  let (kind, tail) := suffix (frac.isEmpty && exp.isEmpty) t
  (kind, digits ++ frac ++ exp ++ tail)

/-- The literal up to the closing quote, after what was read of it backwards. A backslash takes the
byte after it along. Without a closing quote it gives the whole text; an escape cut off by the end of
the source counts as an escaped zero byte. -/
def closeQuote (quote : UInt8) (read : Text) : Text → Except Text Text
  | [] => .error read.reverse
  | [0x5C] => .error (0 :: 0x5C :: read).reverse
  | 0x5C :: c :: rest => closeQuote quote (c :: 0x5C :: read) rest
  | c :: rest => if c = quote then .ok (c :: read).reverse else closeQuote quote (c :: read) rest

/-- The longest symbol that a text starts with. -/
def longestSymbol? (t : Text) : Option Symbol :=
  (Symbol.ofText? (t.take 3)).or <| (Symbol.ofText? (t.take 2)).or <| Symbol.ofText? (t.take 1)

def literal (kind : Kind) (quote : UInt8) (rest : Text) : Except (LexFault × Text) (Kind × Text) :=
  match closeQuote quote [quote] rest with
  | .ok text => .ok (kind, text)
  | .error text => .error (.openLiteral kind, text)

/-- The kind and the text of the token that starts with a byte. -/
def lexeme (b : UInt8) (rest : Text) : Except (LexFault × Text) (Kind × Text) :=
  if Text.isLetter b then
    let word := b :: rest.takeWhile fun c => Text.isLetter c || Text.isDigit c
    .ok (.ofWord word, word)
  else if Text.isDigit b then .ok (number (b :: rest))
  else if b = ascii '"' then literal .string b rest
  else if b = ascii '\'' then literal .char b rest
  else match longestSymbol? (b :: rest) with
    | some s => .ok (.symbol s, s.spelling)
    | none =>
      let (piece, more) := Utf8.first b rest
      .error (.unexpected piece.toChar, b :: rest.take more)

/-- The tokens of a text, after those already read, the last one first. -/
def tokensOnto (read : List Token) (pos : Pos) (src : Text) : Except LexError (List Token) :=
  match _h : skip pos src with
  | .error e => .error e
  | .ok (p, []) => .ok (⟨.eof, [], p.line, p.col⟩ :: read).reverse
  | .ok (p, b :: rest) =>
    match lexeme b rest with
    | .error (fault, text) => .error ⟨fault, text, p⟩
    | .ok (kind, text) =>
      tokensOnto (⟨kind, text, p.line, p.col⟩ :: read) (p.after text) (rest.drop (text.length - 1))
  termination_by src.length
  decreasing_by
    have := length_of_skip _h
    simp only [List.length_drop, List.length_cons] at this ⊢
    omega

/-- The tokens of a source, the end marker last. -/
def tokens (src : Text) : Except LexError (List Token) := tokensOnto [] .start src

end Source

end Classwright
