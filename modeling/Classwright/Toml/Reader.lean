import Classwright.Text.Utf8
import Classwright.Toml
import Classwright.Toml.Number

/-!
Reading TOML. Every reader returns what it has read and what remains after it, and fails where the
text is no TOML. Before anything is read the text is known to be plain (`isPlain`), so that readers
need not look for control characters.
-/

namespace Classwright.Toml

def isBlank (b : UInt8) : Bool := b == ascii ' ' || b == ascii '\t'

def isBreak (b : UInt8) : Bool := b == ascii '\n' || b == ascii '\r'

/-- Whether a text holds no control characters but tabs and ends of lines. -/
def hasNoControls : Text → Bool
  | [] => true
  | 0x0D :: rest => rest.head? == some 0x0A && hasNoControls rest
  | b :: rest => (isBlank b || isBreak b || (0x20 ≤ b && b != 0x7F)) && hasNoControls rest

def isPlain (t : Text) : Bool := Utf8.isValid t && hasNoControls t

def skipBlanks (t : Text) : Text := t.dropWhile isBlank

/-- The text after blanks, ends of lines and comments. -/
def skipFill (inComment : Bool) : Text → Text
  | [] => []
  | b :: rest =>
    if inComment then skipFill (!isBreak b) rest
    else if isBlank b || isBreak b then skipFill false rest
    else if b == ascii '#' then skipFill true rest
    else b :: rest

/-! ## Texts -/

/-- Where a reader stands in an escape. -/
inductive Escape where
  | outside
  | begun
  /-- Digits of a character code that are still to come, and the code so far. -/
  | code (left value : Nat)
  /-- Blank space after a backslash, and whether a line ended in it. -/
  | gap (ended : Bool)

def shortEscape? (b : UInt8) : Option UInt8 :=
  [(ascii 'b', 0x08), (ascii 't', 0x09), (ascii 'n', 0x0A), (ascii 'f', 0x0C), (ascii 'r', 0x0D),
    (ascii 'e', 0x1B), (ascii '"', ascii '"'), (ascii '\\', ascii '\\')].lookup b

/-- The number of digits of a character code after a letter. -/
def codeLength? (b : UInt8) : Option Nat :=
  [(ascii 'x', 2), (ascii 'u', 4), (ascii 'U', 8)].lookup b

/-- The bytes of the character with a code. -/
def ofCode? (n : Nat) : Option Text :=
  if n.isValidChar then some (String.utf8EncodeChar (Char.ofNat n)) else none

/-- A step inside an escape: where it leads and what it adds. -/
def Escape.step (e : Escape) (b : UInt8) : Option (Escape × Text) :=
  match e with
  | .outside => some (.outside, [b])
  | .begun =>
    match shortEscape? b, codeLength? b with
    | some c, _ => some (.outside, [c])
    | none, some n => some (.code n 0, [])
    | none, none => none
  | .code left value =>
    match digit? 16 b with
    | none => none
    | some d =>
      let value := 16 * value + d
      if 1 < left then some (.code (left - 1) value, [])
      else (ofCode? value).map fun t => (.outside, t)
  | .gap _ => none

/-- Reads the rest of a text between quotes with escapes; `out` holds what is read so far, the last
byte first. -/
def basic (out : Text) (e : Escape) : Text → Option (Text × Text)
  | [] => none
  | b :: rest =>
    match e with
    | .outside =>
      if b == ascii '"' then some (out.reverse, rest)
      else if isBreak b then none
      else if b == ascii '\\' then basic out .begun rest
      else basic (b :: out) .outside rest
    | _ =>
      match e.step b with
      | none => none
      | some (e, t) => basic (t.reverse ++ out) e rest

/-- Reads the rest of a text between quotes without escapes. -/
def literal (t : Text) : Option (Text × Text) :=
  let body := t.takeWhile fun b => b != ascii '\'' && !isBreak b
  match t.drop body.length with
  | 0x27 :: rest => some (body, rest)
  | _ => none

/-- The end of a text of several lines after a run of quotes; the last three of them close it. -/
def close (quote : UInt8) (out : Text) (run : Nat) (rest : Text) : Option (Text × Text) :=
  some ((List.replicate (run - 3) quote ++ out).reverse, rest)

/-- Reads the rest of a text of several lines between three quotes; `run` counts the quotes just
read, of which there may be no more than `most`. Up to two more quotes may stand before the three
that close it, and a third one between an escaped backslash and these. -/
def longText (quote : UInt8) (out : Text) (run most : Nat) (e : Escape) :
    Text → Option (Text × Text)
  | [] => if 3 ≤ run then close quote out run [] else none
  | b :: rest =>
    if b == quote && !(e matches .begun | .code ..) && !(e matches .gap false) then
      if run = most then none else longText quote out (run + 1) most .outside rest
    else if 3 ≤ run then close quote out run (b :: rest)
    else
      let out := List.replicate run quote ++ out
      match e with
      | .outside =>
        if b == ascii '\\' && quote == ascii '"' then longText quote out 0 5 .begun rest
        else longText quote (b :: out) 0 5 .outside rest
      | .gap ended =>
        if isBlank b || isBreak b then longText quote out 0 5 (.gap (ended || isBreak b)) rest
        else if !ended then none
        else if b == ascii '\\' then longText quote out 0 5 .begun rest
        else longText quote (b :: out) 0 5 .outside rest
      | .begun =>
        if isBlank b || isBreak b then longText quote out 0 5 (.gap (isBreak b)) rest
        else match Escape.begun.step b with
          | none => none
          | some (e, t) =>
            longText quote (t.reverse ++ out) 0 (if b == ascii '\\' then 6 else 5) e rest
      | .code left value =>
        match (Escape.code left value).step b with
        | none => none
        | some (e, t) => longText quote (t.reverse ++ out) 0 5 e rest

/-- The text without the end of a line that it starts with. -/
def skipBreak : Text → Text
  | 0x0A :: rest => rest
  | 0x0D :: 0x0A :: rest => rest
  | t => t

/-! ## Keys -/

def isBare (b : UInt8) : Bool := Text.isLetter b || Text.isDigit b || b == ascii '-'

def keyPart (t : Text) : Option (Text × Text) :=
  match t with
  | 0x22 :: rest => basic [] .outside rest
  | 0x27 :: rest => literal rest
  | _ =>
    let word := t.takeWhile isBare
    if word.isEmpty then none else some (word, t.drop word.length)

/-- Reads a dotted key and the blanks after it. -/
def key (fuel : Nat) (t : Text) : Option (Key × Text) :=
  match fuel with
  | 0 => none
  | fuel + 1 => do
    let (part, rest) ← keyPart (skipBlanks t)
    match skipBlanks rest with
    | 0x2E :: rest => do
      let (parts, rest) ← key fuel rest
      some (part :: parts, rest)
    | rest => some ([part], rest)

/-! ## Values -/

/-- The bytes that numbers, times and truth values are spelled with. -/
def isSpelling (b : UInt8) : Bool :=
  isBare b || b == ascii '+' || b == ascii '.' || b == ascii ':'

/-- The spelling that a text starts with. A blank may stand between a date and a time. -/
def spelling (t : Text) : Text × Text :=
  let word := t.takeWhile isSpelling
  let rest := t.drop word.length
  match rest with
  | 0x20 :: after =>
    if date? word == some [] && (after.head?.any Text.isDigit) then
      let time := after.takeWhile isSpelling
      (word ++ ascii 'T' :: time, after.drop time.length)
    else (word, rest)
  | _ => (word, rest)

def scalar (t : Text) : Option (Written × Text) :=
  let (word, rest) := spelling t
  if word = "true" then some (.truth true, rest)
  else if word = "false" then some (.truth false, rest)
  else if isInteger word || isFloat word then some (.number word, rest)
  else if isMoment word then some (.moment word, rest)
  else none

mutual

def value (fuel : Nat) (t : Text) : Option (Written × Text) :=
  match fuel with
  | 0 => none
  | fuel + 1 =>
    match t with
    | 0x22 :: 0x22 :: 0x22 :: rest =>
      (longText (ascii '"') [] 0 5 .outside (skipBreak rest)).map fun (t, rest) => (.text t, rest)
    | 0x27 :: 0x27 :: 0x27 :: rest =>
      (longText (ascii '\'') [] 0 5 .outside (skipBreak rest)).map fun (t, rest) => (.text t, rest)
    | 0x22 :: rest => (basic [] .outside rest).map fun (t, rest) => (.text t, rest)
    | 0x27 :: rest => (literal rest).map fun (t, rest) => (.text t, rest)
    | 0x5B :: rest => (items fuel [] rest).map fun (ws, rest) => (.array ws, rest)
    | 0x7B :: rest => (pairs fuel [] rest).map fun (ps, rest) => (.inline ps, rest)
    | _ => scalar t

/-- Reads the rest of an array; a comma may stand after its last item. -/
def items (fuel : Nat) (done : List Written) (t : Text) : Option (List Written × Text) :=
  match fuel with
  | 0 => none
  | fuel + 1 =>
    match skipFill false t with
    | 0x5D :: rest => some (done.reverse, rest)
    | t => do
      let (w, rest) ← value fuel t
      match skipFill false rest with
      | 0x2C :: rest => items fuel (w :: done) rest
      | 0x5D :: rest => some ((w :: done).reverse, rest)
      | _ => none

/-- Reads the rest of an inline table. -/
def pairs (fuel : Nat) (done : List (Key × Written)) (t : Text) :
    Option (List (Key × Written) × Text) :=
  match fuel with
  | 0 => none
  | fuel + 1 =>
    match skipFill false t with
    | 0x7D :: rest => some (done.reverse, rest)
    | t => do
      let (p, rest) ← pair fuel t
      match skipFill false rest with
      | 0x2C :: rest => pairs fuel (p :: done) rest
      | 0x7D :: rest => some ((p :: done).reverse, rest)
      | _ => none

/-- Reads a key, an equals sign and a value. -/
def pair (fuel : Nat) (t : Text) : Option ((Key × Written) × Text) :=
  match fuel with
  | 0 => none
  | fuel + 1 => do
    let (k, rest) ← key fuel t
    match rest with
    | 0x3D :: rest => do
      let (w, rest) ← value fuel (skipBlanks rest)
      some ((k, w), rest)
    | _ => none

end

/-! ## Lines -/

def line (fuel : Nat) (t : Text) : Option (Line × Text) :=
  match t with
  | 0x5B :: 0x5B :: rest => do
    let (k, rest) ← key fuel rest
    match rest with
    | 0x5D :: 0x5D :: rest => some (.element k, rest)
    | _ => none
  | 0x5B :: rest => do
    let (k, rest) ← key fuel rest
    match rest with
    | 0x5D :: rest => some (.header k, rest)
    | _ => none
  | _ => (pair fuel t).map fun ((k, w), rest) => (.pair k w, rest)

/-- Whether a line may end before a text. -/
def endsLine (t : Text) : Bool :=
  match skipBlanks t with
  | [] => true
  | b :: _ => isBreak b || b == ascii '#'

def lines (fuel : Nat) (done : List Line) (t : Text) : Option (List Line) :=
  match fuel with
  | 0 => none
  | fuel + 1 =>
    match skipFill false t with
    | [] => some done.reverse
    | t => do
      let (l, rest) ← line fuel t
      if endsLine rest then lines fuel (l :: done) rest else none

/-- The text without a byte order mark, of whatever encoding. -/
def unmarked : Text → Text
  | 0xFF :: 0xFE :: rest => rest
  | 0xFE :: 0xFF :: rest => rest
  | 0xEF :: 0xBB :: 0xBF :: rest => rest
  | t => t

/-- The document of a text. Every step of the readers uses up a byte or ends, so the length of the
text is enough for them. -/
def Document.read (t : Text) : Option Document :=
  let t := unmarked t
  if isPlain t then (lines (2 * t.length + 4) [] t).bind Document.ofLines else none

end Classwright.Toml
