import Classwright.Text

/-!
Tokens: words, literals and punctuation with the place where they stand. Kinds are numbered, in the
order of the tables below; the two numbers around the keywords and all numbers past the end of the
table belong to no kind of their own.
-/

namespace Classwright

inductive Keyword where
  | case_ | with_ | for_ | while_ | if_ | else_ | return_ | struct_ | enum_ | def_ | type_ | const_
  | var_ | pub_ | use_ | new_ | true_ | false_ | null_ | break_ | continue_
  deriving DecidableEq, Repr

namespace Keyword

/-- The keywords in the order of their numbers. -/
def all : List Keyword := [
  case_, with_, for_, while_, if_, else_, return_, struct_, enum_, def_, type_, const_, var_, pub_,
  use_, new_, true_, false_, null_, break_, continue_]

def spelling : Keyword → Text
  | case_ => "case"
  | with_ => "with"
  | for_ => "for"
  | while_ => "while"
  | if_ => "if"
  | else_ => "else"
  | return_ => "return"
  | struct_ => "struct"
  | enum_ => "enum"
  | def_ => "def"
  | type_ => "type"
  | const_ => "const"
  | var_ => "var"
  | pub_ => "pub"
  | use_ => "use"
  | new_ => "new"
  | true_ => "true"
  | false_ => "false"
  | null_ => "null"
  | break_ => "break"
  | continue_ => "continue"

/-- The keyword that a word is. -/
def ofText? (word : Text) : Option Keyword := all.find? fun k => k.spelling == word

end Keyword

/-- Punctuation and operators. -/
inductive Symbol where
  | lparen | rparen | lbrace | rbrace | lbrack | rbrack | comma | varargs | range | dot | doubleColon
  | colon | assign | ge | le | gt | lt | eq | ne | and | or | xor | add | mul | sub | div | mod | pow
  | pipe | arrow | walrus | not | inc | dec | addAssign | subAssign | mulAssign | divAssign
  | modAssign | question
  deriving DecidableEq, Repr

namespace Symbol

/-- The symbols in the order of their numbers. -/
def all : List Symbol := [
  lparen, rparen, lbrace, rbrace, lbrack, rbrack, comma, varargs, range, dot, doubleColon, colon,
  assign, ge, le, gt, lt, eq, ne, and, or, xor, add, mul, sub, div, mod, pow, pipe, arrow, walrus,
  not, inc, dec, addAssign, subAssign, mulAssign, divAssign, modAssign, question]

def spelling : Symbol → Text
  | lparen => "("
  | rparen => ")"
  | lbrace => "\x7b"
  | rbrace => "\x7d"
  | lbrack => "["
  | rbrack => "]"
  | comma => ","
  | varargs => "..."
  | range => ".."
  | dot => "."
  | doubleColon => "::"
  | colon => ":"
  | assign => "="
  | ge => ">="
  | le => "<="
  | gt => ">"
  | lt => "<"
  | eq => "=="
  | ne => "!="
  | and => "&&"
  | or => "||"
  | xor => "^"
  | add => "+"
  | mul => "*"
  | sub => "-"
  | div => "/"
  | mod => "%"
  | pow => "**"
  | pipe => "|"
  | arrow => "=>"
  | walrus => ":="
  | not => "!"
  | inc => "++"
  | dec => "--"
  | addAssign => "+="
  | subAssign => "-="
  | mulAssign => "*="
  | divAssign => "/="
  | modAssign => "%="
  | question => "?"

/-- The symbol that a text spells. -/
def ofText? (t : Text) : Option Symbol := all.find? fun s => s.spelling == t

end Symbol

inductive Kind where
  | invalid
  | eof
  | ident
  | int
  | float
  | string
  | char
  | keyword (k : Keyword)
  | symbol (s : Symbol)
  /-- A number that the table gives to no kind. -/
  | other (code : Int)
  deriving DecidableEq, Repr

namespace Kind

/-- The kinds in the order of their numbers, starting with number zero. -/
def table : List Kind :=
  [invalid, eof, ident, int, float, string, char, other 7]
    ++ Keyword.all.map keyword ++ [other 29] ++ Symbol.all.map symbol

/-- The kind of a number. -/
def ofCode (code : Int) : Kind :=
  if code < 0 then other code else table.getD code.toNat (other code)

/-- The number of a kind. -/
def code : Kind → Int
  | other n => n
  | k => table.idxOf k

/-- The name of a kind, as messages show it. -/
def name : Kind → Text
  | invalid => "invalid"
  | eof => "EOF"
  | ident => "identifier"
  | int => "int"
  | float => "float"
  | string => "string"
  | char => "char"
  | keyword k => k.spelling
  | symbol s => s.spelling
  | other n => "Kind(" ++ Text.ofInt n ++ ")"

def isKeyword : Kind → Bool
  | keyword _ => true
  | _ => false

/-- The kind of a word: a keyword, or an identifier. -/
def ofWord (word : Text) : Kind :=
  match Keyword.ofText? word with
  | some k => keyword k
  | none => ident

end Kind

/-- A token and the line and column, both counted from one, where it starts. -/
structure Token where
  kind : Kind
  text : Text
  line : Int
  col : Int
  deriving DecidableEq, Repr

namespace Token

/-- The token of nothing: it has no text and no place. -/
def nowhere : Token := ⟨.invalid, [], 0, 0⟩

instance : Inhabited Token := ⟨nowhere⟩

def isNowhere (t : Token) : Bool := t == nowhere

/-- The token as messages show it. -/
def display (t : Token) : Text :=
  if t.kind = .eof then "EOF" else t.text

end Token

end Classwright
