import Classwright.Token

/-!
What is told about a source that is refused: a message with the token that it is about, and how it
is laid out for a reader.
-/

namespace Classwright

inductive DiagnosticKind where
  | lex | parse | compile | call | name
  deriving DecidableEq, Repr

structure Diagnostic where
  kind : DiagnosticKind
  tok : Token
  message : Text
  deriving DecidableEq, Repr

namespace Diagnostic

/-- The message in one line, after its place. -/
def text (d : Diagnostic) : Text :=
  Text.ofInt d.tok.line ++ ":" ++ Text.ofInt d.tok.col ++ ": " ++ d.message

/-- The place of a token; −1 if it is nowhere. -/
def place (tok : Token) : Text :=
  if tok.isNowhere then "[-1:-1]"
  else "[" ++ Text.ofInt tok.line ++ ":" ++ Text.ofInt tok.col ++ "]"

/-- The layout for messages about meaning. -/
def renderMeaning (tok : Token) (file message : Text) : Text :=
  "[Ixion Exception]\n│> " ++ place tok ++ " in file \"" ++ file ++ "\" ['" ++ tok.text ++ "']:\n│> "
    ++ message

/-- The layout for messages about form. -/
def renderForm (tok : Token) (file message : Text) : Text :=
  "┌──────────────────────Parser Exception────────────────────\n│" ++ place tok
    ++ " Unexpected token in file \"" ++ file ++ "\" \x7b'" ++ tok.text ++ "'\x7d:\n│" ++ message
    ++ "\n╰──────────────────────────────────────────────────────────"

def isForm (d : Diagnostic) : Bool := d.kind == .lex || d.kind == .parse

def render (d : Diagnostic) (file : Text) : Text :=
  if d.isForm then renderForm d.tok file d.message else renderMeaning d.tok file d.message

end Diagnostic

/-- What went wrong: a diagnostic, or a message that is about no place. -/
inductive Detail where
  | diagnostic (d : Diagnostic)
  | plain (message : Text)
  deriving DecidableEq, Repr

/-- What went wrong and, from the outside in, during what. -/
structure Report where
  contexts : List Text := []
  detail : Detail
  deriving DecidableEq, Repr

namespace Report

def detailText : Detail → Text
  | .diagnostic d => d.text
  | .plain m => if m.isEmpty then "(no message)" else m

/-- A context in front of what it is about; one without words leaves nothing. -/
def lead (context : Text) : Text := if context.isEmpty then [] else context ++ ": "

/-- The whole report in one line. -/
def text (r : Report) : Text := r.contexts.flatMap lead ++ detailText r.detail

def diagnostic? (r : Report) : Option Diagnostic :=
  match r.detail with
  | .diagnostic d => some d
  | .plain _ => none

def render (r : Report) (file : Text) : Text :=
  match r.detail with
  | .diagnostic d => d.render file
  | .plain _ => Diagnostic.renderMeaning Token.nowhere file r.text

def within (context : Text) (r : Report) : Report := { r with contexts := context :: r.contexts }

end Report

end Classwright
