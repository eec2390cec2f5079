import Classwright.Token
import Classwright.Word

/-!
A sequence of tokens with a cursor. Reading past the end gives the last token again, which is the
end marker in the stream of a source.
-/

namespace Classwright.Token

structure Stream where
  tokens : Array Token := #[]
  pos : Nat := 0

namespace Stream

def push (s : Stream) (t : Token) : Stream := { s with tokens := s.tokens.push t }

/-- The token at an index: no token before the start, the last one past the end. -/
def get (s : Stream) (i : Int) : Token :=
  if i < 0 then Token.nowhere
  else match s.tokens[i.toNat]? with
    | some t => t
    | none => s.tokens.back?.getD Token.nowhere

/-- The token some places after the cursor; a place beyond the range of a word lies before the
start. -/
def peekAt (s : Stream) (n : Int) : Token := s.get (Word.wrap (s.pos + n))

def peek (s : Stream) : Token := s.peekAt 0

/-- The last token read. -/
def previous (s : Stream) : Token := s.peekAt (-1)

/-- Reads a token; the cursor stops at the end. -/
def next (s : Stream) : Token × Stream :=
  (s.peek, if s.pos < s.tokens.size then { s with pos := s.pos + 1 } else s)

def reset (s : Stream) : Stream := { s with pos := 0 }

end Stream

end Classwright.Token
