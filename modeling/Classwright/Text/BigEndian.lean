import Classwright.Text

/-!
Numbers as bytes, the most significant one first.
-/

namespace Classwright.Text

/-- The low bytes of a number. -/
def bigEndian : Nat → Nat → Text
  | 0, _ => []
  | width + 1, n => UInt8.ofNat (n / Nat.pow 256 width) :: bigEndian width n

/-- The low sixteen bits of a number, a negative one in two's complement. -/
def word (i : Int) : Text := bigEndian 2 (i % 65536).toNat

/-- The number that bytes spell. -/
def ofBigEndian (t : Text) : Nat := t.foldl (fun n b => 256 * n + b.toNat) 0

/-- The number in two's complement that the low bits of a number spell. -/
def signed (bits n : Nat) : Int := (n : Int).bmod (Nat.pow 2 bits)

/-- Cuts a text after some bytes, if it has as many; `acc` holds those before, the last one first. -/
def split? (acc : Text) : Nat → Text → Option (Text × Text)
  | 0, rest => some (acc.reverse, rest)
  | _ + 1, [] => none
  | n + 1, b :: rest => split? (b :: acc) n rest

end Classwright.Text
