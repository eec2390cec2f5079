/-!
Whole numbers as signed words of 64 bits hold them: a sum that leaves the range of a word comes back
at its other end.
-/

namespace Classwright.Word

/-- The number that a signed word of 64 bits holds after a number has been put into it. -/
def wrap (i : Int) : Int := i.bmod 0x10000000000000000

/-- A number in the range of a word is held as it is. -/
theorem wrap_eq_self {i : Int} (lo : -0x8000000000000000 ≤ i) (hi : i < 0x8000000000000000) :
    wrap i = i :=
  Int.bmod_eq_of_le (by omega) (by omega)

end Classwright.Word
