/-!
Sets of natural numbers as the bits of one number.
-/

namespace Classwright

structure BitSet where
  bits : Nat := 0
  deriving DecidableEq, Repr

namespace BitSet

def empty : BitSet := ⟨0⟩

def insert (s : BitSet) (k : Nat) : BitSet := ⟨s.bits ||| 1 <<< k⟩

def contains (s : BitSet) (k : Nat) : Bool := s.bits.testBit k

/-- The set with a key added; no set holds a negative one. -/
def insert? (s : BitSet) (k : Int) : Option BitSet :=
  if k < 0 then none else some (s.insert k.toNat)

/-- Whether a key is in the set; a negative one never is. -/
def containsInt (s : BitSet) (k : Int) : Bool := 0 ≤ k && s.contains k.toNat

theorem contains_empty (k : Nat) : empty.contains k = false := Nat.zero_testBit k

theorem contains_insert (s : BitSet) (j k : Nat) :
    (s.insert j).contains k = (s.contains k || j == k) := by
  simp only [insert, contains, Nat.testBit_or, Nat.one_shiftLeft, Nat.testBit_two_pow]
  by_cases h : j = k <;> simp [h]

end BitSet

end Classwright
