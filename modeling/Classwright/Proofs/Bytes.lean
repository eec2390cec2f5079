import Classwright.Text.BigEndian
import Mathlib

/-!
Numbers survive the way through their bytes: what a text of big endian digits spells is the number
modulo the range of its width, so a number in that range is read back as it was written.
-/

namespace Classwright.Text

@[simp] theorem length_bigEndian (width n : Nat) : (bigEndian width n).length = width := by
  induction width with
  | zero => rfl
  | succ width ih => rw [bigEndian, List.length_cons, ih]

@[simp] theorem length_word (i : Int) : (word i).length = 2 := length_bigEndian 2 _

/-- The bytes of a number are read after those before it. -/
theorem foldl_bigEndian (width n acc : Nat) :
    (bigEndian width n).foldl (fun m b => 256 * m + b.toNat) acc =
      acc * 256 ^ width + n % 256 ^ width := by
  induction width generalizing acc with
  | zero => simp [bigEndian, Nat.mod_one]
  | succ width ih =>
    have hdigit : (UInt8.ofNat (n / Nat.pow 256 width)).toNat = n / 256 ^ width % 256 := by
      simp [UInt8.toNat_ofNat']
    have hsplit : n % 256 ^ (width + 1) = 256 ^ width * (n / 256 ^ width % 256) + n % 256 ^ width := by
      rw [Nat.pow_succ, Nat.mod_mul, Nat.add_comm]
    rw [bigEndian, List.foldl_cons, ih, hdigit, hsplit, Nat.pow_succ, Nat.add_mul]
    have hcomm : 256 * acc * 256 ^ width = acc * (256 ^ width * 256) := by
      rw [Nat.mul_comm 256 acc, Nat.mul_assoc, Nat.mul_comm 256]
    rw [hcomm, Nat.mul_comm (n / 256 ^ width % 256), Nat.add_assoc]

theorem ofBigEndian_bigEndian (width n : Nat) :
    ofBigEndian (bigEndian width n) = n % 256 ^ width := by
  rw [ofBigEndian, foldl_bigEndian, Nat.zero_mul, Nat.zero_add]

theorem ofBigEndian_bigEndian_of_lt (h : n < 256 ^ width) :
    ofBigEndian (bigEndian width n) = n := by
  rw [ofBigEndian_bigEndian, Nat.mod_eq_of_lt h]

theorem ofBigEndian_word (i : Int) : ofBigEndian (word i) = (i % 65536).toNat := by
  rw [word, ofBigEndian_bigEndian_of_lt (by omega)]

theorem ofBigEndian_word_natCast {n : Nat} (h : n < 65536) : ofBigEndian (word n) = n := by
  rw [ofBigEndian_word]
  omega

theorem foldl_lt (t : Text) (acc : Nat) :
    t.foldl (fun m b => 256 * m + b.toNat) acc < (acc + 1) * 256 ^ t.length := by
  induction t generalizing acc with
  | nil => simp
  | cons b t ih =>
    have hb := b.toNat_lt
    rw [List.foldl_cons, List.length_cons, Nat.pow_succ']
    calc _ < (256 * acc + b.toNat + 1) * 256 ^ t.length := ih _
      _ ≤ ((acc + 1) * 256) * 256 ^ t.length := Nat.mul_le_mul_right _ (by omega)
      _ = _ := Nat.mul_assoc _ _ _

theorem ofBigEndian_lt (t : Text) : ofBigEndian t < 256 ^ t.length := by
  simpa [ofBigEndian] using foldl_lt t 0

/-- A cut after the first of two texts gives both back. -/
theorem split?_append (acc t rest : Text) :
    split? acc t.length (t ++ rest) = some (acc.reverse ++ t, rest) := by
  induction t generalizing acc with
  | nil => simp [split?]
  | cons b t ih => simpa [split?] using ih (b :: acc)

theorem split?_nil_append (t rest : Text) : split? [] t.length (t ++ rest) = some (t, rest) := by
  simpa using split?_append [] t rest

theorem eq_of_split? (h : split? acc n t = some (b, rest)) :
    b = acc.reverse ++ t.take n ∧ n ≤ t.length := by
  induction n generalizing acc t with
  | zero =>
    rw [split?] at h
    cases h
    exact ⟨by simp, Nat.zero_le _⟩
  | succ n ih =>
    cases t with
    | nil =>
      rw [split?] at h
      cases h
    | cons c t =>
      rw [split?] at h
      obtain ⟨hb, hn⟩ := ih h
      exact ⟨by simp [hb], Nat.succ_le_succ hn⟩

theorem eq_take_of_split? (h : split? [] n t = some (b, rest)) :
    b = t.take n := by
  simpa using (eq_of_split? h).1

/-- Two's complement in the low bits of a number. -/
theorem signed_emod (bits : Nat) {i : Int} (lo : -2 ^ bits ≤ 2 * i) (hi : 2 * i < 2 ^ bits) :
    signed bits (i % (2 ^ bits : Nat)).toNat = i := by
  have hpos : (0 : Int) < (2 ^ bits : Nat) := by exact_mod_cast Nat.two_pow_pos bits
  have hcast : ((2 ^ bits : Nat) : Int) = 2 ^ bits := by simp
  rw [signed, Int.toNat_of_nonneg (Int.emod_nonneg _ (by omega))]
  change (i % (2 ^ bits : Nat)).bmod (2 ^ bits) = i
  rw [Int.emod_bmod, Int.bmod_eq_of_le_mul_two (by omega) (by omega)]

end Classwright.Text
