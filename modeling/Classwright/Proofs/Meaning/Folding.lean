import Classwright.Proofs.Constant
import Classwright.Proofs.Meaning.Value
import Classwright.Proofs.ModifiedUtf8

/-!
Folding means what running does. A constant stands for a value (`Constant.Stands`), and an operator
folds constants exactly where it has a meaning for their values and does not divide by zero. The type
is always that of the meaning; so is the value, if texts are valid UTF-8 and characters are no halves
of a pair (`Constant.IsRegular`).
-/

namespace Classwright

open Machine (Arith Order spelled unitsOf)

/-! ### Texts -/

section
variable {s t : Text}

theorem unitsOf_append (h : Utf8.isValid s = true) (t : Text) :
    unitsOf (s ++ t) = unitsOf s ++ unitsOf t := by
  simp only [unitsOf, Modified.decodeUnits_encode, Utf8.pieces_append h, List.map_append,
    List.flatMap_append]

/-- Valid texts with the same units are the same. -/
theorem eq_of_unitsOf (hs : Utf8.isValid s = true) (ht : Utf8.isValid t = true)
    (h : unitsOf s = unitsOf t) : s = t := by
  rw [← Modified.decode_encode hs, ← Modified.decode_encode ht, Modified.decode, Modified.decode]
  exact congrArg (fun u => Text.ofChars (Modified.ofUnits [] u)) h

theorem toNat_ofNat_ascii {b : UInt8} (h : b < 0x80) : (Char.ofNat b.toNat).toNat = b.toNat := by
  have hb : b.toNat < 0x80 := h
  rw [Char.ofNat, dif_pos (.inl (by omega))]
  exact BitVec.toNat_ofNatLT _ _

theorem unitsOf_ascii (h : ∀ b ∈ t, b < 0x80) : unitsOf t = spelled t := by
  rw [unitsOf, Modified.decodeUnits_encode, Utf8.pieces_ascii h, spelled, List.map_map]
  induction t with
  | nil => rfl
  | cons b t ih =>
    have hb := toNat_ofNat_ascii (h b (.head _))
    have hlt : b.toNat < 0x10000 := Nat.lt_trans b.toNat_lt (by decide)
    rw [List.map_cons, List.flatMap_cons, ih fun c hc => h c (.tail _ hc), List.map_cons]
    change Modified.units (Char.ofNat b.toNat) ++ _ = _
    rw [Modified.units, hb, if_pos hlt]
    rfl

theorem ascii_lt_of_isDigit (h : c.isDigit = true) : ascii c < 0x80 := by
  have hc : c.toNat ≤ 57 := by
    simp only [Char.isDigit, Bool.and_eq_true, decide_eq_true_eq] at h
    exact h.2
  rw [ascii, UInt8.lt_iff_toNat_lt, toNat_ofNat_of_lt (by omega)]
  exact Nat.lt_of_le_of_lt hc (by decide)

theorem ascii_ofInt (i : Int) : ∀ b ∈ Text.ofInt i, b < 0x80 := by
  have hnat (n : Nat) : ∀ b ∈ Text.ofNat n, b < 0x80 := by
    intro b hb
    obtain ⟨c, hc, rfl⟩ := List.mem_map.1 hb
    exact ascii_lt_of_isDigit (Nat.isDigit_of_mem_toDigits (by decide) (by decide) hc)
  intro b hb
  unfold Text.ofInt at hb
  split at hb
  · rcases List.mem_cons.1 hb with rfl | hb
    · decide
    · exact hnat _ b hb
  · exact hnat _ b hb

end

/-! ### Words -/

section
variable {i : Int64}

theorem toInt64_toInt32 (lo : -0x80000000 ≤ i.toInt) (hi : i.toInt < 0x80000000) :
    i.toInt32.toInt64 = i := by
  apply Int64.toInt_inj.1
  rw [Int32.toInt_toInt64, Int64.toInt_toInt32]
  exact Int.bmod_eq_of_le (by omega) (by omega)

theorem ofNat_toUInt16 (lo : 0 ≤ i.toInt) (hi : i.toInt < 0x10000) :
    Int64.ofNat (UInt16.ofNat i.toInt.toNat).toNat = i := by
  apply Int64.toInt_inj.1
  rw [UInt16.toNat_ofNat', Nat.mod_eq_of_lt (by omega), Int64.toInt_ofNat_of_lt (by omega),
    Int.toNat_of_nonneg lo]

theorem toInt64_ofNat (c : UInt16) : (Int32.ofNat c.toNat).toInt64 = Int64.ofNat c.toNat := by
  have := c.toNat_lt
  apply Int64.toInt_inj.1
  rw [Int32.toInt_toInt64, Int32.toInt_ofNat_of_lt (by omega), Int64.toInt_ofNat_of_lt (by omega)]

/-- The quotient of words of 32 bits is that of the wider words, cut back. -/
theorem toInt32_div (i j : Int32) : (i.toInt64 / j.toInt64).toInt32 = i / j := by
  apply Int32.toInt_inj.1
  rw [Int64.toInt_toInt32, Int64.toInt_div, Int32.toInt_div, Int32.toInt_toInt64, Int32.toInt_toInt64,
    Int.bmod_bmod_of_dvd (by decide)]

theorem toInt32_mod (i j : Int32) : (i.toInt64 % j.toInt64).toInt32 = i % j := by
  rw [← Int32.toInt64_mod, Int32.toInt32_toInt64]

theorem toInt64_eq_zero (j : Int32) : j.toInt64 = 0 ↔ j = 0 := by
  rw [← Int64.toInt_inj, ← Int32.toInt_inj, Int32.toInt_toInt64]
  rfl

end

/-! ### Constants and values -/

namespace Constant

/-- A constant is a value of its type. -/
inductive Stands : Constant → Datum → Prop
  | bool (b : Bool) : Stands (ofBool b) (.bool b)
  | int (i : Int32) : Stands ⟨.int, .int i.toInt64⟩ (.int i)
  | long (i : Int64) : Stands ⟨.long, .int i⟩ (.long i)
  | char (c : UInt16) : Stands ⟨.char, .int (Int64.ofNat c.toNat)⟩ (.char c)
  | text (s : Text) : Stands (ofText s) (.text (unitsOf s))
  | null : Stands ⟨.null, .null⟩ .null

/-- Texts are valid UTF-8, and characters are no halves of a pair. -/
def IsRegular (c : Constant) : Prop :=
  match c.value with
  | .str s => Utf8.isValid s = true
  | .int i => c.type = .char → i.toInt.toNat.isValidChar
  | _ => True

theorem Stands.type_eq {c : Constant} (h : c.Stands v) : c.type = v.type := by
  cases h <;> rfl

/-- Every constant that is not a floating point number is some value. -/
theorem IsTyped.exists_stands {c : Constant} (h : c.IsTyped) (hfloat : ∀ x, c.value ≠ .float x) :
    ∃ v, c.Stands v := by
  obtain ⟨t, v⟩ := c
  cases v with
  | null => cases h; exact ⟨_, .null⟩
  | bool b => cases h; exact ⟨_, .bool b⟩
  | str s => cases h; exact ⟨_, .text s⟩
  | float x => exact absurd rfl (hfloat x)
  | int i =>
    rcases h with ⟨ht, hlo, hhi⟩ | ⟨ht, hlo, hhi⟩ | ht
    · cases ht
      rw [← ofNat_toUInt16 hlo hhi]
      exact ⟨_, .char _⟩
    · cases ht
      rw [← toInt64_toInt32 hlo hhi]
      exact ⟨_, .int _⟩
    · cases ht
      exact ⟨_, .long i⟩

/-- A constant has the type of a value, and is that value under a condition. -/
def Follows (P : Prop) (c : Constant) (v : Datum) : Prop :=
  c.type = v.type ∧ (P → c.Stands v ∧ c.IsRegular)

section
variable {P : Prop} {a b c : Constant} {v w : Datum}

theorem Stands.follows (h : c.Stands v) (hc : c.IsRegular) : c.Follows P v :=
  ⟨h.type_eq, fun _ => ⟨h, hc⟩⟩

theorem follows_bool (x : Bool) : (ofBool x).Follows P (.bool x) := (Stands.bool x).follows trivial

theorem follows_int (h : x.toInt32 = k) : (ofInt .int x).Follows P (.int k) := by
  subst h
  exact (Stands.int _).follows nofun

theorem follows_long (x : Int64) : (ofInt .long x).Follows P (.long x) := (Stands.long x).follows nofun

/-! ### Operators with one operand -/

theorem foldUnary?_follows (op : UnaryOp) (h : a.Stands v) :
    Option.Rel (Follows P) (foldUnary? op a) (op.apply v) := by
  have hneg (i : Int32) : (-i.toInt64).toInt32 = -i := by
    rw [Int64.toInt32_neg, Int32.toInt32_toInt64]
  cases op with
  | not =>
    cases h with
    | bool x => exact .some (follows_bool !x)
    | _ => exact .none
  | plus =>
    cases h with
    | int i => exact .some ((Stands.int i).follows nofun)
    | long i => exact .some ((Stands.long i).follows nofun)
    | char c =>
      refine .some (Stands.follows ?_ nofun)
      rw [widen, ← toInt64_ofNat]
      exact .int _
    | _ => exact .none
  | minus =>
    cases h with
    | int i => exact .some (follows_int (hneg i))
    | long i => exact .some (follows_long (-i))
    | char c =>
      refine .some (follows_int ?_)
      rw [← toInt64_ofNat]
      exact hneg _
    | _ => exact .none
  | percent =>
    cases h <;> exact .none

end

end Constant

/-! ### Operators on numbers -/

/-- An operation on words of 32 bits is that on wider words, cut back. -/
theorem Machine.Arith.int?_eq (op : Arith) (i j : Int32) :
    op.int? i j = (op.long? i.toInt64 j.toInt64).map (·.toInt32) := by
  have hzero : j.toInt64 = 0 ↔ j = 0 := toInt64_eq_zero j
  cases op with
  | add | sub | mul | xor => simp [int?, long?]
  | div =>
    by_cases hj : j = 0
    · simp [int?, long?, hj]
    · simp [int?, long?, hj, hzero, toInt32_div]
  | rem =>
    by_cases hj : j = 0
    · simp [int?, long?, hj]
    · simp [int?, long?, hj, hzero, toInt32_mod]

namespace Pair

/-- The first number as one of 64 bits. -/
def left : Pair → Int64
  | ints i _ => i.toInt64
  | longs i _ => i

/-- The second number as one of 64 bits. -/
def right : Pair → Int64
  | ints _ j => j.toInt64
  | longs _ j => j

theorem holds_eq (o : Order) (p : Pair) : p.holds o = o.holds p.left.toInt p.right.toInt := by
  cases p with
  | ints i j => rw [left, right, Int32.toInt_toInt64, Int32.toInt_toInt64]; rfl
  | longs i j => rfl

theorem right_of_arith {p : Pair} (h : p.arith op = .zeroDivision) :
    (op = .div ∨ op = .rem) ∧ p.right = 0 := by
  cases p with
  | ints i j =>
    cases op with
    | div | rem =>
      by_cases hj : j = 0
      · subst hj
        simp [right]
      · simp [arith, Arith.int?, hj] at h
    | _ => cases h
  | longs i j =>
    cases op with
    | div | rem =>
      by_cases hj : j = 0
      · subst hj
        simp [right]
      · simp [arith, Arith.long?, hj] at h
    | _ => cases h

end Pair

/-- Only a division of numbers can fail, and only by zero. -/
theorem BinaryOp.pair?_of_zeroDivision {op : BinaryOp} {v : Datum}
    (h : op.apply v w = some .zeroDivision) :
    (op = .div ∨ op = .mod) ∧ ∃ p, v.pair? w = some p ∧ p.right = 0 := by
  have hnumbers (h : op.onNumbers v w = some .zeroDivision) :
      (op = .div ∨ op = .mod) ∧ ∃ p, v.pair? w = some p ∧ p.right = 0 := by
    obtain ⟨p, hp, h⟩ := Option.bind_eq_some_iff.1 h
    cases hop : op.arith? with
    | none =>
      rw [hop] at h
      cases ho : op.order? <;> rw [ho] at h <;> cases h
    | some k =>
      rw [hop] at h
      obtain ⟨hk, hright⟩ := Pair.right_of_arith (Option.some.inj h)
      refine ⟨?_, p, hp, hright⟩
      rcases hk with rfl | rfl
      · cases op <;> cases hop
        exact .inl rfl
      · cases op <;> cases hop
        exact .inr rfl
  unfold apply at h
  split at h
  · cases h
  · cases h
  · cases h
  · obtain ⟨e, -, he⟩ := Option.map_eq_some_iff.1 h
    cases he
  · obtain ⟨e, -, he⟩ := Option.map_eq_some_iff.1 h
    cases he
  · split at h
    · cases h
    · exact hnumbers h
  · exact hnumbers h

namespace Constant

section
variable {P : Prop} {a b c : Constant} {v w : Datum} {p : Pair}

theorem long?_follows (op : Arith) (p : Pair) :
    Option.Rel (Follows P) ((op.long? p.left p.right).map (ofInt p.prim)) (p.arith op).value? := by
  cases p with
  | ints i j =>
    rw [Pair.arith, op.int?_eq, Pair.left, Pair.right]
    cases op.long? i.toInt64 j.toInt64 with
    | none => exact .none
    | some k => exact .some (follows_int rfl)
  | longs i j =>
    rw [Pair.arith, Pair.left, Pair.right]
    cases op.long? i j with
    | none => exact .none
    | some k => exact .some (follows_long k)

variable (ha : a.Stands v) (hb : b.Stands w)
include ha hb

theorem Stands.values (hp : v.pair? w = some p) :
    a.value = .int p.left ∧ b.value = .int p.right := by
  cases ha <;> cases hb <;> cases hp <;> simp [Pair.left, Pair.right, toInt64_ofNat]

/-- Constants are widened as their values are. -/
theorem Stands.widen (hp : v.pair? w = some p) :
    (a.widen p.prim).value = .int p.left ∧ (b.widen p.prim).value = .int p.right := by
  obtain ⟨hleft, hright⟩ := ha.values hb hp
  have hprim : isFloating p.prim = false := by cases p <;> rfl
  rw [Constant.widen, Constant.widen, hleft, hright, hprim]
  exact ⟨rfl, rfl⟩

/-- Arithmetic folds numbers, unless it divides by zero. -/
theorem foldArith?_follows {op : BinaryOp} (hop : op.arith? = some k)
    (hfold : intArith? op = k.long?) :
    Option.Rel (Follows P) (foldArith? op a b) ((op.onNumbers v w).bind (·.value?)) := by
  rw [foldArith?, ha.type_eq, hb.type_eq, Datum.promote?_type, BinaryOp.onNumbers, hop]
  cases hp : v.pair? w with
  | none => exact .none
  | some p =>
    obtain ⟨hleft, hright⟩ := ha.widen hb hp
    dsimp only [Option.map_some, Option.bind_eq_bind, Option.bind_some]
    rw [hleft, hright]
    dsimp only
    rw [hfold]
    exact long?_follows k p

theorem foldXor?_follows :
    Option.Rel (Follows P) (foldXor? a b) ((BinaryOp.xor.apply v w).bind (·.value?)) := by
  have hpair (p : Pair) : isIntegral p.prim = true := by cases p <;> rfl
  have hnumbers (hbool : ∀ x y, a.value = .bool x → b.value = .bool y → False)
      (happly : BinaryOp.xor.apply v w = BinaryOp.xor.onNumbers v w) :
      Option.Rel (Follows P) (foldXor? a b) ((BinaryOp.xor.apply v w).bind (·.value?)) := by
    rw [happly, BinaryOp.onNumbers, BinaryOp.arith?]
    unfold foldXor?
    split
    · next x y hx hy => exact (hbool x y hx hy).elim
    rw [ha.type_eq, hb.type_eq, Datum.promote?_type]
    cases hp : v.pair? w with
    | none => exact .none
    | some p =>
      obtain ⟨hleft, hright⟩ := ha.widen hb hp
      dsimp only [Option.map_some, Option.bind_eq_bind, Option.bind_some]
      rw [hpair, hleft, hright]
      exact long?_follows .xor p
  cases ha <;> cases hb
  all_goals first
    | exact .some (follows_bool _)
    | exact hnumbers (by rintro _ _ ⟨⟩ ⟨⟩) rfl

/-! ### Comparisons -/

omit ha hb in
theorem ordered_compare (hop : op.order? = some o) (heq : op ≠ .eq)
    (hne : op ≠ .ne) (i j : Int) : ordered op (some (compare i j)) = o.holds i j := by
  have hlt : (compare i j == .lt) = decide (i < j) := by
    rw [Bool.eq_iff_iff, beq_iff_eq, Int.compare_eq_lt, decide_eq_true_eq]
  have hgt : (compare i j == .gt) = decide (j < i) := by
    rw [Bool.eq_iff_iff, beq_iff_eq, Int.compare_eq_gt, decide_eq_true_eq]
  cases op with
  | lt => cases hop; exact hlt
  | gt => cases hop; exact hgt
  | le =>
    cases hop
    rw [ordered, Order.holds, bne, hgt, ← decide_not]
    exact decide_eq_decide.2 Int.not_lt
  | ge =>
    cases hop
    rw [ordered, Order.holds, bne, hlt, ← decide_not]
    exact decide_eq_decide.2 Int.not_lt
  | eq => exact absurd rfl heq
  | ne => exact absurd rfl hne
  | _ => cases hop

/-- Numbers are ordered as their values are. -/
theorem compare?_widen (hp : v.pair? w = some p) :
    compare? (a.widen p.prim) (b.widen p.prim) = some (compare p.left.toInt p.right.toInt) := by
  obtain ⟨hleft, hright⟩ := ha.widen hb hp
  rw [compare?, hleft, hright]

theorem foldOrder?_follows {op : BinaryOp} (hop : op.order? = some o) (heq : op ≠ .eq)
    (hne : op ≠ .ne) (harith : op.arith? = none) :
    Option.Rel (Follows P) (do
        let p ← a.type.promote? b.type
        some (ofBool (ordered op (compare? (a.widen p) (b.widen p)))))
      ((op.onNumbers v w).bind (·.value?)) := by
  rw [ha.type_eq, hb.type_eq, Datum.promote?_type, BinaryOp.onNumbers, hop, harith]
  cases hp : v.pair? w with
  | none => exact .none
  | some p =>
    refine .some ?_
    rw [compare?_widen ha hb hp, ordered_compare hop heq hne, ← p.holds_eq]
    exact follows_bool _

/-- Constants can be compared where their values can. Whether they are equal is the same, as long as
texts are valid. -/
theorem foldEqual?_rel :
    Option.Rel (fun x y => a.IsRegular → b.IsRegular → x = y) (foldEqual? a b) (v.equal? w) := by
  have hnumbers (hfold : foldEqual? a b = (do
        let p ← a.type.promote? b.type
        some (compare? (a.widen p) (b.widen p) == some .eq)))
      (hequal : v.equal? w = (v.pair? w).map (·.holds .eq)) :
      Option.Rel (fun x y => a.IsRegular → b.IsRegular → x = y) (foldEqual? a b) (v.equal? w) := by
    rw [hfold, hequal, ha.type_eq, hb.type_eq, Datum.promote?_type]
    cases hp : v.pair? w with
    | none => exact .none
    | some p =>
      refine .some fun _ _ => ?_
      rw [compare?_widen ha hb hp]
      dsimp only
      rw [p.holds_eq, Bool.eq_iff_iff, beq_iff_eq, Option.some.injEq, Int.compare_eq_eq]
      exact beq_iff_eq.symm
  cases ha with
  | bool x =>
    cases hb with
    | bool y => exact .some fun _ _ => rfl
    | _ => exact .none
  | text s =>
    cases hb with
    | text t =>
      refine .some fun hs ht => ?_
      rw [Bool.eq_iff_iff, beq_iff_eq, beq_iff_eq]
      exact ⟨congrArg unitsOf, eq_of_unitsOf hs ht⟩
    | null => exact .some fun _ _ => rfl
    | _ => exact .none
  | null =>
    cases hb with
    | text t => exact .some fun _ _ => rfl
    | null => exact .some fun _ _ => rfl
    | _ => exact .none
  | int | long | char => cases hb <;> exact hnumbers rfl rfl

theorem follows_equal (f : Bool → Bool) :
    Option.Rel (Follows (a.IsRegular ∧ b.IsRegular)) ((foldEqual? a b).map fun e => ofBool (f e))
      (((v.equal? w).map fun e => Result.value (.bool (f e))).bind (·.value?)) := by
  have h := foldEqual?_rel ha hb
  generalize foldEqual? a b = x, v.equal? w = y at h
  cases h with
  | none => exact .none
  | some h =>
    refine .some ⟨rfl, ?_⟩
    rintro ⟨har, hbr⟩
    rw [h har hbr]
    exact ⟨.bool _, trivial⟩

/-! ### Texts of constants -/

omit ha hb in
/-- A constant has a text, which is that of its value. -/
theorem Stands.text? (h : c.Stands v) : ∃ t, c.text? = some t ∧
    (c.IsRegular → Utf8.isValid t = true ∧ unitsOf t = v.units) := by
  have hascii {t : Text} (ht : ∀ b ∈ t, b < 0x80) : Utf8.isValid t = true ∧ unitsOf t = spelled t :=
    ⟨Utf8.isValid_ascii ht, unitsOf_ascii ht⟩
  cases h with
  | bool x => exact ⟨_, rfl, fun _ => hascii (by cases x <;> decide +kernel)⟩
  | int i =>
    refine ⟨_, rfl, fun _ => ?_⟩
    rw [Int32.toInt_toInt64]
    exact hascii (ascii_ofInt _)
  | long i => exact ⟨_, rfl, fun _ => hascii (ascii_ofInt _)⟩
  | text s => exact ⟨s, rfl, fun h => ⟨h, rfl⟩⟩
  | null => exact ⟨_, rfl, fun _ => hascii (by decide +kernel)⟩
  | char i =>
    refine ⟨_, rfl, fun h => ?_⟩
    have hlt := i.toNat_lt
    have hi : (Int64.ofNat i.toNat).toInt.toNat = i.toNat := by
      rw [Int64.toInt_ofNat_of_lt (by omega)]
      rfl
    have hchar : (Char.ofNat i.toNat).toNat = i.toNat := by
      rw [Char.ofNat, dif_pos (hi ▸ h rfl)]
      exact BitVec.toNat_ofNatLT _ _
    rw [hi, Text.ofChars, List.flatMap_singleton]
    refine ⟨Utf8.isValid_utf8EncodeChar _, ?_⟩
    rw [unitsOf, Modified.decodeUnits_encode, Utf8.pieces_utf8EncodeChar]
    change Modified.units (Char.ofNat i.toNat) ++ [] = [i.toNat]
    rw [Modified.units, hchar, if_pos (by omega)]
    rfl

theorem foldText?_follows :
    Option.Rel (Follows (a.IsRegular ∧ b.IsRegular)) (do
        let s ← a.text?
        let t ← b.text?
        some (ofText (s ++ t)))
      (some (.text (v.units ++ w.units))) := by
  obtain ⟨s, hs, hsunits⟩ := ha.text?
  obtain ⟨t, ht, htunits⟩ := hb.text?
  rw [hs, ht]
  refine .some ⟨rfl, ?_⟩
  rintro ⟨har, hbr⟩
  obtain ⟨hsvalid, hsunits⟩ := hsunits har
  obtain ⟨htvalid, htunits⟩ := htunits hbr
  rw [← hsunits, ← htunits, ← unitsOf_append hsvalid]
  exact ⟨.text _, Utf8.isValid_append hsvalid htvalid⟩

/-! ### All operators -/

/-- Operators fold constants exactly where they have a meaning for their values and do not divide by
zero. -/
theorem foldBinary?_follows {op : BinaryOp} (hop : op ≠ .pow) :
    Option.Rel (Follows (a.IsRegular ∧ b.IsRegular)) (foldBinary? op a b)
      ((op.apply v w).bind (·.value?)) := by
  cases op with
  | pow => exact absurd rfl hop
  | and | or =>
    cases ha with
    | bool x =>
      cases hb with
      | bool y => exact .some (follows_bool _)
      | _ => exact .none
    | _ => cases hb <;> exact .none
  | xor => exact foldXor?_follows ha hb
  | range => cases ha <;> cases hb <;> exact .none
  | eq => exact follows_equal ha hb id
  | ne => exact follows_equal ha hb not
  | lt | gt | le | ge => exact foldOrder?_follows ha hb rfl nofun nofun rfl
  | sub | mul | div | mod => exact foldArith?_follows ha hb rfl rfl
  | add =>
    rw [foldBinary?, ha.type_eq, hb.type_eq, v.isString_type, w.isString_type]
    change Option.Rel _ _ ((if v.isText || w.isText then _ else _ : Option Result).bind _)
    cases v.isText || w.isText with
    | true => exact foldText?_follows ha hb
    | false => exact foldArith?_follows ha hb rfl rfl

/-! ### What does not fold -/

omit hb in
theorem type?_of_foldUnary? {op : UnaryOp} :
    op.type? a.type = (foldUnary? op a).map (·.type) := by
  have h := foldUnary?_follows (P := True) op ha
  rw [ha.type_eq, op.type?_eq]
  generalize foldUnary? op a = x, op.apply v = y at h
  cases h with
  | none => rfl
  | some h => exact congrArg some h.1.symm

theorem type?_of_foldBinary? {op : BinaryOp} (hop : op ≠ .pow) (h : foldBinary? op a b = some c) :
    op.type? a.type b.type = some c.type := by
  have hrel := foldBinary?_follows ha hb hop
  rw [h] at hrel
  obtain ⟨u, hu, hc⟩ : ∃ u, (op.apply v w).bind (·.value?) = some u ∧ c.type = u.type := by
    generalize (op.apply v w).bind (·.value?) = y at hrel
    cases hrel with
    | some hc => exact ⟨_, rfl, hc.1⟩
  obtain ⟨r, hr, hu⟩ := Option.bind_eq_some_iff.1 hu
  cases r with
  | zeroDivision => cases hu
  | value u =>
    cases hu
    rw [ha.type_eq, hb.type_eq, hc]
    exact (BinaryOp.isTyped hop v w).2 u hr

/-- An operator that does not fold has no type for its operands, or divides whole numbers by zero. -/
theorem foldBinary?_eq_none {op : BinaryOp} (hop : op ≠ .pow) (h : foldBinary? op a b = none) :
    op.type? a.type b.type = none ∨
      (op = .div ∨ op = .mod) ∧ (a.type.promote? b.type).isSome = true ∧ b.value = .int 0 := by
  have hrel := foldBinary?_follows ha hb hop
  rw [h] at hrel
  have hnone : (op.apply v w).bind (·.value?) = none := by
    generalize (op.apply v w).bind (·.value?) = y at hrel
    cases hrel with
    | none => rfl
  cases hr : op.apply v w with
  | none =>
    left
    rw [ha.type_eq, hb.type_eq]
    exact (BinaryOp.isTyped hop v w).1.1 hr
  | some r =>
    rw [hr] at hnone
    cases r with
    | value u => cases hnone
    | zeroDivision =>
      obtain ⟨hop, p, hp, hright⟩ := BinaryOp.pair?_of_zeroDivision hr
      refine .inr ⟨hop, ?_, ?_⟩
      · rw [ha.type_eq, hb.type_eq, Datum.promote?_type, hp]
        rfl
      · rw [(ha.values hb hp).2, hright]

end

end Constant

end Classwright
