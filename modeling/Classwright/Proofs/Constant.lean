import Classwright.Constant.Fold
import Classwright.Proofs.Outcome

/-!
Constants of expressions have values that belong to their types (`Constant.IsTyped`): literals have,
and the operators keep it.
-/

namespace Classwright

namespace Prim

/-- Operands are widened to a type of numbers that the machine computes with. -/
theorem promote_cases {p : Prim} (h : p.promote q = some r) :
    r = .int ∨ r = .long ∨ r = .float ∨ r = .double := by
  cases p <;> cases q <;> cases h <;> decide

/-- Widening takes no number to a narrower type. -/
theorem rank_le_of_promote {p : Prim} (h : p.promote q = some r) :
    p.rank ≤ r.rank ∧ q.rank ≤ r.rank := by
  cases p <;> cases q <;> cases h <;> decide

end Prim

namespace Constant

/-- A value belongs to the type beside it, whole numbers within its range. -/
def IsTyped (c : Constant) : Prop :=
  match c.value with
  | .null => c.type = .null
  | .bool _ => c.type = .bool
  | .str _ => c.type = .string
  | .int i => c.type = .char ∧ 0 ≤ i.toInt ∧ i.toInt < 0x10000 ∨
    c.type = .int ∧ -0x80000000 ≤ i.toInt ∧ i.toInt < 0x80000000 ∨ c.type = .long
  | .float _ => c.type = .float ∨ c.type = .double

theorem isTyped_ofBool (b : Bool) : (ofBool b).IsTyped := rfl

theorem isTyped_ofText (t : Text) : (ofText t).IsTyped := rfl

theorem isTyped_ofInt (h : p = .int ∨ p = .long) (i : Int64) : (ofInt p i).IsTyped := by
  rcases h with rfl | rfl
  · refine .inr (.inl ⟨rfl, ?_⟩)
    rw [wrapInt, Int32.toInt_toInt64]
    exact ⟨i.toInt32.le_toInt, i.toInt32.toInt_lt⟩
  · exact .inr (.inr rfl)

theorem isTyped_ofDouble (h : p = .float ∨ p = .double) (x : Double) :
    (ofDouble p x).IsTyped := by
  rcases h with rfl | rfl
  · exact .inl rfl
  · exact .inr rfl

/-! ### Widening -/

/-- A number widened to a type that the machine computes with: a whole number or one of a floating
type, as that type says. -/
def IsNumber (p : Prim) : Value → Prop
  | .int _ => p = .int ∨ p = .long
  | .float _ => p = .float ∨ p = .double
  | _ => False

theorem isTyped_widen {c : Constant} (hc : c.IsTyped) (hq : c.type = .prim q)
    (hnum : q.isNumeric = true) (hp : p = .int ∨ p = .long ∨ p = .float ∨ p = .double)
    (hrank : q.rank ≤ p.rank) : (c.widen p).IsTyped ∧ IsNumber p (c.widen p).value ∧
      (c.widen p).type = .prim p := by
  obtain ⟨t, v⟩ := c
  change t = .prim q at hq
  subst hq
  cases v with
  | null => cases hc
  | bool b => cases hc; cases hnum
  | str s => cases hc
  | int i =>
    rcases hp with rfl | rfl | rfl | rfl
    · refine ⟨.inr (.inl ⟨rfl, ?_⟩), .inl rfl, rfl⟩
      rcases hc with ⟨-, hlo, hhi⟩ | ⟨-, hlo, hhi⟩ | hlong
      · exact ⟨by omega, by omega⟩
      · exact ⟨hlo, hhi⟩
      · cases hlong
        exact absurd hrank (by decide)
    · exact ⟨.inr (.inr rfl), .inr rfl, rfl⟩
    · exact ⟨.inl rfl, .inl rfl, rfl⟩
    · exact ⟨.inr rfl, .inr rfl, rfl⟩
  | float x =>
    rcases hc with hfloat | hdouble
    · cases hfloat
      rcases hp with rfl | rfl | rfl | rfl
      · exact absurd hrank (by decide)
      · exact absurd hrank (by decide)
      · exact ⟨.inl rfl, .inl rfl, rfl⟩
      · exact ⟨.inr rfl, .inr rfl, rfl⟩
    · cases hdouble
      rcases hp with rfl | rfl | rfl | rfl
      · exact absurd hrank (by decide)
      · exact absurd hrank (by decide)
      · exact absurd hrank (by decide)
      · exact ⟨.inr rfl, .inr rfl, rfl⟩

/-- Both operands of an operator, widened to the type that it is applied in. -/
theorem isTyped_promote {a b : Constant} (ha : a.IsTyped) (hb : b.IsTyped)
    (h : a.type.promote? b.type = some p) :
    ((a.widen p).IsTyped ∧ IsNumber p (a.widen p).value ∧ (a.widen p).type = .prim p) ∧
    ((b.widen p).IsTyped ∧ IsNumber p (b.widen p).value ∧ (b.widen p).type = .prim p) := by
  unfold Ty.promote? at h
  split at h
  · next q r hq hr =>
    have hnum : q.isNumeric = true ∧ r.isNumeric = true := by
      unfold Prim.promote at h
      split at h
      · exact (Bool.and_eq_true _ _).mp ‹_›
      · cases h
    obtain ⟨hrank, hrank'⟩ := Prim.rank_le_of_promote h
    exact ⟨isTyped_widen ha hq hnum.1 (Prim.promote_cases h) hrank,
      isTyped_widen hb hr hnum.2 (Prim.promote_cases h) hrank'⟩
  · cases h

/-! ### Operators -/

theorem isTyped_foldUnary {op : UnaryOp} {a : Constant} (ha : a.IsTyped)
    (h : foldUnary? op a = some c) : c.IsTyped := by
  cases op with
  | not =>
    rw [foldUnary?] at h
    split at h
    · cases h
      exact isTyped_ofBool _
    · cases h
  | plus =>
    obtain ⟨p, hp, rfl⟩ := Option.map_eq_some_iff.1 h
    exact (isTyped_promote ha ha hp).1.1
  | minus =>
    obtain ⟨p, hp, h⟩ := Option.bind_eq_some_iff.1 h
    have hnum := (isTyped_promote ha ha hp).1.2.1
    split at h
    · next i hi =>
      cases h
      rw [hi] at hnum
      exact isTyped_ofInt hnum _
    · next x hx =>
      cases h
      rw [hx] at hnum
      exact isTyped_ofDouble hnum _
    · cases h
  | percent => cases h

theorem isTyped_foldArith {op : BinaryOp} {a : Constant} (ha : a.IsTyped) (hb : b.IsTyped)
    (h : foldArith? op a b = some c) : c.IsTyped := by
  obtain ⟨p, hp, h⟩ := Option.bind_eq_some_iff.1 h
  have hnum := (isTyped_promote ha hb hp).1.2.1
  split at h
  · next i j hi hj =>
    obtain ⟨k, -, rfl⟩ := Option.map_eq_some_iff.1 h
    rw [hi] at hnum
    exact isTyped_ofInt hnum _
  · next x y hx hy =>
    obtain ⟨z, -, rfl⟩ := Option.map_eq_some_iff.1 h
    rw [hx] at hnum
    exact isTyped_ofDouble hnum _
  · cases h

theorem isTyped_foldXor {a b : Constant} (ha : a.IsTyped) (hb : b.IsTyped)
    (h : foldXor? a b = some c) : c.IsTyped := by
  unfold foldXor? at h
  split at h
  · cases h
    exact isTyped_ofBool _
  · obtain ⟨p, hp, h⟩ := Option.bind_eq_some_iff.1 h
    have hnum := (isTyped_promote ha hb hp).1.2.1
    split at h
    · next hi _ =>
      cases h
      rw [hi] at hnum
      exact isTyped_ofInt hnum _
    · cases h

theorem isTyped_foldBinary (ha : a.IsTyped) (hb : b.IsTyped)
    (h : foldBinary? op a b = some c) : c.IsTyped := by
  unfold foldBinary? at h
  split at h
  · split at h
    · cases h
      exact isTyped_ofBool _
    · cases h
  · split at h
    · cases h
      exact isTyped_ofBool _
    · cases h
  · obtain ⟨x, -, rfl⟩ := Option.map_eq_some_iff.1 h
    exact isTyped_ofBool _
  · obtain ⟨x, -, rfl⟩ := Option.map_eq_some_iff.1 h
    exact isTyped_ofBool _
  iterate 4
    · obtain ⟨p, -, h⟩ := Option.bind_eq_some_iff.1 h
      cases h
      exact isTyped_ofBool _
  · exact isTyped_foldXor ha hb h
  · obtain ⟨p, -, h⟩ := Option.bind_eq_some_iff.1 h
    split at h
    · cases h
      exact isTyped_ofDouble (.inr rfl) _
    · cases h
  · split at h
    · obtain ⟨s, -, h⟩ := Option.bind_eq_some_iff.1 h
      obtain ⟨t, -, h⟩ := Option.bind_eq_some_iff.1 h
      cases h
      exact isTyped_ofText _
    · exact isTyped_foldArith ha hb h
  iterate 4
    · exact isTyped_foldArith ha hb h
  · cases h

/-! ### Literals -/

theorem isTyped_ofKind (h : Literal.ofKind kind t = .ok c) :
    c.IsTyped := by
  have hnat : ∀ n : Nat, n < 0x80000000 → (Int64.ofNat n).toInt = n :=
    fun n hn => Int64.toInt_ofNat_of_lt (by omega)
  unfold Literal.ofKind at h
  split at h
  · cases h
    rfl
  · cases h
    rfl
  · cases h
    rfl
  · cases h
    rfl
  · unfold Literal.character at h
    split at h
    · split at h
      · next hle =>
        cases h
        refine .inl ⟨rfl, ?_⟩
        rw [hnat _ (by omega)]
        omega
      · cases h
    · cases h
  · unfold Literal.integer at h
    dsimp only at h
    split at h
    · split at h
      · cases h
        exact .inr (.inr rfl)
      · cases h
    · split at h
      · next hlt =>
        cases h
        refine .inr (.inl ⟨rfl, ?_⟩)
        rw [hnat _ hlt]
        omega
      · cases h
  · unfold Literal.floating at h
    dsimp only at h
    split at h
    · cases h
    · cases h
      refine isTyped_ofDouble ?_ _
      split
      · exact .inl rfl
      · exact .inr rfl
  · cases h

end Constant

/-- The constant that an expression is has a value of its type. -/
theorem Expr.isTyped_fold {x : Expr} (h : x.fold = .ok (some c)) : c.IsTyped := by
  match x with
  | .literal tok =>
    rw [fold, Constant.ofToken] at h
    split at h
    · cases h
    · next hc =>
      cases h
      exact Constant.isTyped_ofKind hc
  | .unary _ op x =>
    rw [fold] at h
    obtain ⟨a, ha, h⟩ := bind_eq_ok h
    cases a with
    | none => cases h
    | some a => exact Constant.isTyped_foldUnary (isTyped_fold ha) (Except.ok.inj h)
  | .binary _ op x y =>
    rw [fold] at h
    obtain ⟨a, ha, h⟩ := bind_eq_ok h
    cases a with
    | none => cases h
    | some a =>
      obtain ⟨b, hb, h⟩ := bind_eq_ok h
      cases b with
      | none => cases h
      | some b => exact Constant.isTyped_foldBinary (isTyped_fold ha) (isTyped_fold hb) (Except.ok.inj h)
  | .ident .. | .step .. | .assign .. | .call .. | .property .. | .construct .. | .list .. => cases h

end Classwright
