import Classwright.Proofs.Meaning.Folding
import Classwright.Proofs.Typing

/-!
What expressions mean. An expression of literals, variables and operators has a result for given values
of its variables (`Expr.eval`): operands are evaluated from left to right, and the second one of "and"
and "or" counts only where the first one does not decide. A constant that an expression is folded to is
its value (`Expr.eval_of_fold`), and where a type is found for it, its value is of that type
(`Expr.exists_eval`).
-/

namespace Classwright

open Machine (Order unitsOf)

namespace Constant

/-- The value that a constant stands for. -/
def datum? (c : Constant) : Option Datum :=
  match c.value with
  | .null => some .null
  | .bool b => some (.bool b)
  | .str s => some (.text (unitsOf s))
  | .float _ => none
  | .int i =>
    match c.type with
    | .prim .int => some (.int i.toInt32)
    | .prim .long => some (.long i)
    | .prim .char => some (.char (UInt16.ofNat i.toInt.toNat))
    | _ => none

theorem Stands.datum? {c : Constant} (h : c.Stands v) : c.datum? = some v := by
  cases h with
  | int i => exact congrArg (fun i => some (Datum.int i)) i.toInt32_toInt64
  | char i =>
    have := i.toNat_lt
    refine congrArg (fun i => some (Datum.char i)) ?_
    rw [Int64.toInt_ofNat_of_lt (by omega), Int.toNat_natCast]
    exact UInt16.ofNat_toNat
  | _ => rfl

end Constant

/-! ### Results of operators -/

/-- The result of two conditions that are joined: the second one counts only where the first one does not
decide. -/
def Result.junction (isAnd : Bool) (u w : Option Result) : Option Result :=
  Result.andThen u fun
    | .bool b =>
      if b = isAnd then Result.andThen w fun
        | .bool c => some (.value (.bool c))
        | _ => none
      else some (.value (.bool b))
    | _ => none

/-- What compares values gives a condition. -/
theorem BinaryOp.exists_bool_of_order? {op : BinaryOp}
    (hop : op.order? = some o) (h : op.apply a b = some (.value v)) : ∃ x, v = .bool x := by
  have hequal {f : Bool → Bool} (h : (a.equal? b).map (fun e => Result.value (.bool (f e))) =
      some (.value v)) : ∃ x, v = .bool x := by
    obtain ⟨e, -, he⟩ := Option.map_eq_some_iff.1 h
    cases he
    exact ⟨_, rfl⟩
  have hnumbers (harith : op.arith? = none) (h : op.onNumbers a b = some (.value v)) :
      ∃ x, v = .bool x := by
    obtain ⟨p, -, h⟩ := Option.bind_eq_some_iff.1 h
    rw [harith, hop] at h
    cases h
    exact ⟨_, rfl⟩
  cases op with
  | eq => exact hequal (f := id) h
  | ne => exact hequal (f := not) h
  | lt | le | gt | ge => exact hnumbers rfl h
  | _ => cases hop

/-- Conditions that are joined give a condition. -/
theorem Result.exists_bool_of_junction
    (h : junction isAnd u w = some (.value v)) : ∃ x, v = .bool x := by
  rcases u with - | d | -
  · cases h
  · cases d with
    | bool b =>
      change (if b = isAnd then _ else _) = _ at h
      split at h
      · rcases w with - | d | -
        · cases h
        · cases d with
          | bool c =>
            cases h
            exact ⟨c, rfl⟩
          | _ => cases h
        · cases h
      · cases h
        exact ⟨b, rfl⟩
    | _ => cases h
  · cases h

def UnaryOp.run (op : UnaryOp) (u : Result) : Option Result :=
  Result.andThen (some u) fun v => (op.apply v).map .value

def BinaryOp.run (op : BinaryOp) (u w : Result) : Option Result :=
  match op with
  | .and => Result.junction true (some u) (some w)
  | .or => Result.junction false (some u) (some w)
  | .pow | .range => none
  | op => Result.andThen (some u) fun v => Result.andThen (some w) fun v' => op.apply v v'

theorem Pair.exists_type (p : Pair) : ∃ v : Datum, v.type = .prim p.prim := by
  cases p with
  | ints i => exact ⟨.int i, rfl⟩
  | longs i => exact ⟨.long i, rfl⟩

namespace Result

/-- A failure is of any type that has values. -/
theorem types_zeroDivision (h : ∃ v : Datum, v.type = t) : Types (some .zeroDivision) t :=
  ⟨h, nofun⟩

theorem types_value (v : Datum) : Types (some (.value v)) v.type where
  exists_eq := ⟨v, rfl⟩
  eq h := by
    cases h
    rfl

theorem Types.exists_bool (h : Types (some (.value v)) .bool) : ∃ x, v = .bool x := by
  rw [← Datum.isBool_type, h.eq rfl]
  rfl

/-- Two conditions that are joined give one. -/
theorem exists_junction (isAnd : Bool) (hu : Types (some u) .bool)
    (hw : Types (some w) .bool) :
    ∃ r, junction isAnd (some u) (some w) = some r ∧ Types (some r) .bool := by
  have hfail : Types (some .zeroDivision) .bool := types_zeroDivision hu.exists_eq
  cases u with
  | zeroDivision => exact ⟨_, rfl, hfail⟩
  | value v =>
    obtain ⟨x, rfl⟩ := hu.exists_bool
    by_cases hx : x = isAnd
    · cases w with
      | zeroDivision => exact ⟨_, if_pos hx, hfail⟩
      | value w =>
        obtain ⟨y, rfl⟩ := hw.exists_bool
        exact ⟨_, if_pos hx, types_value _⟩
    · exact ⟨_, if_neg hx, types_value _⟩

end Result

open Result (Types types_value types_zeroDivision)

/-- An operator that has a type for a result gives one of that type. -/
theorem UnaryOp.exists_run {op : UnaryOp} (hu : Types (some u) l)
    (h : op.type? l = some t) : ∃ r, op.run u = some r ∧ Types (some r) t := by
  have happly {v : Datum} (hv : v.type = l) : ∃ d, op.apply v = some d ∧ d.type = t := by
    rw [← hv, op.type?_eq] at h
    exact Option.map_eq_some_iff.1 h
  cases u with
  | value v =>
    obtain ⟨d, hd, rfl⟩ := happly (hu.eq rfl)
    exact ⟨.value d, congrArg (Option.map Result.value) hd, types_value d⟩
  | zeroDivision =>
    obtain ⟨v, hv⟩ := hu.exists_eq
    obtain ⟨d, -, hd⟩ := happly hv
    exact ⟨.zeroDivision, rfl, types_zeroDivision ⟨d, hd⟩⟩

namespace BinaryOp

variable {op : BinaryOp} {v w : Datum} {u u' r : Result} {l l' t : Ty}

theorem run_of_apply (hop : op ≠ .pow) (h : op.apply v w = some r) :
    op.run (.value v) (.value w) = some r := by
  cases op with
  | pow => exact absurd rfl hop
  | and | or =>
    cases v with
    | bool x =>
      cases w with
      | bool y => cases x <;> exact h
      | _ => cases h
    | _ => cases w <;> cases h
  | range => cases v <;> cases w <;> cases h
  | _ => exact h

/-- Two values of types that an operator has a type for have a result. -/
theorem exists_apply (hop : op ≠ .pow) (h : op.type? v.type w.type = some t) :
    ∃ r, op.apply v w = some r ∧ Types (some r) t := by
  obtain ⟨hnone, htype⟩ := isTyped hop v w
  cases hr : op.apply v w with
  | none =>
    rw [hnone.1 hr] at h
    cases h
  | some r =>
    refine ⟨r, rfl, ?_⟩
    cases r with
    | value d =>
      rw [htype d hr] at h
      cases h
      exact types_value d
    | zeroDivision =>
      obtain ⟨hdiv, p, hp, -⟩ := pair?_of_zeroDivision hr
      have ht : (v.type.promote? w.type).map Ty.prim = some t := by
        rcases hdiv with rfl | rfl <;> exact h
      rw [Datum.promote?_type, hp] at ht
      cases ht
      exact types_zeroDivision p.exists_type

/-- An operator that has a type for two results gives one of that type. -/
theorem exists_run (hop : op ≠ .pow) (hu : Types (some u) l) (hw : Types (some u') l')
    (h : op.type? l l' = some t) : ∃ r, op.run u u' = some r ∧ Types (some r) t := by
  have happly {v w : Datum} (hv : v.type = l) (hw : w.type = l') :
      ∃ r, op.apply v w = some r ∧ Types (some r) t := by
    rw [← hv, ← hw] at h
    exact exists_apply hop h
  obtain ⟨v₀, hv₀⟩ := hu.exists_eq
  obtain ⟨w₀, hw₀⟩ := hw.exists_eq
  obtain ⟨r₀, hr₀, hfail⟩ := happly hv₀ hw₀
  have hfail : Types (some .zeroDivision) t := types_zeroDivision hfail.exists_eq
  have hrange : op ≠ .range := by
    rintro rfl
    cases h
  have hjunction (isAnd : Bool) (ht : (if l.isBool && l'.isBool then some Ty.bool else none) = some t) :
      ∃ r, Result.junction isAnd (some u) (some u') = some r ∧ Types (some r) t := by
    split at ht
    · next hbool =>
      cases ht
      rw [Bool.and_eq_true] at hbool
      cases Ty.eq_bool_of_isBool hbool.1
      cases Ty.eq_bool_of_isBool hbool.2
      exact Result.exists_junction isAnd hu hw
    · cases ht
  cases op with
  | pow => exact absurd rfl hop
  | range => exact absurd rfl hrange
  | and => exact hjunction true h
  | or => exact hjunction false h
  | _ =>
    cases u with
    | zeroDivision => exact ⟨_, rfl, hfail⟩
    | value v =>
      cases u' with
      | zeroDivision => exact ⟨_, rfl, hfail⟩
      | value w => exact happly (hu.eq rfl) (hw.eq rfl)

end BinaryOp

namespace Constant

section
variable {a b c : Constant} {v w : Datum}

theorem apply_of_foldUnary? (ha : a.Stands v) (h : foldUnary? op a = some c) :
    ∃ u, op.apply v = some u ∧ c.Stands u ∧ c.IsRegular := by
  have hrel := foldUnary?_follows (P := True) op ha
  rw [h] at hrel
  generalize op.apply v = y at hrel
  cases hrel with
  | some hc => exact ⟨_, rfl, hc.2 trivial⟩

theorem apply_of_foldBinary? (hop : op ≠ .pow) (ha : a.Stands v) (hb : b.Stands w)
    (har : a.IsRegular) (hbr : b.IsRegular) (h : foldBinary? op a b = some c) :
    ∃ u, op.apply v w = some (.value u) ∧ c.Stands u ∧ c.IsRegular := by
  have hrel := foldBinary?_follows ha hb hop
  rw [h] at hrel
  generalize hy : (op.apply v w).bind (·.value?) = y at hrel
  cases hrel with
  | some hc =>
    obtain ⟨r, hr, hu⟩ := Option.bind_eq_some_iff.1 hy
    cases r with
    | zeroDivision => cases hu
    | value u =>
      cases hu
      exact ⟨_, hr, hc.2 ⟨har, hbr⟩⟩

end

end Constant

/-- Variables have values of their types. -/
def Scopes.Fits (s : Scopes) (ρ : Text → Option Datum) : Prop :=
  ∀ name d v, ρ name = some d → s.lookup? name = some v → v.type = d.type

namespace Expr

/-- The result of an expression, given the values of its variables. There is none if it has other parts
than literals, operators and these variables. -/
def eval (ρ : Text → Option Datum) : Expr → Option Result
  | literal tok => ((Constant.ofToken tok).toOption.bind (·.datum?)).map .value
  | ident _ name => (ρ name).map .value
  | unary _ op x => do op.run (← x.eval ρ)
  | binary _ op x y => do
    let u ← x.eval ρ
    let w ← y.eval ρ
    op.run u w
  | _ => none

/-- Literals, operators and variables that have values: there are no floating point numbers and powers,
and texts are valid UTF-8. -/
def IsPlain (ρ : Text → Option Datum) : Expr → Prop
  | literal tok => ∀ c, Constant.ofToken tok = .ok c → (∃ v, c.Stands v) ∧ c.IsRegular
  | ident _ name => (ρ name).isSome = true
  | unary _ _ x => x.IsPlain ρ
  | binary _ op x y => op ≠ .pow ∧ x.IsPlain ρ ∧ y.IsPlain ρ
  | _ => False

/-! ### Constants -/

section
variable {ρ : Text → Option Datum} {tok : Token} {x y : Expr} {c : Constant} {r : Result}

theorem fold_unary (h : (unary tok op x).fold = .ok (some c)) :
    ∃ a, x.fold = .ok (some a) ∧ Constant.foldUnary? op a = some c := by
  rw [fold] at h
  obtain ⟨a, ha, h⟩ := bind_eq_ok h
  obtain ⟨a, rfl, hc⟩ := Option.bind_eq_some_iff.1 (Except.ok.inj h)
  exact ⟨a, ha, hc⟩

theorem fold_binary (h : (binary tok op x y).fold = .ok (some c)) :
    ∃ a b, x.fold = .ok (some a) ∧ y.fold = .ok (some b) ∧ Constant.foldBinary? op a b = some c := by
  rw [fold] at h
  obtain ⟨a, ha, h⟩ := bind_eq_ok h
  cases a with
  | none => cases h
  | some a =>
    obtain ⟨b, hb, h⟩ := bind_eq_ok h
    obtain ⟨b, rfl, hc⟩ := Option.bind_eq_some_iff.1 (Except.ok.inj h)
    exact ⟨a, b, ha, hb, hc⟩

theorem fold_unary_of (hx : x.fold = .ok (some a)) :
    (unary tok op x).fold = .ok (Constant.foldUnary? op a) := by
  rw [fold, hx]
  rfl

theorem fold_binary_of (hx : x.fold = .ok (some a))
    (hy : y.fold = .ok (some b)) : (binary tok op x y).fold = .ok (Constant.foldBinary? op a b) := by
  rw [fold, hx, hy]
  rfl

theorem ofToken_of_fold (h : (literal tok).fold = .ok (some c)) : Constant.ofToken tok = .ok c := by
  rw [fold] at h
  cases htok : Constant.ofToken tok with
  | error e =>
    rw [htok] at h
    cases h
  | ok c' =>
    rw [htok] at h
    cases h
    rfl

theorem fold_literal_ne (h : (literal tok).fold = .ok none) : False := by
  rw [fold] at h
  cases htok : Constant.ofToken tok <;> rw [htok] at h <;> cases h

theorem eval_literal {v : Datum} (h : Constant.ofToken tok = .ok c) (hv : c.Stands v) :
    (literal tok).eval ρ = some (.value v) := by
  rw [eval, h]
  change (c.datum?).map _ = _
  rw [hv.datum?]
  rfl

theorem eval_unary (hx : x.eval ρ = some u) :
    (unary tok op x).eval ρ = op.run u := by
  rw [eval, hx]
  rfl

theorem eval_binary (hx : x.eval ρ = some u) (hy : y.eval ρ = some w) :
    (binary tok op x y).eval ρ = op.run u w := by
  rw [eval, hx, hy]
  rfl

theorem eval_range : (binary tok .range x y).eval ρ = none := by
  rw [eval]
  cases x.eval ρ with
  | none => rfl
  | some u => cases y.eval ρ <;> rfl

/-- The second part of a joined condition does not count where the first one decides. -/
theorem eq_of_decided (h : (binary tok (if isAnd then .and else .or) x y).eval ρ = some r)
    (hx : x.eval ρ = some (.value (.bool !isAnd))) : r = .value (.bool !isAnd) := by
  rw [eval, hx, Option.bind_eq_bind, Option.bind_some] at h
  obtain ⟨w, -, h⟩ := Option.bind_eq_some_iff.1 h
  cases isAnd <;> exact (Option.some.inj h).symm

end

/-- A constant that an expression is folded to is its value. -/
theorem eval_of_fold (x : Expr) (hx : x.IsPlain ρ)
    (hfold : x.fold = .ok (some c)) :
    ∃ v, x.eval ρ = some (.value v) ∧ c.Stands v ∧ c.IsRegular := by
  match x with
  | literal tok =>
    have hc := ofToken_of_fold hfold
    obtain ⟨⟨v, hv⟩, hregular⟩ := hx c hc
    exact ⟨v, eval_literal hc hv, hv, hregular⟩
  | unary tok op x =>
    obtain ⟨a, ha, hc⟩ := fold_unary hfold
    obtain ⟨v, hv, hstands, -⟩ := eval_of_fold x hx ha
    obtain ⟨w, hw, hcw⟩ := Constant.apply_of_foldUnary? hstands hc
    exact ⟨w, (eval_unary hv).trans (congrArg (Option.map Result.value) hw), hcw⟩
  | binary tok op x y =>
    obtain ⟨a, b, ha, hb, hc⟩ := fold_binary hfold
    obtain ⟨hop, hx, hy⟩ := hx
    obtain ⟨v, hv, hstands, hva⟩ := eval_of_fold x hx ha
    obtain ⟨w, hw, hstands', hwb⟩ := eval_of_fold y hy hb
    obtain ⟨d, hd, hcd⟩ := Constant.apply_of_foldBinary? hop hstands hstands' hva hwb hc
    exact ⟨d, (eval_binary hv hw).trans (BinaryOp.run_of_apply hop hd), hcd⟩
  | ident .. | step .. | assign .. | call .. | property .. | construct .. | list .. => cases hfold

/-! ### Types -/

/-- An expression that a type is found for has a result of that type. -/
theorem exists_eval {env : Env} (hs : s.Fits ρ)
    (x : Expr) (hx : x.IsPlain ρ) (ht : env.typeOf s x = .ok t) :
    ∃ r, x.eval ρ = some r ∧ Types (some r) t := by
  obtain ⟨c, hc⟩ := Env.fold_of_typeOf ht
  cases c with
  | some c =>
    obtain ⟨v, hv, hstands, -⟩ := eval_of_fold x hx (Env.fold_eq_ok_iff.1 hc)
    rw [Env.typeOf_of_constant hc] at ht
    cases ht
    rw [hstands.type_eq]
    exact ⟨_, hv, types_value v⟩
  | none =>
    match x with
    | literal tok => exact (fold_literal_ne (Env.fold_eq_ok_iff.1 hc)).elim
    | ident tok name =>
      obtain ⟨v, hv, rfl⟩ := Env.lookup?_of_typeOf ht
      obtain ⟨d, hd⟩ := Option.isSome_iff_exists.1 hx
      rw [hs name d v hd hv, eval, hd]
      exact ⟨_, rfl, types_value d⟩
    | unary tok op x =>
      obtain ⟨l, hl, ht⟩ := Env.type?_of_typeOf_unary hc ht
      obtain ⟨u, hu, hul⟩ := exists_eval hs x hx hl
      rw [eval_unary hu]
      exact UnaryOp.exists_run hul ht
    | binary tok op x y =>
      obtain ⟨l, r, hl, hr, ht⟩ := Env.type?_of_typeOf_binary hc ht
      obtain ⟨hop, hx, hy⟩ := hx
      obtain ⟨u, hu, hul⟩ := exists_eval hs x hx hl
      obtain ⟨w, hw, hwr⟩ := exists_eval hs y hy hr
      rw [eval_binary hu hw]
      exact BinaryOp.exists_run hop hul hwr ht
    | step .. | assign .. | call .. | property .. | construct .. | list .. => exact hx.elim

end Expr

/-! ### Whole numbers and conditions -/

def Ty.isBasic : Ty → Bool
  | .prim .int | .prim .long | .prim .bool => true
  | _ => false

/-- Constants of these types are values, and regular. -/
theorem Constant.IsTyped.of_isBasic {c : Constant} (h : c.IsTyped) (hc : c.type.isBasic = true) :
    (∃ v, c.Stands v) ∧ c.IsRegular := by
  obtain ⟨t, v⟩ := c
  have hfloat (x : Double) : v ≠ .float x := by
    rintro rfl
    rcases h with rfl | rfl <;> cases hc
  refine ⟨h.exists_stands hfloat, ?_⟩
  cases v with
  | str s =>
    cases h
    cases hc
  | int i =>
    rintro rfl
    cases hc
  | _ => trivial

namespace Expr

/-- Whole numbers and conditions: literals, known variables and operators. -/
def isBasic (known : Text → Bool) : Expr → Bool
  | literal tok => (Constant.ofToken tok).toOption.any (·.type.isBasic)
  | ident _ name => known name
  | unary _ _ x => x.isBasic known
  | binary _ op x y => op ≠ .pow && x.isBasic known && y.isBasic known
  | _ => false

theorem isPlain_of_isBasic {ρ : Text → Option Datum} (x : Expr)
    (hx : x.isBasic (fun name => (ρ name).isSome) = true) : x.IsPlain ρ := by
  match x with
  | literal tok =>
    intro c hc
    have htyped : c.IsTyped := by
      refine isTyped_fold (x := literal tok) ?_
      rw [fold, hc]
      rfl
    rw [isBasic, hc] at hx
    exact htyped.of_isBasic hx
  | ident _ name => exact hx
  | unary _ _ x => exact isPlain_of_isBasic x hx
  | binary _ op x y =>
    simp only [isBasic, Bool.and_eq_true, decide_eq_true_eq] at hx
    exact ⟨hx.1.1, isPlain_of_isBasic x hx.1.2, isPlain_of_isBasic y hx.2⟩
  | step .. | assign .. | call .. | property .. | construct .. | list .. => cases hx

end Expr

end Classwright
