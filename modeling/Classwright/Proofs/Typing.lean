import Classwright.Proofs.Constant
import Classwright.Typing

/-!
Types that are found for expressions. A constant has its own type; elsewhere an operator has a type for
the types of its operands.
-/

namespace Classwright

theorem Ty.eq_bool_of_isBool {t : Ty} (h : t.isBool = true) : t = .bool := by
  cases t with
  | prim p => cases p <;> first | rfl | cases h
  | _ => cases h

/-- A unary operator applies to a condition or to a number. -/
theorem UnaryOp.type?_cases {op : UnaryOp} (h : op.type? l = some t) :
    (op = .not ∧ l = .bool ∧ t = .bool) ∨ op ≠ .not ∧ ∃ p, l.promote? l = some p ∧ t = .prim p := by
  cases op with
  | not =>
    rw [type?] at h
    split at h
    · next hb =>
      cases h
      exact .inl ⟨rfl, Ty.eq_bool_of_isBool hb, rfl⟩
    · cases h
  | plus | minus =>
    obtain ⟨p, hp, rfl⟩ := Option.map_eq_some_iff.1 h
    exact .inr ⟨by decide, p, hp, rfl⟩
  | percent => cases h

namespace Env

section
variable {env : Env} {s : Scopes} {tok : Token} {x y : Expr} {l r t : Ty} {c : Option Constant}

theorem type?_of_unaryType (h : unaryType tok op l = .ok t) : op.type? l = some t := by
  unfold unaryType at h
  split at h
  · cases h
    assumption
  · cases h

theorem type?_of_binaryType (h : binaryType tok op l r = .ok t) :
    op.type? l r = some t := by
  unfold binaryType at h
  split at h
  · cases h
    assumption
  · cases h

theorem unaryType_of_type? (h : op.type? l = some t) : unaryType tok op l = .ok t := by
  rw [unaryType, h]

theorem binaryType_of_type? (h : op.type? l r = some t) :
    binaryType tok op l r = .ok t := by
  rw [binaryType, h]

theorem fold_eq_ok_iff : fold x = .ok c ↔ x.fold = .ok c := by
  unfold fold
  split
  · next h =>
    rw [h]
    exact ⟨fun h => by cases h; rfl, fun h => by cases h; rfl⟩
  · next h =>
    rw [h]
    exact ⟨nofun, nofun⟩

theorem typeOf_of_constant {c : Constant} (h : fold x = .ok (some c)) :
    env.typeOf s x = .ok c.type := by
  rw [typeOf.eq_def, h]
  rfl

theorem fold_of_typeOf (h : env.typeOf s x = .ok t) : ∃ c, fold x = .ok c := by
  rw [typeOf.eq_def] at h
  obtain ⟨c, hc, -⟩ := bind_eq_ok h
  exact ⟨c, hc⟩

theorem lookup?_of_typeOf (h : env.typeOf s (.ident tok name) = .ok t) :
    ∃ v, s.lookup? name = some v ∧ v.type = t := by
  rw [typeOf.eq_def, show fold (.ident tok name) = .ok none from rfl] at h
  change (do return (← variable_ s tok name).type) = _ at h
  obtain ⟨v, hv, h⟩ := bind_eq_ok h
  cases h
  unfold variable_ at hv
  split at hv
  · next hname =>
    cases hv
    exact ⟨_, hname, rfl⟩
  · cases hv

theorem type?_of_typeOf_unary (hfold : fold (.unary tok op x) = .ok none)
    (h : env.typeOf s (.unary tok op x) = .ok t) :
    ∃ l, env.typeOf s x = .ok l ∧ op.type? l = some t := by
  rw [typeOf.eq_def, hfold] at h
  change (do unaryType tok op (← env.typeOf s x)) = _ at h
  obtain ⟨l, hl, h⟩ := bind_eq_ok h
  exact ⟨l, hl, type?_of_unaryType h⟩

theorem type?_of_typeOf_binary (hfold : fold (.binary tok op x y) = .ok none)
    (h : env.typeOf s (.binary tok op x y) = .ok t) :
    ∃ l r, env.typeOf s x = .ok l ∧ env.typeOf s y = .ok r ∧ op.type? l r = some t := by
  rw [typeOf.eq_def, hfold] at h
  change (do
    let l ← env.typeOf s x
    let r ← env.typeOf s y
    binaryType tok op l r) = _ at h
  obtain ⟨l, hl, h⟩ := bind_eq_ok h
  obtain ⟨r, hr, h⟩ := bind_eq_ok h
  exact ⟨l, r, hl, hr, type?_of_binaryType h⟩

end

end Env

end Classwright
