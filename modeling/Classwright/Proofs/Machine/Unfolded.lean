import Classwright.Proofs.Machine.Expression

/-!
Folding against running. The code of an expression can also be put together without folding its
operators (`Gen.unfolded`). Where an expression of literals is folded to a constant, the constant has the
type that is found without folding, and is the value that the code without folding pushes
(`Gen.fold_agrees`); an operator on constants folds unless it has no type for them or divides by zero.
Comparing and joining texts is an exception if they are not valid UTF-8.
-/

namespace Classwright

open Machine
open Result (Types types_value)

/-! ### Expressions of literals -/

def Constant.isFractional (c : Constant) : Bool :=
  match c.value with
  | .float _ => true
  | _ => false

namespace Expr

/-- Literals other than floating point numbers, and operators other than powers. -/
def isConstant : Expr → Bool
  | literal tok => (Constant.ofToken tok).toOption.all (!·.isFractional)
  | unary _ _ x => x.isConstant
  | binary _ op x y => op ≠ .pow && x.isConstant && y.isConstant
  | _ => false

/-- Texts are valid UTF-8, and characters are no halves of a pair. -/
def IsRegular : Expr → Prop
  | literal tok => ∀ c, Constant.ofToken tok = .ok c → c.IsRegular
  | unary _ _ x => x.IsRegular
  | binary _ _ x y => x.IsRegular ∧ y.IsRegular
  | _ => True

theorem isConstant_binary {tok : Token} :
    (binary tok op x y).isConstant = true ↔ op ≠ .pow ∧ x.isConstant = true ∧ y.isConstant = true := by
  simp only [isConstant, Bool.and_eq_true, decide_eq_true_eq, and_assoc]

theorem stands_of_ofToken {tok : Token} (hx : (literal tok).isConstant = true)
    (hc : Constant.ofToken tok = .ok c) : ∃ v, c.Stands v := by
  have htyped : c.IsTyped := by
    refine isTyped_fold (x := literal tok) ?_
    rw [fold, hc]
    rfl
  refine htyped.exists_stands fun x hvalue => ?_
  rw [isConstant, hc] at hx
  change (!c.isFractional) = true at hx
  rw [Constant.isFractional, hvalue] at hx
  cases hx

theorem isPlain_of_isConstant (x : Expr) (hx : x.isConstant = true)
    (hregular : x.IsRegular) : x.IsPlain ρ := by
  match x with
  | literal tok => exact fun c hc => ⟨stands_of_ofToken hx hc, hregular c hc⟩
  | unary _ _ x => exact isPlain_of_isConstant x hx hregular
  | binary _ op x y =>
    obtain ⟨hop, hx, hy⟩ := isConstant_binary.1 hx
    exact ⟨hop, isPlain_of_isConstant x hx hregular.1, isPlain_of_isConstant y hy hregular.2⟩
  | ident .. | step .. | assign .. | call .. | property .. | construct .. | list .. => cases hx

end Expr

/-! ### Types and code without folding -/

/-- The type of an expression, found without folding its operators. -/
def Env.unfoldedType (env : Env) (s : Scopes) : Expr → Compiled Ty
  | .unary tok op x => do unaryType tok op (← env.unfoldedType s x)
  | .binary tok op x y => do
    let l ← env.unfoldedType s x
    let r ← env.unfoldedType s y
    binaryType tok op l r
  | x => env.typeOf s x

namespace Gen

def unfoldedType (env : Env) (x : Expr) : Gen Ty := do env.unfoldedType (← get).scopes x

/-- The code of an expression, written without folding its operators. -/
def unfolded (env : Env) : Expr → Mode → Gen Ty
  | .unary tok op x => unary tok op (unfoldedType env x) (unfolded env x)
  | .binary tok op x y =>
    binary tok op (unfoldedType env x) (unfoldedType env y) (unfolded env x) (unfolded env y)
  | x => expr env x

end Gen

section
variable {env : Env} {s : Scopes} {locals : Locals} {ρ : Text → Option Datum}

theorem Constant.IsTyped.exists_stands_of_type {c : Constant} {u : Datum} (h : c.IsTyped) (ht : c.type = u.type) :
    ∃ v, c.Stands v := by
  refine h.exists_stands fun x hx => ?_
  rw [Constant.IsTyped, hx, ht] at h
  cases u <;> rcases h with h | h <;> cases h

/-- A constant that an expression of literals is folded to has the type that is found without folding. -/
theorem Expr.unfoldedType_of_fold {c : Constant} (x : Expr) (hx : x.isConstant = true)
    (hfold : x.fold = .ok (some c)) : env.unfoldedType s x = .ok c.type ∧ ∃ v, c.Stands v := by
  match x with
  | literal tok =>
    exact ⟨Env.typeOf_of_constant (Env.fold_eq_ok_iff.2 hfold), stands_of_ofToken hx (ofToken_of_fold hfold)⟩
  | unary tok op x =>
    obtain ⟨a, ha, hc⟩ := fold_unary hfold
    obtain ⟨htype, v, hv⟩ := unfoldedType_of_fold x hx ha
    have ht : op.type? a.type = some c.type := by rw [Constant.type?_of_foldUnary? hv, hc]; rfl
    obtain ⟨u, -, hu, -⟩ := Constant.apply_of_foldUnary? hv hc
    rw [Env.unfoldedType, htype]
    exact ⟨Env.unaryType_of_type? ht, u, hu⟩
  | binary tok op x y =>
    obtain ⟨hop, hx, hy⟩ := isConstant_binary.1 hx
    obtain ⟨a, b, ha, hb, hc⟩ := fold_binary hfold
    obtain ⟨hleft, v, hv⟩ := unfoldedType_of_fold x hx ha
    obtain ⟨hright, w, hw⟩ := unfoldedType_of_fold y hy hb
    have ht := Constant.type?_of_foldBinary? hv hw hop hc
    rw [Env.unfoldedType, hleft, hright]
    refine ⟨Env.binaryType_of_type? ht, ?_⟩
    rw [hv.type_eq, hw.type_eq] at ht
    obtain ⟨r, -, hr⟩ := BinaryOp.exists_apply hop ht
    obtain ⟨u, hu⟩ := hr.exists_eq
    exact (isTyped_fold hfold).exists_stands_of_type hu.symm
  | ident .. | step .. | assign .. | call .. | property .. | construct .. | list .. => cases hx

theorem Expr.exists_eval_unfolded (x : Expr) (hx : x.isConstant = true)
    (ht : env.unfoldedType s x = .ok t) : ∃ r, x.eval ρ = some r ∧ Types (some r) t := by
  match x with
  | literal tok =>
    change env.typeOf s (.literal tok) = _ at ht
    obtain ⟨c, hc⟩ := Env.fold_of_typeOf ht
    cases c with
    | none => exact (fold_literal_ne (Env.fold_eq_ok_iff.1 hc)).elim
    | some c =>
      have htok := ofToken_of_fold (Env.fold_eq_ok_iff.1 hc)
      obtain ⟨v, hv⟩ := stands_of_ofToken hx htok
      rw [Env.typeOf_of_constant hc, hv.type_eq] at ht
      cases ht
      exact ⟨_, eval_literal htok hv, types_value v⟩
  | unary tok op x =>
    rw [Env.unfoldedType] at ht
    obtain ⟨l, hl, ht⟩ := bind_eq_ok ht
    obtain ⟨u, hu, hul⟩ := exists_eval_unfolded x hx hl
    rw [eval_unary hu]
    exact UnaryOp.exists_run hul (Env.type?_of_unaryType ht)
  | binary tok op x y =>
    obtain ⟨hop, hx, hy⟩ := isConstant_binary.1 hx
    rw [Env.unfoldedType] at ht
    obtain ⟨l, hl, ht⟩ := bind_eq_ok ht
    obtain ⟨r, hr, ht⟩ := bind_eq_ok ht
    obtain ⟨u, hu, hul⟩ := exists_eval_unfolded x hx hl
    obtain ⟨w, hw, hwr⟩ := exists_eval_unfolded y hy hr
    rw [eval_binary hu hw]
    exact BinaryOp.exists_run hop hul hwr (Env.type?_of_binaryType ht)
  | ident .. | step .. | assign .. | call .. | property .. | construct .. | list .. => cases hx

namespace Gen

theorem reads_unfoldedType (env : Env) (x : Expr) :
    Reads s (unfoldedType env x) fun t => env.unfoldedType s x = .ok t := by
  refine ⟨plain_lookup _, fun b hs => .bind (.of_eq rfl (.lift fun t ht => ⟨rfl, ?_⟩))⟩
  rw [← hs]
  exact ht

theorem works_unfoldedType (h : env.unfoldedType s x = .ok t) :
    Works s (unfoldedType env x) (· = t) :=
  works_get fun _ hb => works_lift (hb ▸ h)

/-- The code of an expression that is not folded does what the expression means. -/
theorem gives_unfolded (x : Expr) (hx : x.isConstant = true) :
    Gives s locals (unfolded env x) (x.eval ρ) := by
  have htype {x : Expr} (hx : x.isConstant = true) : Reads s (unfoldedType env x) (Types (x.eval ρ)) :=
    (reads_unfoldedType env x).mono fun t ht => by
      obtain ⟨r, hr, hrt⟩ := x.exists_eval_unfolded hx ht
      rw [hr]
      exact hrt
  match x with
  | .literal tok =>
    change Gives s locals (expr env (.literal tok)) _
    cases htok : Constant.ofToken tok with
    | error e =>
      rw [Expr.eval, htok]
      exact gives_none (plain_expr rfl)
    | ok c =>
      obtain ⟨v, hv⟩ := Expr.stands_of_ofToken hx htok
      have hfold : Env.fold (.literal tok) = .ok (some c) := by
        rw [Env.fold_eq_ok_iff, Expr.fold, htok]
        rfl
      rw [Expr.eval_literal htok hv, funext (expr_of_constant hfold)]
      exact gives_constant hv
  | .unary tok op x => exact (gives_unfolded x hx).unary (htype hx) op
  | .binary tok op x y =>
    obtain ⟨hop, hx, hy⟩ := Expr.isConstant_binary.1 hx
    exact (gives_unfolded x hx).binary (gives_unfolded y hy) (htype hx) (htype hy) op hop
  | .ident .. | .step .. | .assign .. | .call .. | .property .. | .construct .. | .list .. => cases hx

/-- There is code for an expression that has a type without folding. -/
theorem accepts_unfolded (x : Expr) (hx : x.isConstant = true)
    (ht : env.unfoldedType s x = .ok t) : Accepts s (unfolded env x) t := by
  match x with
  | .literal tok =>
    change env.typeOf s (.literal tok) = _ at ht
    obtain ⟨c, hc⟩ := Env.fold_of_typeOf ht
    cases c with
    | none => exact (Expr.fold_literal_ne (Env.fold_eq_ok_iff.1 hc)).elim
    | some c =>
      rw [Env.typeOf_of_constant hc] at ht
      cases ht
      exact accepts_of_fold hc
  | .unary tok op x =>
    rw [Env.unfoldedType] at ht
    obtain ⟨l, hl, ht⟩ := bind_eq_ok ht
    exact (accepts_unfolded x hx hl).unary (works_unfoldedType hl) (Env.type?_of_unaryType ht)
  | .binary tok op x y =>
    obtain ⟨-, hx, hy⟩ := Expr.isConstant_binary.1 hx
    rw [Env.unfoldedType] at ht
    obtain ⟨l, hl, ht⟩ := bind_eq_ok ht
    obtain ⟨r, hr, ht⟩ := bind_eq_ok ht
    exact (accepts_unfolded x hx hl).binary (accepts_unfolded y hy hr) (works_unfoldedType hl)
      (works_unfoldedType hr) (Env.type?_of_binaryType ht)
  | .ident .. | .step .. | .assign .. | .call .. | .property .. | .construct .. | .list .. => cases hx

/-- Code is written for a value of a type, and pushes it whatever goes before and after it. -/
def PushesValue (code : Gen Ty) (t : Ty) (v : Val) : Prop :=
  ∀ b : Body, ∃ b', code b = .ok (t, b') ∧ ∀ C st locals heap, b'.code.Extends C → ∃ heap',
    heap <+: heap' ∧
      Steps C ⟨b.code.instrs.size, st, locals, heap⟩ ⟨b'.code.instrs.size, v :: st, locals, heap'⟩

theorem pushesValue (haccepts : ∀ s, Accepts s code t)
    (hgives : ∀ s locals, Gives s locals code (some (.value v))) : PushesValue (code .value) t v.val := by
  intro b
  obtain ⟨_, b', hcode, -, rfl⟩ := (haccepts b.scopes).value b rfl
  refine ⟨b', hcode, fun C st locals heap hC => ?_⟩
  have hyields := ((hgives b.scopes locals).value 0).yields b rfl (Nat.zero_le _) _ b' hcode
  obtain ⟨heap', hheap, hgoes⟩ := hyields st heap
  exact ⟨heap', hheap, hgoes.steps hC rfl⟩

/-- A constant that an expression of literals is folded to is a value of its type, and has the type that
is found without folding. Both its code and the code without folding push its value, if texts are valid
UTF-8 and characters are no halves of a pair. An operator folds constants unless it has no type for them,
or is a division of whole numbers by zero. -/
theorem fold_agrees {x : Expr} (hx : x.isConstant = true) :
    (∀ c, x.fold = .ok (some c) → c.IsTyped ∧ (∀ env s, Env.unfoldedType env s x = .ok c.type) ∧
      (x.IsRegular → ∃ v, c.Stands v ∧ ∀ env, PushesValue (unfolded env x .value) c.type v.val ∧
        PushesValue (expr env x .value) c.type v.val)) ∧
    (∀ tok op c, x.fold = .ok (some c) → (Expr.unary tok op x).fold = .ok none →
      op.type? c.type = none) ∧
    ∀ tok op y a b, y.isConstant = true → op ≠ .pow → x.fold = .ok (some a) → y.fold = .ok (some b) →
      (Expr.binary tok op x y).fold = .ok none → op.type? a.type b.type = none ∨
        (op = .div ∨ op = .mod) ∧ (a.type.promote? b.type).isSome = true ∧ b.value = .int 0 := by
  have hstands {x : Expr} {c : Constant} (hx : x.isConstant = true) (hc : x.fold = .ok (some c)) :
      ∃ v, c.Stands v := by
    have h : Env.unfoldedType { mainClass := [] } {} x = _ ∧ _ := x.unfoldedType_of_fold hx hc
    exact h.2
  refine ⟨fun c hc => ⟨Expr.isTyped_fold hc, fun env s => (x.unfoldedType_of_fold hx hc).1,
    fun hregular => ?_⟩, fun tok op c hc hnone => ?_, fun tok op y a b hy hop ha hb hnone => ?_⟩
  · obtain ⟨v, hv, hstands, -⟩ := x.eval_of_fold (ρ := fun _ => none) (x.isPlain_of_isConstant hx hregular) hc
    have hfold := Env.fold_eq_ok_iff.2 hc
    refine ⟨v, hstands, fun env => ⟨pushesValue (fun s => ?_) fun s locals => ?_,
      pushesValue (fun s => accepts_of_fold hfold) fun s locals => ?_⟩⟩
    · exact accepts_unfolded x hx (x.unfoldedType_of_fold hx hc).1
    · rw [← hv]
      exact gives_unfolded x hx
    · rw [funext (expr_of_constant hfold)]
      exact gives_constant hstands
  · obtain ⟨v, hv⟩ := hstands hx hc
    rw [Expr.fold_unary_of hc] at hnone
    rw [Constant.type?_of_foldUnary? hv, Except.ok.inj hnone]
    rfl
  · obtain ⟨v, hv⟩ := hstands hx ha
    obtain ⟨w, hw⟩ := hstands hy hb
    rw [Expr.fold_binary_of ha hb] at hnone
    exact Constant.foldBinary?_eq_none hv hw hop (Except.ok.inj hnone)

end Gen

end

namespace Gen

/-- A text between quotes. -/
def sampleText (t : Text) : Expr :=
  .literal { Token.nowhere with kind := .string, text := "\"" ++ t ++ "\"" }

/-- The expression `"n" + (2147483647 + 1) == "n-2147483648"`. -/
def sampleOverflow : Expr :=
  let literal (digits : Text) := Expr.literal { Token.nowhere with kind := .int, text := digits }
  .binary Token.nowhere .eq (.binary Token.nowhere .add (sampleText "n")
    (.binary Token.nowhere .add (literal "2147483647") (literal "1"))) (sampleText "n-2147483648")

theorem exists_fold {x : Expr} (hx : x.isConstant = true)
    (h : (x.fold.toOption.bind fun c => c.bind (·.datum?)) = some v) :
    ∃ c, x.fold = .ok (some c) ∧ c.Stands v := by
  obtain ⟨c, hc, h⟩ := Option.bind_eq_some_iff.1 h
  obtain ⟨c, rfl, hv⟩ := Option.bind_eq_some_iff.1 h
  have htype : Env.unfoldedType { mainClass := [] } {} x = _ ∧ _ :=
    x.unfoldedType_of_fold hx (of_toOption hc)
  obtain ⟨-, w, hw⟩ := htype
  cases Option.some.inj (hw.datum?.symm.trans hv)
  exact ⟨c, of_toOption hc, hw⟩

/-- A sum wraps around, and its text is compared, when it is folded and when it is run. -/
theorem fold_agrees_sampleOverflow : ∃ c, sampleOverflow.fold = .ok (some c) ∧ c.Stands (.bool true) ∧
    PushesValue (unfolded { mainClass := [] } sampleOverflow .value) .bool (.int 1) := by
  have hx : sampleOverflow.isConstant = true := by decide +kernel
  have hregular : sampleOverflow.IsRegular := by
    refine ⟨⟨?_, ?_, ?_⟩, ?_⟩
    · rintro _ ⟨⟩
      change Utf8.isValid _ = true
      decide +kernel
    · rintro _ ⟨⟩ ⟨⟩
    · rintro _ ⟨⟩ ⟨⟩
    · rintro _ ⟨⟩
      change Utf8.isValid _ = true
      decide +kernel
  obtain ⟨c, hfold, hc⟩ := exists_fold (v := .bool true) hx (by decide +kernel)
  obtain ⟨-, -, h⟩ := (fold_agrees hx).1 c hfold
  obtain ⟨v, hv, hpushes⟩ := h hregular
  cases Option.some.inj (hc.datum?.symm.trans hv.datum?)
  cases hc
  exact ⟨_, hfold, hv, (hpushes _).1⟩

/-- Two texts of one invalid byte each, compared. -/
def sampleInvalid : Expr := .binary Token.nowhere .eq (sampleText [0xC3]) (sampleText [0xC2])

/-- Two texts of one invalid byte each are folded to different ones. Both are read as the character
that stands for what is invalid, so that the code without folding finds them to be equal. -/
theorem fold_disagrees : ∃ c, sampleInvalid.isConstant = true ∧ sampleInvalid.fold = .ok (some c) ∧
    c.Stands (.bool false) ∧
    PushesValue (unfolded { mainClass := [] } sampleInvalid .value) .bool (.int 1) := by
  have hx : sampleInvalid.isConstant = true := by decide +kernel
  have heval : sampleInvalid.eval (fun _ => none) = some (.value (.bool true)) := by decide +kernel
  obtain ⟨c, hfold, hc⟩ := exists_fold (v := .bool false) hx (by decide +kernel)
  have hpushes : PushesValue (unfolded { mainClass := [] } sampleInvalid .value) c.type
      (Datum.bool true).val := by
    refine pushesValue (fun s => ?_) fun s locals => ?_
    · exact accepts_unfolded _ hx (Expr.unfoldedType_of_fold _ hx hfold).1
    · rw [← heval]
      exact gives_unfolded _ hx
  rw [hc.type_eq] at hpushes
  exact ⟨c, hx, hfold, hc, hpushes⟩

end Gen

end Classwright
