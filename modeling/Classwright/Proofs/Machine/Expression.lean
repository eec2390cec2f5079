import Classwright.Proofs.Body.Operations
import Classwright.Proofs.Machine.Conditions

/-!
What the code of expressions does. The code of an operator does what the operator means if that of its
operands does what they mean (`Gen.Gives`); so an expression of literals, operators and local variables
does what it means (`Gen.gives_expr`).
-/

namespace Classwright

open Machine

namespace Machine.Yield

/-- The opposite of a condition jumps where the condition does not. -/
theorem ofTest_not (l : Label) (jumpIf : Bool) (u : Option Result) :
    ofTest l jumpIf (u.bind UnaryOp.not.run) = ofTest l (!jumpIf) u := by
  rcases u with - | v | -
  · rfl
  · cases v with
    | bool x => cases x <;> cases jumpIf <;> rfl
    | _ => rfl
  · rfl

theorem ofResult_run (op : UnaryOp) (u : Option Result) :
    ofResult (u.bind op.run) = through u fun v => ofResult ((op.apply v).map .value) := by
  rcases u with - | v | - <;> rfl

end Machine.Yield

namespace Gen

open Result (Types)

/-! ### Code in the same scope -/

section
variable {tok : Token} {code left right : Mode → Gen Ty} {type leftType rightType : Gen Ty}

theorem plain_unary (op : UnaryOp) (htype : Plain type) (h : ∀ mode, Plain (code mode)) (mode : Mode) :
    Plain (unary tok op type code mode) := by
  refine plain_of_steady fun n => ?_
  let P := steadyPass { mainClass := [] } n
  have hcode (mode : Mode) : P.Holds 0 () (discard (code mode)) := P.discard (h mode).steady
  unfold unary
  split
  · exact (h _).steady
  · refine P.pushed (d := 0) (i := ()) trivial mode (P.andThen htype.steady fun t =>
      P.lift (Env.refused_unaryType (P := fun _ _ => True) trivial .not t) fun t _ => ?_)
    exact P.andThen (P.boolValue fun l _ => hcode _) fun _ => P.pure t
  · refine P.pushed (d := 0) (i := ()) trivial mode (P.andThen htype.steady fun xt =>
      P.lift (Env.refused_unaryType (P := fun _ _ => True) trivial _ xt) fun t _ => ?_)
    refine P.andThen (hcode _) fun _ => P.after (quiet_convert xt t) fun _ => ?_
    exact P.optional (P.quiet (quiet_op (ExprPass.shape_ineg t))) fun _ => P.pure t

theorem plain_condition (h : ∀ l jumpIf, Plain (jumping l jumpIf))
    (mode : Mode) : Plain (condition tok jumping mode) := by
  refine plain_of_steady fun n => ?_
  let P := steadyPass { mainClass := [] } n
  unfold condition
  split
  · exact P.andThen (h _ _).steady fun _ => P.pure (d := 0) (i := ()) Ty.bool
  · exact P.conditionValue (d := 0) (i := ()) trivial mode fun l _ => (h l false).steady

theorem plain_logical (isAnd : Bool) (hleft : ∀ mode, Plain (left mode))
    (hright : ∀ mode, Plain (right mode)) (mode : Mode) : Plain (logical tok isAnd left right mode) := by
  refine plain_condition (fun l jumpIf => plain_of_steady fun n => ?_) mode
  let P := steadyPass { mainClass := [] } n
  exact P.junction (d := 0) (i := ()) isAnd (fun _ _ _ => P.discard (hleft _).steady)
    (fun _ _ _ => P.discard (hright _).steady) l jumpIf

theorem plain_comparison (op : BinaryOp) (l r : Ty) {left right : Gen Unit} (hleft : Plain left)
    (hright : Plain right) (target : Label) (jumpIf : Bool) :
    Plain (comparison tok op l r left right target jumpIf) :=
  plain_of_steady fun n => (steadyPass { mainClass := [] } n).comparison (d := 0) (i := ()) hleft.steady
    hright.steady trivial op l r target jumpIf

theorem plain_operation (op : BinaryOp) (l r : Ty) {left right : Gen Unit} (hleft : Plain left)
    (hright : Plain right) (mode : Mode) : Plain (operation tok op l r left right mode) := by
  cases hop : op.isCondition with
  | true =>
    rw [operation_of_isCondition hop]
    exact plain_condition (plain_comparison op l r hleft hright) mode
  | false =>
    by_cases hrange : op = .range
    · subst hrange
      exact plain_refuse _ _
    · rw [operation_of_not_isCondition hop hrange]
      refine plain_of_steady fun n => ?_
      let P := steadyPass { mainClass := [] } n
      exact P.pushed (d := 0) (i := ()) trivial mode
        ((P.composes 0 ()).arith hleft.steady hright.steady trivial op l r)

theorem plain_binary (op : BinaryOp) (hleftType : Plain leftType) (hrightType : Plain rightType)
    (hleft : ∀ mode, Plain (left mode)) (hright : ∀ mode, Plain (right mode)) (mode : Mode) :
    Plain (binary tok op leftType rightType left right mode) := by
  have hdiscard {m : Gen Ty} (h : Plain m) : Plain (discard m) := (composes_plain { mainClass := [] }).discard h
  unfold binary
  split
  · exact plain_logical true hleft hright mode
  · exact plain_logical false hleft hright mode
  · exact hleftType.bind fun l => hrightType.bind fun r =>
      plain_operation op l r (hdiscard (hleft _)) (hdiscard (hright _)) mode

end

/-! ### What operators do -/

/-- Code does with a result what it is asked to. -/
structure Gives (s : Scopes) (locals : Locals) (code : Mode → Gen Ty) (r : Option Result) : Prop where
  plain (mode : Mode) : Plain (code mode)
  value (n : Nat) : Turns n s locals [] (code .value) (.ofResult r)
  jump {n : Nat} {l : Label} (hl : l < n) (jumpIf : Bool) :
    Turns n s locals [] (code (.jump l jumpIf)) (.ofTest l jumpIf r)

section
variable {s : Scopes} {locals : Locals} {tok : Token} {code left right : Mode → Gen Ty}
  {type leftType rightType : Gen Ty} {u w : Option Result}

theorem gives_constant (h : c.Stands v) :
    Gives s locals (constant tok c) (some (.value v)) where
  plain mode := plain_of_steady fun n =>
    (steadyPass { mainClass := [] } n).constant (d := 0) (i := ()) trivial c mode
  value _ := turns_constant h tok
  jump hl jumpIf := turns_constantJump h hl tok jumpIf

theorem turns_pushed (tok : Token) (h : Turns n s locals [] m y) :
    Turns n s locals [] (finish tok .value (pushed m)) y := by
  change Turns n s locals [] (pushed m true) y
  rw [pushed_true]
  exact h

/-- Nothing is asked of code for what has no result. -/
theorem gives_none (h : ∀ mode, Plain (code mode)) : Gives s locals code none :=
  ⟨h, fun _ => (h _).turns, fun _ _ => (h _).turns⟩

/-- A value that is pushed first. -/
theorem gives_finish (h : ∀ n, Turns n s locals [] m (.ofResult u)) :
    Gives s locals (fun mode => finish tok mode (pushed m)) u where
  plain mode := plain_of_steady fun n =>
    (steadyPass { mainClass := [] } n).pushed (d := 0) (i := ()) trivial mode (h 0).plain.steady
  value n := turns_pushed tok (h n)
  jump hl jumpIf := turns_finish (h _) hl tok jumpIf

/-- A condition that jumps. -/
theorem gives_condition
    (h : ∀ n l jumpIf, l < n → Turns n s locals [] (jumping l jumpIf) (.ofTest l jumpIf u))
    (hbool : ∀ v, u = some (.value v) → ∃ x, v = .bool x) :
    Gives s locals (condition tok jumping) u where
  plain := plain_condition fun l jumpIf => (h _ l jumpIf (Nat.lt_succ_self l)).plain
  value _ := turns_pushed tok ((turns_boolValue (fun l => (h _ l false (Nat.lt_succ_self l)).plain)
    (fun l _ => h _ l false (Nat.lt_succ_self l)) hbool).returns Ty.bool)
  jump hl jumpIf := (h _ _ jumpIf hl).returns Ty.bool

/-- A number is kept or negated. -/
theorem turns_sign {op : UnaryOp} (hop : op ≠ .not) (h : op.apply v = some d) :
    Turns n s locals [v.val] (do
      convert v.type d.type
      if op = .minus then Gen.op (Opcode.ineg.forNumber d.type)
      return d.type) (.leaves .next [d.val]) := by
  have hneg (i : Int32) : Turns n s locals [.int i] (Gen.op .ineg) (.leaves .next [.int (-i)]) :=
    turns_op rfl rfl rfl fun _ _ _ => rfl
  have hnegLong (i : Int64) : Turns n s locals [.long i] (Gen.op .lneg) (.leaves .next [.long (-i)]) :=
    turns_op rfl rfl rfl fun _ _ _ => rfl
  cases op with
  | not => exact absurd rfl hop
  | percent => cases v <;> cases h
  | plus =>
    have has : v.as? d.type = some d.val := by
      cases v <;> cases h <;> rfl
    exact (turns_convert has).returns _
  | minus =>
    cases v with
    | int i =>
      cases h
      exact (turns_convert (v := .int i) (t := .int) rfl).next fun _ => (hneg i).returns Ty.int
    | long i =>
      cases h
      exact (turns_convert (v := .long i) (t := .long) rfl).next fun _ => (hnegLong i).returns Ty.long
    | char i =>
      cases h
      exact (turns_convert (v := .char i) (t := .int) rfl).next fun _ => (hneg _).returns Ty.int
    | _ => cases h

/-- An operator that keeps or negates a number. -/
theorem turns_signed {op : UnaryOp} (hop : op ≠ .not) (h : Gives s locals code u)
    (htype : Reads s type (Types u)) : Turns n s locals [] (do
      let xt ← type
      let t ← Env.unaryType tok op xt
      discard (code .value)
      convert xt t
      if op = .minus then Gen.op (Opcode.ineg.forNumber t)
      return t) (.ofResult (u.bind op.run)) := by
  have hvalue := (h.value n).discard
  have hplain (xt t : Ty) : Plain (do
      convert xt t
      if op = .minus then Gen.op (Opcode.ineg.forNumber t)
      return t) :=
    (quiet_convert xt t).plain.bind fun _ =>
      ((quiet_op (ExprPass.shape_ineg t)).optional fun _ => quiet_pure t).plain
  rw [Yield.ofResult_run]
  refine .read htype (fun xt b => .bind (.lift fun t _ => ?_)) fun xt hxt => .lift fun t ht => ?_
  · exact (hvalue.plain.bind fun _ => hplain xt t) b
  · refine hvalue.value (fun _ => hplain xt t) fun v hv _ => ?_
    have happly := Env.type?_of_unaryType ht
    rw [← hxt.eq hv, op.type?_eq] at happly
    obtain ⟨d, hd, rfl⟩ := Option.map_eq_some_iff.1 happly
    rw [hd, ← hxt.eq hv]
    exact turns_sign hop hd

theorem Gives.unary (h : Gives s locals code u) (htype : Reads s type (Types u)) (op : UnaryOp) :
    Gives s locals (unary tok op type code) (u.bind op.run) := by
  cases op with
  | not =>
    have hbool (v : Datum) (hv : u.bind UnaryOp.not.run = some (.value v)) : ∃ x, v = .bool x := by
      rcases u with - | d | -
      · cases hv
      · cases d with
        | bool x =>
          cases hv
          exact ⟨_, rfl⟩
        | _ => cases hv
      · cases hv
    have hjump (l : Label) := (h.jump (Nat.lt_succ_self l) true).discard
    have hvalue (n : Nat) : Turns n s locals [] (boolValue fun isFalse =>
        discard (code (.jump isFalse true))) (.ofResult (u.bind UnaryOp.not.run)) := by
      refine turns_boolValue (fun l => (hjump l).plain) (fun l _ => ?_) hbool
      rw [Yield.ofTest_not]
      exact hjump l
    refine ⟨plain_unary .not htype.plain h.plain, fun n =>
      turns_pushed tok (.read htype (fun t b => .bind (.lift fun t' _ => ?_)) fun t _ =>
      .lift fun t' _ => (hvalue n).returns t'), fun hl jumpIf => ?_⟩
    · exact ((hvalue n).plain.bind fun _ => (quiet_pure t').plain) b
    · rw [Yield.ofTest_not]
      exact h.jump hl _
  | plus | minus | percent => exact gives_finish fun n => turns_signed nofun h htype

theorem Gives.logical (hleft : Gives s locals left u) (hright : Gives s locals right w) (isAnd : Bool) :
    Gives s locals (logical tok isAnd left right) (Result.junction isAnd u w) := by
  have hplain {code : Mode → Gen Ty} {r : Option Result} (h : Gives s locals code r) (l : Label)
      (jumpIf : Bool) : Plain (discard (code (.jump l jumpIf))) :=
    (composes_plain { mainClass := [] }).discard (h.plain _)
  refine gives_condition (fun n l jumpIf hl => ?_) fun v hv => Result.exists_bool_of_junction hv
  exact turns_junction (hplain hleft) (hplain hright) (fun _ _ _ hl => (hleft.jump hl _).discard)
    (fun _ _ _ hl => (hright.jump hl _).discard) isAnd hl jumpIf

/-- Operators that are not logical. -/
theorem gives_operation (tok : Token) {op : BinaryOp} {left right : Gen Unit}
    (hop : op.arith?.isSome = true ∨ op.order?.isSome = true)
    (hleft : ∀ n, Turns n s locals [] left (.ofResult u))
    (hright : ∀ n, Turns n s locals [] right (.ofResult w)) (hl : Types u l) (hr : Types w r) :
    Gives s locals (operation tok op l r left right)
      (Result.andThen u fun v => Result.andThen w fun v' => op.apply v v') := by
  rcases hop with hop | hop
  · obtain ⟨k, hk⟩ := Option.isSome_iff_exists.1 hop
    have hrange : op ≠ .range := by
      rintro rfl
      cases hk
    have hcond : op.isCondition = false := by cases op <;> first | rfl | cases hk
    rw [operation_of_not_isCondition hcond hrange]
    exact gives_finish fun n => turns_arith tok hk (hleft n) (hright n) hl hr
  · obtain ⟨o, ho⟩ := Option.isSome_iff_exists.1 hop
    have hcond : op.isCondition = true := by cases op <;> first | rfl | cases ho
    rw [operation_of_isCondition hcond]
    refine gives_condition (fun n l' jumpIf hl' => ?_) fun v hv => ?_
    · exact turns_comparison tok ho hl' (hleft n) (hright n) hl hr jumpIf
    · rcases u with - | a | -
      · cases hv
      · rcases w with - | b | -
        · cases hv
        · exact BinaryOp.exists_bool_of_order? ho hv
        · cases hv
      · cases hv

theorem Gives.binary (hleft : Gives s locals left u) (hright : Gives s locals right w)
    (hl : Reads s leftType (Types u)) (hr : Reads s rightType (Types w)) (op : BinaryOp)
    (hpow : op ≠ .pow) : Gives s locals (binary tok op leftType rightType left right)
      (u.bind fun u => w.bind fun w => op.run u w) := by
  have hplain : ∀ mode, Plain (Gen.binary tok op leftType rightType left right mode) :=
    plain_binary op hl.plain hr.plain hleft.plain hright.plain
  have hoperation (hop : op.arith?.isSome = true ∨ op.order?.isSome = true) :
      Gives s locals (fun mode => do
        let l ← leftType
        let r ← rightType
        operation tok op l r (discard (left .value)) (discard (right .value)) mode)
      (Result.andThen u fun v => Result.andThen w fun v' => op.apply v v') := by
    have hgives {l r : Ty} (hl : Types u l) (hr : Types w r) :=
      gives_operation tok hop (fun n => (hleft.value n).discard) (fun n => (hright.value n).discard) hl hr
    have hplain (mode : Mode) (l r : Ty) :
        Plain (operation tok op l r (discard (left .value)) (discard (right .value)) mode) :=
      plain_operation op l r (hleft.value 0).discard.plain (hright.value 0).discard.plain mode
    have hread (mode : Mode) (l : Ty) := hr.plain.bind (hplain mode l)
    refine ⟨fun mode => hl.plain.bind (hread mode),
      fun n => .read hl (hread _) fun l hl => .read hr (hplain _ l) fun r hr => ?_,
      fun hlt jumpIf => .read hl (hread _) fun l hl => .read hr (hplain _ l) fun r hr => ?_⟩
    · exact (hgives hl hr).value n
    · exact (hgives hl hr).jump hlt jumpIf
  cases u with
  | none => exact gives_none hplain
  | some u =>
    cases w with
    | none => exact gives_none hplain
    | some w =>
      cases op with
      | and => exact hleft.logical hright true
      | or => exact hleft.logical hright false
      | pow => exact absurd rfl hpow
      | range => exact gives_none hplain
      | eq | ne | lt | le | gt | ge => exact hoperation (.inr rfl)
      | _ => exact hoperation (.inl rfl)

end

end Gen

/-! ### Expressions -/

/-- Variables that have values are local and hold them. -/
def Scopes.Holds (s : Scopes) (locals : Locals) (ρ : Text → Option Datum) : Prop :=
  ∀ name d, ρ name = some d → ∃ v, s.lookup? name = some v ∧ v.kind = .local ∧ v.type = d.type ∧
    locals v.slot = some d.val

theorem Scopes.Holds.fits {s : Scopes}
    (h : s.Holds locals ρ) : s.Fits ρ := by
  intro name d v hd hv
  obtain ⟨v', hv', -, htype, -⟩ := h name d hd
  cases hv.symm.trans hv'
  exact htype

theorem Expr.targets_eq_nil (x : Expr) (hx : x.IsPlain ρ) :
    x.targets = [] := by
  match x with
  | literal _ | ident .. => rw [targets]
  | unary _ _ x => rw [targets, targets_eq_nil x hx]
  | binary _ _ x y => rw [targets, targets_eq_nil x hx.2.1, targets_eq_nil y hx.2.2, List.append_nil]
  | step .. | assign .. | call .. | property .. | construct .. | list .. => exact hx.elim

namespace Gen

open Result (Types)

section
variable {env : Env} {s : Scopes} {locals : Locals} {ρ : Text → Option Datum}

/-- A variable is loaded from its slot. -/
theorem turns_load {d : Datum} (hkind : v.kind = .local) (htype : v.type = d.type)
    (hlocal : locals v.slot = some d.val) (tok : Token) :
    Turns n s locals [] (load env tok v) (.leaves .next [d.val]) := by
  have hfamily : d.val.family = (Opcode.iload.forType d.type).family := by cases d <;> rfl
  have hterm : (Opcode.iload.forType d.type).isTerminal = false := by cases d <;> rfl
  have hload : Opcode.between .istore .astore (Opcode.iload.forType d.type) = false := by cases d <;> rfl
  rw [load, hkind, htype]
  refine turns_emit (i := ⟨Opcode.iload.forType d.type, .slot v.slot⟩)
    ⟨Instr.isModest_of_effect rfl rfl, hterm, fun C k st heap => ?_⟩ fun _ => rfl
  change Machine.access _ v.slot _ = _
  rw [Machine.access, hload, if_neg Bool.false_ne_true]
  dsimp only
  rw [hlocal]
  dsimp only
  rw [if_pos hfamily]
  rfl

theorem gives_ident (hs : s.Holds locals ρ) (hd : ρ name = some d)
    (tok : Token) : Gives s locals (expr env (.ident tok name)) (some (.value d)) := by
  obtain ⟨v, hv, hkind, htype, hlocal⟩ := hs name d hd
  have hplain (v : Var) : Plain (load env tok v >>= fun _ => pure v.type) :=
    ((composes_plain env).load trivial fun _ => plain_emit (Instr.isModest_of_effect rfl rfl)).bind
      fun _ => (quiet_pure _).plain
  have hload (n : Nat) : Turns n s locals [] (do
      let v ← Env.variable_ (← get).scopes tok name
      load env tok v
      return v.type) (.leaves .next [d.val]) := by
    refine ⟨fun b => .bind (.of_eq rfl (.bind (.lift fun v _ => hplain v b))), fun b hb hn =>
      .bind (.of_eq rfl (.bind (.lift fun v' hv' => ?_)))⟩
    rw [hb] at hv'
    cases hv.symm.trans (ExprPass.lookup?_of_variable hv')
    exact ((turns_load hkind htype hlocal tok).returns v.type).yields b hb hn
  rw [expr_ident]
  exact gives_finish hload

/-- The code of an expression does what the expression means. -/
theorem gives_expr (hs : s.Holds locals ρ) (x : Expr) (hx : x.IsPlain ρ) :
    Gives s locals (expr env x) (x.eval ρ) := by
  have hplain : ∀ mode, Plain (expr env x mode) := plain_expr (x.targets_eq_nil hx)
  have htype {x : Expr} (hx : x.IsPlain ρ) : Reads s (typeOf env x) (Types (x.eval ρ)) :=
    (reads_typeOf env x).mono fun t ht => by
      obtain ⟨r, hr, hrt⟩ := x.exists_eval hs.fits hx ht
      rw [hr]
      exact hrt
  cases hfold : Env.fold x with
  | error e =>
    have herror (mode : Mode) (b : Body) : expr env x mode b = .error e := by
      rw [expr.eq_def, hfold]
      rfl
    exact ⟨hplain, fun n => ⟨hplain _, fun b _ _ => .of_error (herror _ b)⟩,
      fun _ jumpIf => ⟨hplain _, fun b _ _ => .of_error (herror _ b)⟩⟩
  | ok c =>
    cases c with
    | some c =>
      obtain ⟨v, hv, hstands, -⟩ := x.eval_of_fold hx (Env.fold_eq_ok_iff.1 hfold)
      rw [hv, funext (expr_of_constant hfold)]
      exact gives_constant hstands
    | none =>
      cases x with
      | literal tok => exact (Expr.fold_literal_ne (Env.fold_eq_ok_iff.1 hfold)).elim
      | ident tok name =>
        obtain ⟨d, hd⟩ := Option.isSome_iff_exists.1 hx
        rw [Expr.eval, hd]
        exact gives_ident hs hd tok
      | unary tok op x =>
        rw [expr_unary hfold]
        exact (gives_expr hs x hx).unary (htype hx) op
      | binary tok op x y =>
        obtain ⟨hpow, hx, hy⟩ := hx
        by_cases hrange : op = .range
        · subst hrange
          rw [Expr.eval_range]
          exact gives_none hplain
        · rw [expr_binary_eq hrange hfold]
          exact (gives_expr hs x hx).binary (gives_expr hs y hy) (htype hx) (htype hy) op hpow
      | _ => exact hx.elim

theorem accepts_ident (hs : s.Holds locals ρ) (hd : ρ name = some d)
    (tok : Token) : Accepts s (expr env (.ident tok name)) d.type := by
  obtain ⟨v, hv, hkind, htype, -⟩ := hs name d hd
  have hload : Works s (do
      let v ← Env.variable_ (← get).scopes tok name
      load env tok v
      return v.type) (· = d.type) := by
    refine works_get fun b hb => ?_
    have hvar : Env.variable_ b.scopes tok name = .ok v := by rw [Env.variable_, hb, hv]
    refine (works_lift hvar).bind fun v' hv' => ?_
    subst hv'
    rw [load, hkind]
    exact (works_edit _).returns htype
  rw [expr_ident]
  exact accepts_finish hload

theorem accepts_of_fold (hfold : Env.fold x = .ok (some c)) :
    Accepts s (expr env x) c.type := by
  rw [funext (expr_of_constant hfold)]
  exact accepts_constant (Expr.isTyped_fold (Env.fold_eq_ok_iff.1 hfold))

/-- There is code for an expression that has a type. -/
theorem accepts_expr (hs : s.Holds locals ρ) {t : Ty} (x : Expr) (hx : x.IsPlain ρ)
    (ht : env.typeOf s x = .ok t) : Accepts s (expr env x) t := by
  obtain ⟨c, hfold⟩ := Env.fold_of_typeOf ht
  cases c with
  | some c =>
    rw [Env.typeOf_of_constant hfold] at ht
    cases ht
    exact accepts_of_fold hfold
  | none =>
    match x with
    | .literal tok => exact (Expr.fold_literal_ne (Env.fold_eq_ok_iff.1 hfold)).elim
    | .ident tok name =>
      obtain ⟨d, hd⟩ := Option.isSome_iff_exists.1 hx
      obtain ⟨v, hv, rfl⟩ := Env.lookup?_of_typeOf ht
      rw [hs.fits name d v hd hv]
      exact accepts_ident hs hd tok
    | .unary tok op x =>
      obtain ⟨l, hl, ht⟩ := Env.type?_of_typeOf_unary hfold ht
      rw [expr_unary hfold]
      exact (accepts_expr hs x hx hl).unary (works_typeOf hl) ht
    | .binary tok op x y =>
      obtain ⟨l, r, hl, hr, ht⟩ := Env.type?_of_typeOf_binary hfold ht
      have hrange : op ≠ .range := by
        rintro rfl
        cases ht
      rw [expr_binary_eq hrange hfold]
      exact (accepts_expr hs x hx.2.1 hl).binary (accepts_expr hs y hx.2.2 hr) (works_typeOf hl)
        (works_typeOf hr) ht
    | .step .. | .assign .. | .call .. | .property .. | .construct .. | .list .. => exact hx.elim

/-! ### Conditions -/

/-- There is code for a condition on whole numbers, which has a value unless it divides by zero. In all
code that goes on from there, it goes to the label if the value is the given one and on to what follows
otherwise, and leaves the stack as it was. The second part of "and" and "or" does not count where the
first one decides. -/
theorem condition_jumps {x : Expr} {b : Body} {target : Label}
    (hx : x.isBasic (fun name => (ρ name).isSome) = true) (hs : b.scopes.Holds locals ρ)
    (ht : env.typeOf b.scopes x = .ok .bool) (htarget : target < b.code.marks.size) (jumpIf : Bool) :
    ∃ b', expr env x (.jump target jumpIf) b = .ok (.bool, b') ∧
      ((∃ c, x.eval ρ = some (.value (.bool c))) ∨ x.eval ρ = some .zeroDivision) ∧
      (∀ C st heap, b'.code.Extends C →
        (∀ k, x.eval ρ = some (.value (.bool jumpIf)) → C.labelIndex? target = some k → ∃ heap',
          heap <+: heap' ∧ Steps C ⟨b.code.instrs.size, st, locals, heap⟩ ⟨k, st, locals, heap'⟩) ∧
        (x.eval ρ = some (.value (.bool !jumpIf)) → ∃ heap', heap <+: heap' ∧
          Steps C ⟨b.code.instrs.size, st, locals, heap⟩ ⟨b'.code.instrs.size, st, locals, heap'⟩) ∧
        (x.eval ρ = some .zeroDivision →
          Machine.Ends C ⟨b.code.instrs.size, st, locals, heap⟩ .zeroDivision)) ∧
      ∀ tok isAnd y z, x = .binary tok (if isAnd then .and else .or) y z →
        y.eval ρ = some (.value (.bool !isAnd)) → x.eval ρ = some (.value (.bool !isAnd)) := by
  have hplain := x.isPlain_of_isBasic hx
  obtain ⟨r, hr, hbool⟩ := x.exists_eval hs.fits hplain ht
  obtain ⟨_, b', hcode, -, rfl⟩ := (accepts_expr hs x hplain ht).jump rfl target jumpIf b rfl
  have hyields := ((gives_expr hs x hplain).jump htarget jumpIf).yields b rfl (Nat.le_refl _) _ b' hcode
  rw [hr] at hyields ⊢
  refine ⟨b', hcode, ?_, fun C st heap hC => ⟨fun k hk hplace => ?_, fun hk => ?_, fun hk => ?_⟩, ?_⟩
  · cases r with
    | value v =>
      obtain ⟨c, rfl⟩ := hbool.exists_bool
      exact .inl ⟨c, rfl⟩
    | zeroDivision => exact .inr rfl
  · cases hk
    obtain ⟨heap', hheap, hgoes⟩ := hyields st heap
    rw [if_pos rfl] at hgoes
    exact ⟨heap', hheap, hgoes.steps hC hplace⟩
  · cases hk
    obtain ⟨heap', hheap, hgoes⟩ := hyields st heap
    rw [if_neg (by cases jumpIf <;> nofun)] at hgoes
    exact ⟨heap', hheap, hgoes.steps hC rfl⟩
  · cases hk
    exact hyields st heap C hC
  · rintro tok isAnd y z rfl hy
    rw [Expr.eq_of_decided hr hy]

end

/-- A method with a variable `n`, where a label is made. -/
def sampleStart : Body where
  scopes := ⟨[[{ name := "n", kind := .local, type := .int }]], some { isStatic := true, result := none }⟩
  code := Code.newLabel {} |>.2

/-- The condition `n == 0 || 1 / n < 2`. -/
def sampleGuard : Expr :=
  let literal (digits : Text) := Expr.literal { Token.nowhere with kind := .int, text := digits }
  let n := Expr.ident Token.nowhere "n"
  .binary Token.nowhere .or (.binary Token.nowhere .eq n (literal "0"))
    (.binary Token.nowhere .lt (.binary Token.nowhere .div (literal "1") n) (literal "2"))

/-- Where `n` is zero, the division that follows is not done. -/
theorem condition_jumps_sampleGuard : ∃ b',
    expr { mainClass := [] } sampleGuard (.jump 0 true) sampleStart = .ok (.bool, b') ∧
      ∀ C k st heap, b'.code.Extends C → C.labelIndex? 0 = some k →
        ∃ heap', Steps C ⟨0, st, fun _ => some (.int 0), heap⟩ ⟨k, st, fun _ => some (.int 0), heap'⟩ := by
  let ρ : Text → Option Datum := fun name => if name = "n" then some (.int 0) else none
  have hx : sampleGuard.isBasic (fun name => (ρ name).isSome) = true := by decide +kernel
  have hs : sampleStart.scopes.Holds (fun _ => some (.int 0)) ρ := by
    intro name d hd
    by_cases hname : name = "n"
    · subst hname
      cases hd
      exact ⟨_, rfl, rfl, rfl, rfl⟩
    · rw [show ρ name = none from if_neg hname] at hd
      cases hd
  have ht : ((Env.typeOf { mainClass := [] } sampleStart.scopes sampleGuard).toOption.any (·.isBool)) =
      true := by decide +kernel
  obtain ⟨t, ht, hbool⟩ := (Option.any_eq_true _ _).1 ht
  cases Ty.eq_bool_of_isBool hbool
  have heval : sampleGuard.eval ρ = some (.value (.bool true)) := by decide +kernel
  obtain ⟨b', hcode, -, hsteps, -⟩ := condition_jumps hx hs (of_toOption ht) (by decide : 0 < 1) true
  refine ⟨b', hcode, fun C k st heap hC hk => ?_⟩
  obtain ⟨heap', -, h⟩ := (hsteps C st heap hC).1 k heval hk
  exact ⟨heap', h⟩

end Gen

end Classwright
