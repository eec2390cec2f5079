import Classwright.Proofs.Body.OperandTypes
import Classwright.Proofs.Body.Operators

/-!
The code of operators, put together from that of their operands. What has a type is written: if an
operator has a type for its operands, there is code for it where there is code for them
(`Gen.Accepts`).
-/

namespace Classwright

/-- Texts are made from values of these types. -/
theorem Ty.textType_cases (t : Ty) : t.textType = .int ∨ t.textType = .long ∨ t.textType = .char ∨
    t.textType = .bool ∨ t.textType = .prim .float ∨ t.textType = .double ∨ t.textType = .string ∨
    t.textType = .object := by
  have hrest (t : Ty) : (if t.isString then string else object) = string ∨
      (if t.isString then string else object) = object := by
    split
    · exact .inl rfl
    · exact .inr rfl
  cases t with
  | prim p => cases p <;> simp [textType, int, long, char, bool, double]
  | _ => exact .inr (.inr (.inr (.inr (.inr (.inr (hrest _))))))

namespace Gen

/-! ### Operators and the code of their operands -/

/-- The code of an operator, given the type of its operand and its code. -/
def unary (tok : Token) (op : UnaryOp) (type : Gen Ty) (code : Mode → Gen Ty) (mode : Mode) : Gen Ty :=
  match op, mode with
  | .not, .jump target jumpIf => code (.jump target !jumpIf)
  | .not, _ =>
    finish tok mode (pushed do
      let t ← Env.unaryType tok op (← type)
      boolValue fun isFalse => discard (code (.jump isFalse true))
      return t)
  | _, _ =>
    finish tok mode (pushed do
      let xt ← type
      let t ← Env.unaryType tok op xt
      discard (code .value)
      convert xt t
      if op = .minus then Gen.op (Opcode.ineg.forNumber t)
      return t)

/-- The code of a condition, given code that jumps on it. -/
def condition (tok : Token) (jumping : Label → Bool → Gen Unit) (mode : Mode) : Gen Ty :=
  match mode with
  | .jump target jumpIf => do
    jumping target jumpIf
    return .bool
  | _ => finish tok mode (pushed do
    boolValue fun isFalse => jumping isFalse false
    return .bool)

/-- The code of two conditions that are joined. -/
def logical (tok : Token) (isAnd : Bool) (left right : Mode → Gen Ty) : Mode → Gen Ty :=
  condition tok (junction isAnd (fun target jumpIf => discard (left (.jump target jumpIf)))
    (fun target jumpIf => discard (right (.jump target jumpIf))))

/-- The code of an operator, given the types of its operands and their code. -/
def binary (tok : Token) (op : BinaryOp) (leftType rightType : Gen Ty) (left right : Mode → Gen Ty)
    (mode : Mode) : Gen Ty :=
  match op with
  | .and => logical tok true left right mode
  | .or => logical tok false left right mode
  | _ => do
    let l ← leftType
    let r ← rightType
    operation tok op l r (discard (left .value)) (discard (right .value)) mode

section
variable {env : Env} {tok : Token} {x y : Expr}

theorem operation_of_isCondition {op : BinaryOp} (hop : op.isCondition = true) (l r : Ty)
    (left right : Gen Unit) :
    operation tok op l r left right = condition tok (comparison tok op l r left right) := by
  funext mode
  cases mode <;> exact if_pos hop

theorem operation_of_not_isCondition {op : BinaryOp} (hop : op.isCondition = false) (hrange : op ≠ .range)
    (l r : Ty) (left right : Gen Unit) : operation tok op l r left right =
      fun mode => finish tok mode (pushed (arith tok op l r left right)) := by
  funext mode
  have hcond : ¬ op.isCondition = true := by rw [hop]; exact Bool.false_ne_true
  cases mode <;> exact (if_neg hcond).trans (if_neg hrange)

theorem expr_ident : expr env (.ident tok name) = fun mode => finish tok mode (pushed do
      let v ← Env.variable_ (← get).scopes tok name
      load env tok v
      return v.type) := by
  funext mode
  rw [expr.eq_def]
  rfl

theorem expr_unary {op : UnaryOp} (hfold : Env.fold (.unary tok op x) = .ok none) :
    expr env (.unary tok op x) = unary tok op (typeOf env x) (expr env x) := by
  funext mode
  rw [expr.eq_def, hfold]
  rfl

theorem expr_binary_eq {op : BinaryOp} (hrange : op ≠ .range)
    (hfold : Env.fold (.binary tok op x y) = .ok none) :
    expr env (.binary tok op x y) =
      binary tok op (typeOf env x) (typeOf env y) (expr env x) (expr env y) := by
  funext mode
  have hlogical (h : op = .and ∨ op = .or) : expr env (.binary tok op x y) mode =
      binary tok op (typeOf env x) (typeOf env y) (expr env x) (expr env y) mode := by
    rcases h with rfl | rfl <;> rw [expr.eq_def, hfold] <;> rfl
  cases op with
  | and => exact hlogical (.inl rfl)
  | or => exact hlogical (.inr rfl)
  | range => exact absurd rfl hrange
  | _ => exact expr_binary (by decide) (by decide) (by decide) hfold

end

/-! ### Actions that succeed -/

/-- An action succeeds in a scope and keeps it. -/
def Works (s : Scopes) (m : Gen α) (P : α → Prop) : Prop :=
  ∀ b, b.scopes = s → ∃ a b', m b = .ok (a, b') ∧ b'.scopes = s ∧ P a

section
variable {s : Scopes} {α β : Type} {m : Gen α} {f : α → Gen β} {P : α → Prop} {Q : β → Prop}

theorem Works.bind (h : Works s m P) (hf : ∀ a, P a → Works s (f a) Q) : Works s (m >>= f) Q := by
  intro b hb
  obtain ⟨a, b₁, hm, hb₁, ha⟩ := h b hb
  obtain ⟨c, b₂, hm', hb₂, hc⟩ := hf a ha b₁ hb₁
  refine ⟨c, b₂, ?_, hb₂, hc⟩
  change (m b >>= fun r => f r.1 r.2) = _
  rw [hm]
  exact hm'

theorem works_pure (h : P a) : Works s (pure a) P := fun b hb => ⟨a, b, rfl, hb, h⟩

theorem Works.returns (h : Works s m P) (hc : Q c) : Works s (m >>= fun _ => pure c) Q :=
  h.bind fun _ _ => works_pure hc

theorem Works.discard (h : Works s m P) : Works s (Functor.discard m) fun _ => True :=
  h.bind fun _ _ => works_pure trivial

theorem works_edit (f : Code → Code) : Works s (edit f) fun _ => True :=
  fun b hb => ⟨(), { b with code := f b.code }, rfl, hb, trivial⟩

theorem works_get {f : Body → Gen β} (h : ∀ b, b.scopes = s → Works s (f b) Q) :
    Works s (get >>= f) Q :=
  fun b hb => h b hb b hb

theorem works_newLabel : Works s newLabel fun _ => True := fun _ hb => ⟨_, _, rfl, hb, trivial⟩

theorem works_lift {x : Compiled α} (h : x = .ok a) : Works s (liftM x) (· = a) := by
  subst h
  exact fun b hb => ⟨a, b, rfl, hb, rfl⟩

theorem works_typeOf (h : env.typeOf s x = .ok t) :
    Works s (typeOf env x) (· = t) :=
  fun b hb => ⟨t, b, typeOf_of_eq (hb ▸ h), hb, rfl⟩

theorem works_invoke {op : Opcode}
    (hop : op = .invokestatic ∨ op = .invokevirtual ∨ op = .invokespecial)
    (hdesc : (Signature.ofDescriptor desc).toOption.isSome = true) :
    Works s (invoke op cls name desc) fun _ => True := by
  intro b hb
  have hcode : ∃ c, b.code.invoke op { cls := cls, name := name, desc := desc } = .ok c := by
    obtain ⟨sig, hsig⟩ := Option.isSome_iff_exists.1 hdesc
    rw [Code.invoke, of_toOption hsig]
    rcases hop with rfl | rfl | rfl <;> exact ⟨_, rfl⟩
  obtain ⟨c, hc⟩ := hcode
  refine ⟨(), { b with code := c }, ?_, hb, trivial⟩
  rw [invoke, access, hc]

end

section
variable {s : Scopes} {l r t : Ty} {left right : Gen Unit} {tok : Token}

theorem works_convertPrim (p q : Prim) : Works s (convertPrim p q false) fun _ => True := by
  unfold convertPrim
  split
  · exact works_pure trivial
  · dsimp only
    split
    · exact (works_edit _).bind fun _ _ => works_pure trivial
    · exact works_pure trivial

theorem works_convert_prim (p : Prim) (hq : (Ty.prim q).isVoid = false) :
    Works s (convert (.prim p) (.prim q)) fun _ => True := by
  have hq : q ≠ .void := by
    rintro rfl
    cases hq
  rw [convert_prim p q hq]
  exact works_convertPrim p q

theorem works_convert_cls (ht : t.isReference = true) (name : Text) :
    Works s (convert t (.cls name)) fun _ => True := by
  rw [convert_cls ht]
  exact works_pure trivial

/-! ### Operators -/

section
variable (hleft : Works s left fun _ => True) (hright : Works s right fun _ => True)
include hleft hright

theorem works_operands (hl : Works s (convert l t) fun _ => True)
    (hr : Works s (convert r t) fun _ => True) : Works s (operands l r t left right) fun _ => True :=
  hleft.bind fun _ _ => hl.bind fun _ _ => hright.bind fun _ _ => hr

theorem works_concat : Works s (concat l r left right) fun _ => True := by
  have hvalueOf : Works s (invoke .invokestatic "java/lang/String" "valueOf"
      ("(" ++ (if l.isString then Ty.object.descriptor else l.textDescriptor) ++ ")" ++
        Ty.string.descriptor)) fun _ => True := by
    refine works_invoke (.inl rfl) ?_
    split
    · decide +kernel
    · rw [l.textDescriptor_eq]
      rcases l.textType_cases with ht | ht | ht | ht | ht | ht | ht | ht <;> rw [ht] <;> decide +kernel
  have happend : Works s (invoke .invokevirtual stringBuilder "append"
      ("(" ++ r.textDescriptor ++ ")" ++ (Ty.cls stringBuilder).descriptor)) fun _ => True := by
    refine works_invoke (.inr (.inl rfl)) ?_
    rw [r.textDescriptor_eq]
    rcases r.textType_cases with ht | ht | ht | ht | ht | ht | ht | ht <;> rw [ht] <;> decide +kernel
  refine hleft.bind fun _ _ => hvalueOf.bind fun _ _ => (works_edit _).bind fun _ _ => ?_
  refine (works_edit _).bind fun _ _ => (works_edit _).bind fun _ _ => ?_
  refine (works_invoke (.inr (.inr rfl)) (by decide +kernel)).bind fun _ _ => ?_
  refine hright.bind fun _ _ => happend.bind fun _ _ => ?_
  exact works_invoke (.inr (.inl rfl)) (by decide +kernel)

theorem works_arith {op : BinaryOp} (hop : op.isArithmetic = true) (ht : op.type? l r = some t) :
    Works s (arith tok op l r left right) (· = t) := by
  refine (works_lift (Env.binaryType_of_type? ht)).bind fun t' ht' => ?_
  subst ht'
  rcases BinaryOp.cases_of_type? hop ht with ⟨rfl, rfl, -, -⟩ | ⟨-, -, hu, -, -⟩
  · rw [if_pos (by simp [Ty.isString, Ty.string, Ty.same])]
    exact (works_concat hleft hright).returns rfl
  · rw [if_neg (by simp [Ty.isString, Ty.string, Ty.same])]
    refine (works_operands hleft hright (works_convert_prim _ hu) (works_convert_prim _ hu)).bind
      fun _ _ => ?_
    split
    · exact (works_invoke (.inl rfl) (by decide +kernel)).returns rfl
    · exact (works_edit _).returns rfl

theorem works_comparison {op : BinaryOp} (hop : op.isComparison = true) (ht : op.type? l r = some t)
    (target : Label) (jumpIf : Bool) :
    Works s (comparison tok op l r left right target jumpIf) fun _ => True := by
  have hcompared : Works s (compared tok op l r left right jumpIf) fun _ => True := by
    refine (works_lift (Env.binaryType_of_type? ht)).bind fun _ _ => ?_
    cases hp : l.promote? r with
    | some p =>
      obtain ⟨q, q', rfl, rfl, hq⟩ := Ty.eq_prim_of_promote? hp
      obtain ⟨-, -, hvoid⟩ := Ty.isVoid_of_promote hq
      refine (works_operands hleft hright (works_convert_prim q hvoid)
        (works_convert_prim q' hvoid)).bind fun _ _ => ?_
      split
      · exact (works_edit _).returns trivial
      · split
        · exact (works_edit _).returns trivial
        · exact works_pure trivial
    | none =>
      dsimp only
      split
      · next hbools =>
        simp only [Bool.and_eq_true] at hbools
        cases Ty.eq_bool_of_isBool hbools.1.2
        cases Ty.eq_bool_of_isBool hbools.2
        exact (works_operands hleft hright (works_convert_prim _ rfl) (works_convert_prim _ rfl)).returns
          trivial
      · next hbools =>
        obtain ⟨hl, hr⟩ := BinaryOp.references_of_type? hop ht hp hbools
        refine (works_operands hleft hright (works_convert_cls hl _) (works_convert_cls hr _)).bind
          fun _ _ => ?_
        exact (works_invoke (.inl rfl) (by decide +kernel)).returns trivial
  rw [comparison_eq]
  exact hcompared.bind fun _ _ => works_edit _

end

/-! ### Code for what has a type -/

theorem works_boolValue (h : ∀ l, Works s (jumpFalse l) fun _ => True) :
    Works s (boolValue jumpFalse) fun _ => True :=
  works_newLabel.bind fun isFalse _ => works_newLabel.bind fun _ _ => (h isFalse).bind fun _ _ =>
    (works_edit _).bind fun _ _ => (works_edit _).bind fun _ _ => (works_edit _).bind fun _ _ =>
      (works_edit _).bind fun _ _ => works_edit _

theorem works_junction {left right : Label → Bool → Gen Unit}
    (hleft : ∀ l jumpIf, Works s (left l jumpIf) fun _ => True)
    (hright : ∀ l jumpIf, Works s (right l jumpIf) fun _ => True) (isAnd : Bool) (target : Label)
    (jumpIf : Bool) : Works s (junction isAnd left right target jumpIf) fun _ => True := by
  unfold junction
  split
  · exact works_newLabel.bind fun skip _ => (hleft skip _).bind fun _ _ =>
      (hright target _).bind fun _ _ => works_edit _
  · exact (hleft target _).bind fun _ _ => hright target _

/-- There is code for a value of a type, and for a jump on it if it is a condition. -/
structure Accepts (s : Scopes) (code : Mode → Gen Ty) (t : Ty) : Prop where
  value : Works s (code .value) (· = t)
  jump : t = .bool → ∀ l jumpIf, Works s (code (.jump l jumpIf)) (· = t)

section
variable {code left right : Mode → Gen Ty} {type leftType rightType : Gen Ty}

theorem works_pushed (tok : Token) (h : Works s m (· = t)) :
    Works s (finish tok .value (pushed m)) (· = t) :=
  h.bind fun _ ht => works_pure ht

theorem accepts_finish (h : Works s m (· = t)) :
    Accepts s (fun mode => finish tok mode (pushed m)) t := by
  refine ⟨works_pushed tok h, fun ht l jumpIf => (works_pushed tok h).bind fun t' ht' => ?_⟩
  subst ht'
  cases ht
  exact Works.returns (works_edit (·.jump (if jumpIf then .ifne else .ifeq) l)) rfl

theorem accepts_condition
    (h : ∀ l jumpIf, Works s (jumping l jumpIf) fun _ => True) :
    Accepts s (condition tok jumping) .bool :=
  ⟨works_pushed tok ((works_boolValue fun l => h l false).returns rfl),
    fun _ l jumpIf => (h l jumpIf).returns rfl⟩

theorem accepts_constant (hc : c.IsTyped) : Accepts s (constant tok c) c.type := by
  refine ⟨(works_edit _).returns rfl, fun ht l jumpIf => ?_⟩
  obtain ⟨t, v⟩ := c
  cases ht
  cases v with
  | bool b =>
    by_cases hb : b = jumpIf
    · subst hb
      change Works s (if b = b then _ else _) _
      rw [if_pos rfl]
      exact (works_edit _).returns rfl
    · change Works s (if b = jumpIf then _ else _) _
      rw [if_neg hb]
      exact works_pure rfl
  | int i => rcases hc with ⟨h, -⟩ | ⟨h, -⟩ | h <;> cases h
  | float x => rcases hc with h | h <;> cases h
  | _ => cases hc

theorem Accepts.unary (h : Accepts s code l) (htype : Works s type (· = l)) {op : UnaryOp}
    (ht : op.type? l = some t) : Accepts s (unary tok op type code) t := by
  have hunary : Works s (liftM (Env.unaryType tok op l) : Gen Ty) (· = t) :=
    works_lift (Env.unaryType_of_type? ht)
  have hsigned (p : Prim) (hp : l.promote? l = some p) (htp : t = .prim p) : Works s (do
      let xt ← type
      let t ← Env.unaryType tok op xt
      discard (code .value)
      convert xt t
      if op = .minus then Gen.op (Opcode.ineg.forNumber t)
      return t) (· = t) := by
    obtain ⟨q, q', rfl, hq', hq⟩ := Ty.eq_prim_of_promote? hp
    cases hq'
    subst htp
    refine htype.bind fun xt hxt => ?_
    subst hxt
    refine hunary.bind fun t' ht' => ?_
    subst ht'
    refine h.value.discard.bind fun _ _ => ?_
    refine (works_convert_prim q (Ty.isVoid_of_promote hq).2.2).bind fun _ _ => ?_
    split
    · exact (works_edit _).returns rfl
    · exact works_pure rfl
  cases op with
  | not =>
    obtain ⟨-, rfl, rfl⟩ := (UnaryOp.type?_cases ht).resolve_right fun h => h.1 rfl
    refine ⟨works_pushed tok (htype.bind fun l' hl' => ?_), fun _ l' jumpIf => h.jump rfl l' _⟩
    subst hl'
    refine hunary.bind fun t' ht' => ?_
    exact (works_boolValue fun l' => (h.jump rfl l' true).discard).returns ht'
  | plus =>
    obtain ⟨p, hp, rfl⟩ := Option.map_eq_some_iff.1 ht
    exact accepts_finish (hsigned p hp rfl)
  | minus =>
    obtain ⟨p, hp, rfl⟩ := Option.map_eq_some_iff.1 ht
    exact accepts_finish (hsigned p hp rfl)
  | percent => cases ht

theorem Accepts.logical (hleft : Accepts s left .bool) (hright : Accepts s right .bool) (isAnd : Bool) :
    Accepts s (logical tok isAnd left right) .bool :=
  accepts_condition (works_junction (fun l jumpIf => (hleft.jump rfl l jumpIf).discard)
    (fun l jumpIf => (hright.jump rfl l jumpIf).discard) isAnd)

theorem Accepts.binary (hleft : Accepts s left l) (hright : Accepts s right r)
    (hl : Works s leftType (· = l)) (hr : Works s rightType (· = r)) {op : BinaryOp}
    (ht : op.type? l r = some t) : Accepts s (binary tok op leftType rightType left right) t := by
  have hbools (ht : (if l.isBool && r.isBool then some Ty.bool else none) = some t) :
      l = .bool ∧ r = .bool ∧ t = .bool := by
    split at ht
    · next hb =>
      cases ht
      rw [Bool.and_eq_true] at hb
      exact ⟨Ty.eq_bool_of_isBool hb.1, Ty.eq_bool_of_isBool hb.2, rfl⟩
    · cases ht
  have htypes {β : Type} {f : Ty → Ty → Gen β} {P : β → Prop} (hf : Works s (f l r) P) : Works s (do
      let l ← leftType
      let r ← rightType
      f l r) P :=
    hl.bind fun l' hl' => hl' ▸ hr.bind fun r' hr' => hr' ▸ hf
  have hoperation (h : Accepts s
      (operation tok op l r (discard (left .value)) (discard (right .value))) t) :
      Accepts s (fun mode => do
        let l ← leftType
        let r ← rightType
        operation tok op l r (discard (left .value)) (discard (right .value)) mode) t :=
    ⟨htypes h.value, fun ht l' jumpIf => htypes (h.jump ht l' jumpIf)⟩
  have hleft' := hleft.value.discard
  have hright' := hright.value.discard
  have hcomparison (hop : op.isComparison = true) (hcond : op.isCondition = true) (hbool : t = .bool) :
      Accepts s (operation tok op l r (discard (left .value)) (discard (right .value))) t := by
    subst hbool
    rw [operation_of_isCondition hcond]
    exact accepts_condition (works_comparison hleft' hright' hop ht)
  have harith (hop : op.isArithmetic = true) (hcond : op.isCondition = false) (hrange : op ≠ .range) :
      Accepts s (operation tok op l r (discard (left .value)) (discard (right .value))) t := by
    rw [operation_of_not_isCondition hcond hrange]
    exact accepts_finish (works_arith hleft' hright' hop ht)
  cases op with
  | and =>
    obtain ⟨rfl, rfl, rfl⟩ := hbools ht
    exact hleft.logical hright true
  | or =>
    obtain ⟨rfl, rfl, rfl⟩ := hbools ht
    exact hleft.logical hright false
  | range => cases ht
  | eq | ne | lt | le | gt | ge => exact hoperation (hcomparison rfl rfl (BinaryOp.bool_of_type? rfl ht))
  | _ => exact hoperation (harith rfl rfl nofun)

end

end

end Gen

end Classwright
