import Classwright.Proofs.Body.Pass
import Classwright.Proofs.Body.Frames
import Classwright.Proofs.Typing
import Mathlib.Order.OrderDual

/-!
Types of operands. An operator finds the types of its operands before any code is written for them, and
the operands are of these types when they are there (`Gen.operands_checked`), with two exceptions. The
first operand may declare a name that the second one assigns to, and an operand may declare a name by
null, which becomes a variable for any object.
-/

namespace Classwright

/-! ### Scopes -/

namespace Scopes

/-- Variables of some names, which were not in scope, have been added. -/
def Adds (P : Text → Prop) (s s' : Scopes) : Prop :=
  ∀ name, s'.lookup? name = s.lookup? name ∨ P name ∧ s.lookup? name = none

variable {P : Text → Prop} {s s₁ s' : Scopes} {name : Text}

theorem Adds.refl (P : Text → Prop) (s : Scopes) : s.Adds P s := fun _ => .inl rfl

theorem Adds.trans (h : s.Adds P s₁) (h' : s₁.Adds P s') : s.Adds P s' := by
  intro name
  rcases h name with heq | hnew
  · rcases h' name with heq' | ⟨hname, hnone⟩
    · exact .inl (heq'.trans heq)
    · exact .inr ⟨hname, heq.symm.trans hnone⟩
  · exact .inr hnew

theorem Adds.lookup? (h : s.Adds P s') (hv : s.lookup? name = some v) :
    s'.lookup? name = some v := by
  rcases h name with heq | ⟨-, hnone⟩
  · exact heq.trans hv
  · cases hnone.symm.trans hv

theorem Adds.of_none (h : s.Adds P s') (hnone : s'.lookup? name = none) : s.lookup? name = none := by
  rcases h name with heq | ⟨-, hnone'⟩
  · exact heq.symm.trans hnone
  · exact hnone'

theorem lookup?_tail (h : s.lookup? name = none) : (Scopes.mk s.vars.tail none).lookup? name = none := by
  rw [Scopes.lookup?, List.findSome?_eq_none_iff] at h ⊢
  exact fun vs hvs => h vs (List.mem_of_mem_tail hvs)

/-- A variable in the innermost scope hides nothing if its name was in no scope. -/
theorem adds_cons (hvars : s.vars = vs :: outer)
    (hvars' : s'.vars = (v :: vs) :: outer) (hname : P v.name) (hnew : ∀ w ∈ vs, w.name ≠ v.name)
    (houter : (Scopes.mk outer none).lookup? v.name = none) : s.Adds P s' := by
  intro name
  by_cases h : v.name = name
  · subst h
    refine .inr ⟨hname, ?_⟩
    have hhead : vs.find? (·.name == v.name) = none :=
      List.find?_eq_none.2 fun w hw => by simpa using hnew w hw
    rw [Scopes.lookup?, hvars, List.findSome?_cons, hhead]
    exact houter
  · left
    rw [Scopes.lookup?, Scopes.lookup?, hvars, hvars', List.findSome?_cons, List.findSome?_cons,
      List.find?_cons, beq_false_of_ne h]

end Scopes

/-! ### Types found in other scopes -/

/-- A computation gives what another one gives. -/
def Compiled.Below (x y : Compiled α) : Prop := ∀ a, x = .ok a → y = .ok a

theorem Compiled.Below.refl (x : Compiled α) : Below x x := fun _ => id

theorem Compiled.Below.bind (h : Below x y)
    (hf : ∀ a, Below (f a) (g a)) : Below (x >>= f) (y >>= g) := by
  intro b hb
  obtain ⟨a, ha, hb⟩ := bind_eq_ok hb
  rw [h a ha]
  exact hf a b hb

namespace Env

open Compiled (Below)

variable {env : Env} {P : Text → Prop} {s s' : Scopes}

theorem variable_below (h : s.Adds P s') (tok : Token) (name : Text) :
    Below (variable_ s tok name) (variable_ s' tok name) := by
  intro v hv
  unfold variable_ at hv ⊢
  split at hv
  · next hsome =>
    cases hv
    rw [h.lookup? hsome]
  · cases hv

mutual

/-- The type of an expression stays when variables are added that it does not assign to. -/
theorem typeOf_below (h : s.Adds P s') (x : Expr)
    (hx : ∀ name ∈ x.targets, P name → (s.lookup? name).isSome = true) :
    Below (env.typeOf s x) (env.typeOf s' x) := by
  rw [typeOf.eq_def, typeOf.eq_def]
  refine .bind (.refl _) fun c => ?_
  cases c with
  | some c => exact .refl _
  | none =>
    match x with
    | .literal _ | .construct _ _ _ | .list _ _ => exact .refl _
    | .ident tok name => exact (variable_below h tok name).bind fun _ => .refl _
    | .unary _ _ y | .step _ _ y | .property _ y _ =>
      rw [Expr.targets] at hx
      first
        | exact (typeOf_below h y hx).bind fun _ => .refl _
        | exact typeOf_below h y hx
    | .binary _ _ y z =>
      rw [Expr.targets, List.forall_mem_append] at hx
      exact (typeOf_below h y hx.1).bind fun _ => (typeOf_below h z hx.2).bind fun _ => .refl _
    | .assign _ _ target value =>
      rw [Expr.targets, List.forall_mem_append, List.forall_mem_append] at hx
      have hvalue := typeOf_below h value hx.2.2
      cases target with
      | ident _ name =>
        dsimp only
        cases hlookup : s.lookup? name with
        | some v =>
          rw [h.lookup? hlookup]
          exact .refl _
        | none =>
          have hname : s'.lookup? name = none := by
            rcases h name with heq | ⟨hname, -⟩
            · exact heq.trans hlookup
            · have := hx.1 name (List.mem_singleton.2 rfl) hname
              rw [hlookup] at this
              cases this
          rw [hname]
          exact hvalue
      | property tok y name =>
        rw [Expr.targets] at hx
        exact (typeOf_below h y hx.2.1).bind fun _ => .refl _
      | _ => exact hvalue
    | .call _ callee args =>
      rw [Expr.targets, List.forall_mem_append] at hx
      refine (typesOf_below h args hx.2).bind fun ts => ?_
      cases callee with
      | property tok y name =>
        rw [Expr.targets] at hx
        exact (typeOf_below h y hx.1).bind fun _ => .refl _
      | _ => exact .refl _

theorem typesOf_below (h : s.Adds P s') (xs : List Expr)
    (hxs : ∀ name ∈ Expr.allTargets xs, P name → (s.lookup? name).isSome = true) :
    Below (env.typesOf s xs) (env.typesOf s' xs) := by
  match xs with
  | [] =>
    rw [typesOf, typesOf]
    exact .refl _
  | x :: xs =>
    rw [Expr.allTargets, List.forall_mem_append] at hxs
    rw [typesOf, typesOf]
    exact (typeOf_below h x hxs.1).bind fun _ => (typesOf_below h xs hxs.2).bind fun _ => .refl _

end

end Env

namespace Gen

/-! ### What expressions declare -/

/-- Writing code that adds only variables of some names, where what is known of the outer scopes holds. -/
def Names (P : Text → Prop) (I : List (List Var) → Prop) (m : Gen α) : Prop :=
  ∀ b, I b.scopes.vars.tail → After m b fun _ b' =>
    b.scopes.Adds P b'.scopes ∧ b'.scopes.vars.tail = b.scopes.vars.tail

section
variable {P : Text → Prop} {I : List (List Var) → Prop} {α β : Type} {m : Gen α} {f : α → Gen β}
  {env : Env}

theorem Names.bind (h : Names P I m) (hf : ∀ a, Names P I (f a)) : Names P I (m >>= f) := by
  intro b hb
  refine .bind ((h b hb).mono ?_)
  rintro a b₁ ⟨hadds, htail⟩
  refine (hf a b₁ (htail ▸ hb)).mono ?_
  rintro _ b₂ ⟨hadds', htail'⟩
  exact ⟨hadds.trans hadds', htail'.trans htail⟩

/-- What leaves the scopes as they are declares nothing. -/
theorem names_still (h : ∀ b, After m b fun _ b' => b'.scopes = b.scopes) : Names P I m := by
  refine fun b _ => (h b).mono fun _ b' hs => ?_
  rw [hs]
  exact ⟨.refl P _, rfl⟩

theorem Quiet.still (h : Quiet (fun _ _ => True) m) (b : Body) :
    After m b fun _ b' => b'.scopes = b.scopes := by
  refine (h.after b).mono ?_
  rintro _ _ ⟨c, -, rfl⟩
  rfl

theorem names_edit (f : Code → Code) : Names P I (edit f) := names_still fun _ => .of_eq rfl rfl

theorem names_newLabel : Names P I newLabel := names_still fun _ => .of_eq rfl rfl

theorem names_access (f : Code → Except Code.MemberError Code) : Names P I (access f) := by
  refine names_still fun b a b' hm => ?_
  unfold access at hm
  split at hm
  · cases hm
    rfl
  · cases hm

theorem composes_names (env : Env) : Composes (fun _ _ => True) env fun m => Names P I m where
  quiet h := names_still h.still
  bind := Names.bind
  lift _ h b hb := .bind (.lift fun a ha => h a ha b hb)
  self _ := names_edit _

theorem names_declare (tok : Token) (t : Ty) (isConst : Bool) (hname : P name)
    (hnew : ∀ outer, I outer → (Scopes.mk outer none).lookup? name = none) :
    Names P I (declare env tok name t isConst) := by
  refine fun b hb => (after_declare tok name t isConst).mono fun v b' h => ?_
  obtain ⟨vs, outer, hvars, hvars', hnew'⟩ := h.new
  rw [hvars] at hb
  refine ⟨Scopes.adds_cons hvars hvars' ?_ ?_ ?_, by rw [hvars, hvars']; rfl⟩
  · rw [h.name_eq]
    exact hname
  · rw [h.name_eq]
    exact hnew'
  · rw [h.name_eq]
    exact hnew outer hb

end

/-- Declaring only names that are assigned to, where something is known of the outer scopes. -/
def namesPass (env : Env) (P : Text → Prop) : ExprPass env (OrderDual (List (List Var) → Prop)) where
  Holds _ I _ m := Names P (OrderDual.ofDual I) m
  Taken _ _ _ := True
  Seen _ _ := True
  Own _ _ := True
  Target := P
  Unnamed I name := P name ∧ ∀ outer, OrderDual.ofDual I outer → (Scopes.mk outer none).lookup? name = none
  Place _ _ := True
  taken_mono _ h := h
  taken_of_seen _ _ := trivial
  own_mono _ h := h
  composes _ _ := composes_names env
  newLabel h := names_newLabel.bind fun l => h _ l le_rfl trivial
  bindLabel _ := names_edit _
  jump _ _ := names_edit _
  loadSlot _ := names_edit _
  storeSlot _ := names_edit _
  incSlot _ _ := names_edit _
  put _ _ _ := names_access _
  get {_ I _ f} h b hb := .bind (.of_eq rfl (by
    refine h (OrderDual.toDual (· = b.scopes.vars.tail)) b ?_ (fun _ _ _ => trivial) ?_ b rfl
    · rintro _ rfl
      exact hb
    · rintro name hname hnone
      refine ⟨hname, ?_⟩
      rintro _ rfl
      exact Scopes.lookup?_tail hnone))
  declareStore isConst _ _ hname h :=
    (names_declare _ _ isConst hname.1 hname.2).bind fun v =>
      (composes_names env).optional (names_edit _) fun _ =>
        ((composes_names env).store ⟨fun _ => names_edit _, fun _ => names_edit _,
          fun _ _ _ => names_edit _, fun _ => names_access _⟩).bind fun _ => h _ le_rfl

/-- An expression declares no names but those that it assigns to. -/
theorem adds_expr (env : Env) (x : Expr) (mode : Mode) (b : Body) :
    After (expr env x mode) b fun _ b' => b.scopes.Adds (· ∈ x.targets) b'.scopes := by
  have h : Names (· ∈ x.targets) (fun _ => True) (expr env x mode) :=
    (namesPass env (· ∈ x.targets)).expr (d := 0) (i := OrderDual.toDual fun _ => True) x.at_true mode
      fun _ => id
  exact (h b trivial).mono fun _ _ h => h.1

/-! ### What expressions give back -/

end Gen

/-- Whether an expression is an assignment that declares a variable. -/
def Expr.declares (s : Scopes) : Expr → Bool
  | .assign _ _ (.ident _ name) _ => (s.lookup? name).isNone
  | _ => false

/-- What declares a variable did so too before others were added. -/
theorem Scopes.Adds.declares (h : s.Adds P s') {x : Expr}
    (hx : x.declares s' = true) : x.declares s = true := by
  unfold Expr.declares at hx ⊢
  split at hx
  · rw [Option.isNone_iff_eq_none] at hx ⊢
    exact h.of_none hx
  · cases hx

/-- Whether an operator gives a condition for all operands that it takes. -/
def BinaryOp.isCondition : BinaryOp → Bool
  | .and | .or | .eq | .ne | .lt | .le | .gt | .ge => true
  | _ => false

theorem BinaryOp.bool_of_type? {op : BinaryOp} (hop : op.isCondition = true)
    (h : op.type? l r = some t) : t = .bool := by
  cases op with
  | and | or | eq | ne =>
    rw [type?] at h
    split at h
    · exact (Option.some.inj h).symm
    · cases h
  | lt | le | gt | ge =>
    obtain ⟨p, -, rfl⟩ := Option.map_eq_some_iff.1 h
    rfl
  | _ => cases hop

namespace Gen

section
variable {env : Env} {b : Body} {t : Ty}

theorem after_typeOf (h : ∀ t, env.typeOf b.scopes x = .ok t → Q t b) :
    After (typeOf env x) b Q :=
  .bind (.of_eq rfl (.lift h))

section
variable {α β : Type} {Q : β → Body → Prop}

/-- A step that is known to give something. -/
theorem After.known {y : Compiled α} (hy : y = .ok a) (h : After (f a) b Q) :
    After (liftM y >>= f) b Q := by
  refine .bind (.lift fun a' ha' => ?_)
  cases hy.symm.trans ha'
  exact h

theorem After.typed (ht : env.typeOf b.scopes x = .ok t)
    (h : After (f t) b Q) : After (typeOf env x >>= f) b Q := by
  refine .bind (after_typeOf fun t' ht' => ?_)
  cases ht.symm.trans ht'
  exact h

end

theorem after_returns (m : Gen α) (a : β) :
    After (m >>= fun _ => pure a) b fun a' _ => a' = a :=
  .bind fun _ _ _ => .of_eq rfl rfl

theorem after_pushed {Q : Ty → Prop} (h : After m b fun t _ => Q t) :
    After (pushed m true) b fun t _ => Q t :=
  .bind (h.mono fun _ _ h' => .of_eq rfl h')

theorem after_arith {op : BinaryOp} :
    After (arith tok op l r left right) b fun t _ => Env.binaryType tok op l r = .ok t := by
  have hreturn {m : Gen Unit} {b : Body} {t : Ty} (ht : Env.binaryType tok op l r = .ok t) :
      After (m >>= fun _ => pure t) b fun t _ => Env.binaryType tok op l r = .ok t :=
    (after_returns m t).mono fun _ _ h => h ▸ ht
  refine .bind (.lift fun t ht => ?_)
  dsimp only
  split
  · exact hreturn ht
  · refine .bind fun _ b' _ => ?_
    split
    · exact hreturn ht
    · exact hreturn ht

theorem after_optional {f : PUnit → Gen β} [Decidable c]
    {Q : β → Prop} (h : ∀ a b, After (f a) b fun y _ => Q y) :
    After (if c then m >>= f else f ⟨⟩) b fun y _ => Q y := by
  split
  · exact .bind fun a b _ => h a b
  · exact h _ b

/-- A step gives back the type of its target. -/
theorem after_stepTarget {op : StepOp} {receiver : Gen Nat} : After (stepTarget env tok targetTok op target receiver keep) b
      fun t _ => t = target.type := by
  unfold stepTarget
  dsimp only
  split
  · exact .of_error rfl
  · split
    · exact after_optional fun _ _ => after_returns _ _
    · refine .bind fun _ _ _ => .bind fun _ _ _ => after_optional fun _ _ => ?_
      exact .bind fun _ _ _ => .bind fun _ _ _ => .bind fun _ _ _ => .bind fun _ _ _ =>
        after_returns _ _

/-- An assignment gives back the type of its target. -/
theorem after_assignTo {op : AssignOp} :
    After (assignTo env tok targetTok op target under valueType value keep) b
      fun t _ => t = target.type := by
  unfold assignTo
  cases op.operator? with
  | some op =>
    refine .bind fun vt _ _ => .bind fun rt _ _ => after_optional fun _ _ => ?_
    exact .bind fun _ _ _ => after_optional fun _ _ => after_returns _ _
  | none =>
    refine .bind fun vt _ _ => after_optional fun _ _ => ?_
    exact .bind fun _ _ _ => after_optional fun _ _ => after_returns _ _

theorem after_declareAssign {value : Gen Ty}
    (ht : env.typeOf b.scopes x = .ok t) (hne : t ≠ .null) :
    After (declareAssign env tok nameTok name (typeOf env x) value keep) b fun t' _ => t' = t := by
  refine .typed ht ?_
  have hnull : t.isNull = false := by
    cases t with
    | null => exact absurd rfl hne
    | _ => rfl
  refine after_optional fun _ _ => ?_
  rw [hnull]
  refine .bind fun _ _ _ => .bind fun _ _ _ => .bind fun _ _ _ => ?_
  exact after_optional fun _ _ => after_returns _ _

theorem after_call {receiver : Option (Gen Unit)} :
    After (call env tok f receiver args) b fun t _ => t = f.sig.result := by
  have hrest {m : Gen Opcode} {b : Body} : After (do
      let op ← m
      args
      invoke op f.owner f.name f.sig.descriptor
      return f.sig.result) b fun t _ => t = f.sig.result :=
    .bind fun _ _ _ => .bind fun _ _ _ => after_returns _ _
  unfold call
  dsimp only
  split
  · exact .bind fun _ _ _ => hrest
  · split
    · exact .bind fun _ _ _ => hrest
    · exact after_optional fun _ _ => .bind fun _ _ _ => hrest
    · exact .of_error rfl
  · exact hrest

theorem after_construction :
    After (construction env tok type hasArgs argTypes) b
      fun r _ => env.typeName type = .ok (.cls r.1) := by
  refine .bind (.lift fun t ht => ?_)
  cases t with
  | cls name =>
    dsimp only
    split
    · split
      · exact .of_error rfl
      · exact .of_eq rfl ht
    · refine .bind fun ts _ _ => ?_
      dsimp only
      split
      · exact .of_error rfl
      · exact .of_eq rfl ht
  | _ => exact .of_error rfl

/-- An expression gives back the type that is found for it, unless it declares a variable by null. -/
theorem type_of_expr {x : Expr} (ht : env.typeOf b.scopes x = .ok t)
    (hnull : x.declares b.scopes = true → t ≠ .null) : After (expr env x .value) b fun t' _ => t' = t := by
  rw [Env.typeOf.eq_def] at ht
  rw [expr.eq_def]
  obtain ⟨c, hc, ht⟩ := bind_eq_ok ht
  refine .known hc ?_
  cases c with
  | some c =>
    cases ht
    exact after_returns _ _
  | none =>
    cases x with
    | literal tok => exact .of_error rfl
    | ident tok name =>
      obtain ⟨v, hv, ht⟩ := bind_eq_ok ht
      cases ht
      exact after_pushed (.bind (.of_eq rfl (.known hv (after_returns _ _))))
    | unary tok op x =>
      obtain ⟨u, hu, ht⟩ := bind_eq_ok ht
      cases op with
      | not => exact after_pushed (.typed hu (.known ht (after_returns _ _)))
      | _ =>
        refine after_pushed (.typed hu (.known ht (.bind fun _ _ _ => .bind fun _ _ _ => ?_)))
        split
        · exact after_returns _ _
        · exact .of_eq rfl rfl
    | step tok op target =>
      cases target with
      | ident targetTok name =>
        change env.typeOf b.scopes (.ident targetTok name) = _ at ht
        rw [Env.typeOf.eq_def] at ht
        obtain ⟨c, hc, ht⟩ := bind_eq_ok ht
        obtain rfl : none = c := Except.ok.inj hc
        obtain ⟨v, hv, ht⟩ := bind_eq_ok ht
        cases ht
        exact .bind (.of_eq rfl (.known hv (.bind fun _ _ _ => after_stepTarget)))
      | property targetTok x name =>
        change env.typeOf b.scopes (.property targetTok x name) = _ at ht
        rw [Env.typeOf.eq_def] at ht
        obtain ⟨c, hc, ht⟩ := bind_eq_ok ht
        obtain rfl : none = c := Except.ok.inj hc
        obtain ⟨u, hu, ht⟩ := bind_eq_ok ht
        obtain ⟨p, hp, ht⟩ := bind_eq_ok ht
        cases ht
        exact .typed hu (.known hp after_stepTarget)
      | _ => exact .of_error rfl
    | binary tok op x y =>
      obtain ⟨l, hl, ht⟩ := bind_eq_ok ht
      obtain ⟨r, hr, ht⟩ := bind_eq_ok ht
      cases op with
      | and | or | eq | ne | lt | le | gt | ge =>
        cases BinaryOp.bool_of_type? rfl (Env.type?_of_binaryType ht)
        exact after_pushed (after_returns _ _)
      | range => exact .of_error rfl
      | _ =>
        exact after_pushed (.typed hl (.typed hr (after_arith.mono fun t' _ ht' =>
          Except.ok.inj (ht'.symm.trans ht))))
    | assign tok op target value =>
      cases target with
      | ident targetTok name =>
        refine .bind (.of_eq rfl ?_)
        dsimp only at ht ⊢
        cases hlookup : b.scopes.lookup? name with
        | some v =>
          rw [hlookup] at ht
          cases ht
          exact .bind fun _ _ _ => .bind fun _ _ _ => after_assignTo
        | none =>
          rw [hlookup] at ht
          have hne : t ≠ .null := hnull (by rw [Expr.declares, hlookup]; rfl)
          dsimp only
          split
          · exact .of_error rfl
          · exact after_declareAssign ht hne
      | property targetTok x name =>
        obtain ⟨u, hu, ht⟩ := bind_eq_ok ht
        obtain ⟨p, hp, ht⟩ := bind_eq_ok ht
        cases ht
        exact .typed hu (.known hp (.bind fun _ _ _ => after_assignTo))
      | _ => exact .of_error rfl
    | call tok callee args =>
      obtain ⟨ts, hts, ht⟩ := bind_eq_ok ht
      refine after_pushed (.bind (.of_eq rfl (.known hts ?_)))
      cases callee with
      | ident nameTok name =>
        obtain ⟨f, hf, ht⟩ := bind_eq_ok ht
        cases ht
        exact .known hf after_call
      | property nameTok x name =>
        obtain ⟨u, hu, ht⟩ := bind_eq_ok ht
        obtain ⟨f, hf, ht⟩ := bind_eq_ok ht
        cases ht
        exact .typed hu (.known hf after_call)
      | _ => exact .of_error rfl
    | property tok x name =>
      obtain ⟨u, hu, ht⟩ := bind_eq_ok ht
      obtain ⟨p, hp, ht⟩ := bind_eq_ok ht
      cases ht
      exact after_pushed (.typed hu (.known hp (.bind fun _ _ _ => after_returns _ _)))
    | construct tok type args =>
      refine after_pushed (.bind (after_construction.mono ?_))
      rintro ⟨cls, params⟩ b' hcls
      cases (hcls.symm.trans ht)
      exact .bind fun _ _ _ => .bind fun _ _ _ => .bind fun _ _ _ => after_returns _ _
    | list tok xs =>
      cases ht
      exact after_pushed (.bind fun _ _ _ => .bind fun _ _ _ => .bind fun _ _ _ => after_returns _ _)

end

/-! ### Operators and their operands -/

/-- The code of an operator that is not logical, given the types of its operands and their code. -/
def operation (tok : Token) (op : BinaryOp) (l r : Ty) (left right : Gen Unit) (mode : Mode) : Gen Ty :=
  if op.isCondition then
    match mode with
    | .jump target jumpIf => do
      comparison tok op l r left right target jumpIf
      return .bool
    | _ => finish tok mode (pushed do
      boolValue fun isFalse => comparison tok op l r left right isFalse false
      return .bool)
  else if op = .range then refuse tok .rangeValue
  else finish tok mode (pushed (arith tok op l r left right))

section
variable {env : Env} {b b' : Body} {t : Ty} {tok : Token} {op : BinaryOp} {x y : Expr} {mode : Mode}

theorem typeOf_of_eq (ht : env.typeOf b.scopes x = .ok t) : typeOf env x b = .ok (t, b) := by
  change (liftM (env.typeOf b.scopes x) : Gen Ty) b = _
  rw [ht]
  rfl

theorem typeOf_of_error (ht : env.typeOf b.scopes x = .error e) :
    typeOf env x b = .error e := by
  change (liftM (env.typeOf b.scopes x) : Gen Ty) b = _
  rw [ht]
  rfl

/-- It does not matter whether a type is found before or after labels are made. -/
theorem boolValue_typeOf (f : Ty → Label → Gen Unit) :
    boolValue (fun isFalse => typeOf env x >>= fun t => f t isFalse) =
      typeOf env x >>= fun t => boolValue (f t) := by
  funext b
  let b₂ : Body := { b with code := b.code.newLabel.2.newLabel.2 }
  change (((typeOf env x b₂ >>= fun r => f r.1 _ r.2) : Compiled _) >>= _) =
    typeOf env x b >>= fun r => boolValue (f r.1) r.2
  cases ht : env.typeOf b.scopes x with
  | error e =>
    rw [typeOf_of_error (b := b₂) ht, typeOf_of_error ht]
    rfl
  | ok t =>
    rw [typeOf_of_eq (b := b₂) ht, typeOf_of_eq ht]
    rfl

theorem finish_bind (m : Gen α) (f : α → Gen Ty) :
    finish tok mode (pushed (m >>= f)) = m >>= fun a => finish tok mode (pushed (f a)) := by
  cases mode <;> simp only [finish, pushed, bind_assoc]

/-- An operator that is not logical first finds the types of its operands. -/
theorem expr_binary (hand : op ≠ .and) (hor : op ≠ .or) (hrange : op ≠ .range)
    (hfold : Env.fold (.binary tok op x y) = .ok none) :
    expr env (.binary tok op x y) mode = (do
      let l ← typeOf env x
      let r ← typeOf env y
      operation tok op l r (discard (expr env x .value)) (discard (expr env y .value)) mode) := by
  have hjump (target : Label) (jumpIf : Bool) : (do
        let l ← typeOf env x
        let r ← typeOf env y
        comparison tok op l r (discard (expr env x .value)) (discard (expr env y .value)) target jumpIf) >>=
        (fun _ => pure Ty.bool) = (do
      let l ← typeOf env x
      let r ← typeOf env y
      comparison tok op l r (discard (expr env x .value)) (discard (expr env y .value)) target jumpIf
      return Ty.bool) := by
    simp only [bind_assoc]
  have hvalue : finish tok mode (pushed do
        boolValue fun isFalse => do
          let l ← typeOf env x
          let r ← typeOf env y
          comparison tok op l r (discard (expr env x .value)) (discard (expr env y .value)) isFalse false
        return Ty.bool) = (do
      let l ← typeOf env x
      let r ← typeOf env y
      finish tok mode (pushed do
        boolValue fun isFalse =>
          comparison tok op l r (discard (expr env x .value)) (discard (expr env y .value)) isFalse false
        return Ty.bool)) := by
    simp only [boolValue_typeOf, bind_assoc, finish_bind]
  rw [expr.eq_def, hfold]
  cases op with
  | and => exact absurd rfl hand
  | or => exact absurd rfl hor
  | range => exact absurd rfl hrange
  | eq | ne | lt | le | gt | ge =>
    cases mode with
    | jump target jumpIf => exact hjump target jumpIf
    | _ => exact hvalue
  | _ =>
    simp only [operation, BinaryOp.isCondition, Bool.false_eq_true, if_false, reduceCtorEq, ← finish_bind]
    rfl

end

/-! ### Checked operands -/

open Classical in
/-- Writes the code of an operand, and refuses it unless it is of a type. -/
noncomputable def checked (t : Ty) (m : Gen Ty) : Gen Unit := do
  let u ← m
  if u ≠ t then throw (.convert u t)

/-- Where one action succeeds, another one does the same; what is known of the scopes before and after. -/
def Follows (P : Scopes → Prop) (m m' : Gen α) (Q : Scopes → Prop) : Prop :=
  ∀ b, P b.scopes → After m b fun a b' => m' b = .ok (a, b') ∧ Q b'.scopes

section
variable {α β : Type} {P Q R : Scopes → Prop} {m m' : Gen α} {f f' : α → Gen β}

theorem Follows.bind (h : Follows P m m' Q) (hf : ∀ a, Follows Q (f a) (f' a) R) :
    Follows P (m >>= f) (m' >>= f') R := by
  refine fun b hb => .bind ((h b hb).mono ?_)
  rintro a b₁ ⟨hm, hb₁⟩
  refine (hf a b₁ hb₁).mono fun c b₂ hf => ⟨?_, hf.2⟩
  change (m' b >>= fun r => f' r.1 r.2) = _
  rw [hm]
  exact hf.1

theorem follows_still (h : ∀ b, After m b fun _ b' => b'.scopes = b.scopes) : Follows P m m P :=
  fun b hb a b' hm => ⟨hm, h b a b' hm ▸ hb⟩

theorem Quiet.follows (h : Quiet (fun _ _ => True) m) : Follows P m m P := follows_still h.still

/-- What is the same is followed. -/
theorem follows_refl (m : Gen α) : Follows P m m fun _ => True := fun _ _ _ _ hm => ⟨hm, trivial⟩

theorem Follows.ends (h : Follows P m m' fun _ => True) (f : α → Gen β) :
    Follows P (m >>= f) (m' >>= f) fun _ => True :=
  h.bind fun _ => follows_refl _

theorem follows_finish (h : Follows P v v' fun _ => True) :
    Follows P (finish tok mode (pushed v)) (finish tok mode (pushed v')) fun _ => True := by
  have hpushed (keep : Bool) : Follows P (pushed v keep) (pushed v' keep) fun _ => True :=
    h.ends _
  cases mode with
  | value => exact hpushed true
  | drop => exact hpushed false
  | jump => exact (hpushed true).ends _

section
variable {l r : Ty} {left left' right right' : Gen Unit} (hleft : Follows P left left' Q)
  (hright : Follows Q right right' fun _ => True)
include hleft hright

theorem follows_operands (t : Ty) :
    Follows P (operands l r t left right) (operands l r t left' right') fun _ => True :=
  hleft.bind fun _ => (quiet_convert l t).follows.bind fun _ => hright.ends _

theorem follows_concat : Follows P (concat l r left right) (concat l r left' right') fun _ => True := by
  refine hleft.bind fun _ => (quiet_invoke _ _ _ _).follows.bind fun _ => ?_
  refine (quiet_edit fun c => c.quiet_type rfl _).follows.bind fun _ => ?_
  refine (quiet_op rfl).follows.bind fun _ => (quiet_op rfl).follows.bind fun _ => ?_
  exact (quiet_invoke _ _ _ _).follows.bind fun _ => hright.ends _

theorem follows_arith (tok : Token) (op : BinaryOp) :
    Follows P (arith tok op l r left right) (arith tok op l r left' right') fun _ => True := by
  refine (follows_still fun _ => .lift fun _ _ => rfl).bind fun t => ?_
  dsimp only
  split
  · exact (follows_concat hleft hright).ends _
  · exact (follows_operands hleft hright t).ends _

theorem follows_comparison (tok : Token) (op : BinaryOp) (target : Label) (jumpIf : Bool) :
    Follows P (comparison tok op l r left right target jumpIf)
      (comparison tok op l r left' right' target jumpIf) fun _ => True := by
  rw [comparison_eq, comparison_eq]
  refine Follows.ends ?_ _
  refine (follows_still fun _ => .lift fun _ _ => rfl).bind fun _ => ?_
  split
  · exact (follows_operands hleft hright _).ends _
  · split <;> exact (follows_operands hleft hright _).ends _

theorem follows_operation (tok : Token) (op : BinaryOp) (mode : Mode) :
    Follows P (operation tok op l r left right mode) (operation tok op l r left' right' mode)
      fun _ => True := by
  have hlabel : Follows P newLabel newLabel P := follows_still fun _ => .of_eq rfl rfl
  have hvalue : Follows P (do
        boolValue fun isFalse => comparison tok op l r left right isFalse false
        return Ty.bool)
      (do
        boolValue fun isFalse => comparison tok op l r left' right' isFalse false
        return Ty.bool) fun _ => True := by
    refine Follows.ends (hlabel.bind fun _ => hlabel.bind fun _ => ?_) _
    exact (follows_comparison hleft hright tok op _ _).ends _
  unfold operation
  split
  · cases mode with
    | jump => exact (follows_comparison hleft hright tok op _ _).ends _
    | _ => exact follows_finish hvalue
  · split
    · exact follows_refl _
    · exact follows_finish (follows_arith hleft hright tok op)

end

open Classical in
/-- An operand that gives back its type passes the check. -/
theorem follows_checked {m : Gen Ty} (h : ∀ b, P b.scopes → After m b fun u b' => u = t ∧ Q b'.scopes) :
    Follows P (discard m) (checked t m) Q := by
  refine fun b hb => .discard fun u b' hm => ?_
  obtain ⟨rfl, hQ⟩ := h b hb u b' hm
  refine ⟨?_, hQ⟩
  have hpass : (if u ≠ u then throw (.convert u u) else pure () : Gen Unit) b' = .ok ((), b') := by
    rw [if_neg fun h => h rfl]
    rfl
  change (m b >>= fun r => (if r.1 ≠ u then throw (.convert r.1 u) else pure () : Gen Unit) r.2) = _
  rw [hm]
  exact hpass

end

section
variable {env : Env} {b b' : Body} {t : Ty} {tok : Token} {op : BinaryOp} {x y : Expr} {mode : Mode}

/-- Operands are of the types that are found for them before any code is written, unless the first one
declares a name that the second one assigns to, or one of them declares a name by null. The code is then
that of the operator with operands of these types. -/
theorem operands_checked (hand : op ≠ .and) (hor : op ≠ .or)
    (hfold : Env.fold (.binary tok op x y) = .ok none)
    (hshared : ∀ name ∈ x.targets, name ∈ y.targets → (b.scopes.lookup? name).isSome = true)
    (hx : x.declares b.scopes = true → env.typeOf b.scopes x ≠ .ok .null)
    (hy : y.declares b.scopes = true → env.typeOf b.scopes y ≠ .ok .null)
    (h : expr env (.binary tok op x y) mode b = .ok (t, b')) :
    ∃ l r, env.typeOf b.scopes x = .ok l ∧ env.typeOf b.scopes y = .ok r ∧
      operation tok op l r (checked l (expr env x .value)) (checked r (expr env y .value)) mode b =
        .ok (t, b') := by
  by_cases hrange : op = .range
  · subst hrange
    rw [expr.eq_def, hfold] at h
    cases h
  rw [expr_binary hand hor hrange hfold] at h
  obtain ⟨⟨l, b₁⟩, hl, h₁⟩ := bind_eq_ok h
  obtain ⟨⟨r, b₂⟩, hr, h₂⟩ := bind_eq_ok h₁
  obtain ⟨hl, rfl⟩ : env.typeOf b.scopes x = .ok l ∧ b₁ = b :=
    after_typeOf (Q := fun l b₁ => env.typeOf b.scopes x = .ok l ∧ b₁ = b) (fun _ h => ⟨h, rfl⟩) _ _ hl
  obtain ⟨hr, rfl⟩ : env.typeOf b₁.scopes y = .ok r ∧ b₂ = b₁ :=
    after_typeOf (Q := fun r b₂ => env.typeOf b₁.scopes y = .ok r ∧ b₂ = b₁) (fun _ h => ⟨h, rfl⟩) _ _ hr
  refine ⟨l, r, hl, hr, ?_⟩
  rw [hl] at hx
  rw [hr] at hy
  have hleft : Follows (· = b₂.scopes) (discard (expr env x .value)) (checked l (expr env x .value))
      fun s => b₂.scopes.Adds (· ∈ x.targets) s := by
    refine follows_checked fun b hb u b' hm => ?_
    rw [← hb] at hl hx ⊢
    refine ⟨type_of_expr hl (fun hdecl => ?_) u b' hm, adds_expr env x .value b u b' hm⟩
    exact fun hnull => hx hdecl (congrArg _ hnull)
  have hright : Follows (fun s => b₂.scopes.Adds (· ∈ x.targets) s) (discard (expr env y .value))
      (checked r (expr env y .value)) fun _ => True := by
    refine follows_checked fun b hb u b' hm => ⟨?_, trivial⟩
    have hr' := Env.typeOf_below hb y (fun name hname hnew => hshared name hnew hname) r hr
    refine type_of_expr hr' (fun hdecl => ?_) u b' hm
    exact fun hnull => hy (hb.declares hdecl) (congrArg _ hnull)
  exact (follows_operation hleft hright tok op mode b₂ rfl t b' h₂).1

end

/-- An assignment of a whole number to a name. -/
def sampleAssign (name digits : Text) : Expr :=
  .assign Token.nowhere .plain (.ident Token.nowhere name)
    (.literal { Token.nowhere with kind := .int, text := digits })

/-- The start of a method without parameters. -/
def sampleBody : Body := { scopes := Scopes.enter {} true none }

theorem ne_null_of_any {env : Env}
    (h : ((env.typeOf s x).toOption.any fun t => !t.isNull) = true) : env.typeOf s x ≠ .ok .null := by
  intro ht
  rw [ht] at h
  cases h

/-- Both operands of `(a = 1L) + (b = 2)` declare a variable, and are of the types found before. -/
theorem operands_checked_sampleSum : ∃ t b' l r, expr { mainClass := [] }
      (.binary Token.nowhere .add (sampleAssign "a" "1L") (sampleAssign "b" "2")) .value sampleBody =
        .ok (t, b') ∧
    operation Token.nowhere .add l r (checked l (expr { mainClass := [] } (sampleAssign "a" "1L") .value))
      (checked r (expr { mainClass := [] } (sampleAssign "b" "2") .value)) .value sampleBody =
        .ok (t, b') := by
  have hrun : (expr { mainClass := [] }
      (.binary Token.nowhere .add (sampleAssign "a" "1L") (sampleAssign "b" "2")) .value
        sampleBody).toOption.isSome = true := by decide +kernel
  obtain ⟨⟨t, b'⟩, h⟩ := Option.isSome_iff_exists.1 hrun
  have hand : BinaryOp.add ≠ .and := nofun
  have hor : BinaryOp.add ≠ .or := nofun
  have hshared : ∀ name ∈ (sampleAssign "a" "1L").targets, name ∈ (sampleAssign "b" "2").targets →
      (sampleBody.scopes.lookup? name).isSome = true := by decide +kernel
  have hx : Env.typeOf { mainClass := [] } sampleBody.scopes (sampleAssign "a" "1L") ≠ .ok .null :=
    ne_null_of_any (by decide +kernel)
  have hy : Env.typeOf { mainClass := [] } sampleBody.scopes (sampleAssign "b" "2") ≠ .ok .null :=
    ne_null_of_any (by decide +kernel)
  obtain ⟨l, r, -, -, hchecked⟩ :=
    operands_checked hand hor rfl hshared (fun _ => hx) (fun _ => hy) (of_toOption h)
  exact ⟨t, b', l, r, of_toOption h, hchecked⟩

/-- The second operand of `(a = 1L) + (a = 2)` is found to be a number of one slot. It takes two, since
the first one declares the variable that it assigns to. -/
theorem operands_not_checked : ∃ t b' l b₁ r r' b₂, expr { mainClass := [] }
      (.binary Token.nowhere .add (sampleAssign "a" "1L") (sampleAssign "a" "2")) .value sampleBody =
        .ok (t, b') ∧
    expr { mainClass := [] } (sampleAssign "a" "1L") .value sampleBody = .ok (l, b₁) ∧
    Env.typeOf { mainClass := [] } sampleBody.scopes (sampleAssign "a" "2") = .ok r ∧
    expr { mainClass := [] } (sampleAssign "a" "2") .value b₁ = .ok (r', b₂) ∧
    r.size = 1 ∧ r'.size = 2 := by
  have hrun : (expr { mainClass := [] }
      (.binary Token.nowhere .add (sampleAssign "a" "1L") (sampleAssign "a" "2")) .value
        sampleBody).toOption.isSome = true := by decide +kernel
  have hleft : ((expr { mainClass := [] } (sampleAssign "a" "1L") .value sampleBody).toOption.any
      fun p => (expr { mainClass := [] } (sampleAssign "a" "2") .value p.2).toOption.any
        fun q => q.1.size == 2) = true := by decide +kernel
  have hright : ((Env.typeOf { mainClass := [] } sampleBody.scopes (sampleAssign "a" "2")).toOption.any
      fun r => r.size == 1) = true := by decide +kernel
  obtain ⟨⟨t, b'⟩, h⟩ := Option.isSome_iff_exists.1 hrun
  obtain ⟨⟨l, b₁⟩, hl, hvisit⟩ := (Option.any_eq_true _ _).1 hleft
  obtain ⟨⟨r', b₂⟩, hr', htwo⟩ := (Option.any_eq_true _ _).1 hvisit
  obtain ⟨r, hr, hone⟩ := (Option.any_eq_true _ _).1 hright
  exact ⟨t, b', l, b₁, r, r', b₂, of_toOption h, of_toOption hl, of_toOption hr, of_toOption hr',
    beq_iff_eq.1 hone, beq_iff_eq.1 htwo⟩

end Gen

end Classwright
