import Classwright.Proofs.Body.Composition
import Classwright.Proofs.Syntax
import Mathlib.Order.Basic

/-!
What holds of all code that is written. A property of actions that passes through everything that
code is put together from (`Gen.Pass`) holds of expressions (`Gen.Pass.expr`) and statements
(`Gen.Pass.stmt`).
-/

namespace Classwright.Gen

/-- A property of actions that expressions are put together from, where at least `d` scopes are open,
and what is known of slots, variables and labels there. What is known only grows. The tokens of the
expressions are at some places. -/
structure ExprPass (env : Env) (ι : Type) [Preorder ι] where
  Holds : (d : Nat) → ι → {α : Type} → Gen α → Prop
  /-- A slot of the frame has been taken for a type. -/
  Taken : ι → Ty → Nat → Prop
  /-- A variable is in scope. -/
  Seen : ι → Var → Prop
  /-- A label is one of those to be bound here. -/
  Own : ι → Label → Prop
  /-- A name may be assigned to. -/
  Target : Text → Prop
  /-- A name is assigned to that was not in scope. -/
  Unnamed : ι → Text → Prop
  Place : Int → Int → Prop
  taken_mono {i j : ι} {t : Ty} {slot : Nat} : i ≤ j → Taken i t slot → Taken j t slot
  taken_of_seen {i : ι} {v : Var} : Seen i v → v.kind = .local → Taken i v.type v.slot
  own_mono {i j : ι} {l : Label} : i ≤ j → Own i l → Own j l
  composes (d : Nat) (i : ι) : Composes Place env (Holds d i)
  newLabel {d : Nat} {i : ι} {α : Type} {f : Label → Gen α} :
    (∀ j l, i ≤ j → Own j l → Holds d j (f l)) → Holds d i (newLabel >>= f)
  bindLabel {d : Nat} {i : ι} {l : Label} : Own i l → Holds d i (Gen.bind l)
  jump {d : Nat} {i : ι} {op : Opcode} : op.isJump = true → (l : Label) → Holds d i (jump op l)
  loadSlot {d : Nat} {i : ι} {t : Ty} {slot : Nat} :
    Taken i t slot → Holds d i (edit (·.load t slot))
  storeSlot {d : Nat} {i : ι} {t : Ty} {slot : Nat} :
    Taken i t slot → Holds d i (edit (·.store t slot))
  incSlot {d : Nat} {i : ι} {slot : Nat} :
    Taken i .int slot → (by_ : Int) → Holds d i (edit (·.inc slot by_))
  put {d : Nat} {i : ι} {v : Var} :
    Seen i v → v.const = false → v.kind = .global → Holds d i (field .putstatic v.owner v)
  get {d : Nat} {i : ι} {α : Type} {f : Body → Gen α} :
    (∀ j b, i ≤ j → (∀ name v, b.scopes.lookup? name = some v → Seen j v) →
      (∀ name, Target name → b.scopes.lookup? name = none → Unnamed j name) → Holds d j (f b)) →
    Holds d i (MonadState.get >>= f)
  /-- A new variable is stored into at once. -/
  declareStore {d : Nat} {i : ι} {α : Type} {t : Ty} {m : Gen α} {tok : Token} {name : Text}
    (isConst keep : Bool) : tok.At Place → Unnamed i name → (∀ j, i ≤ j → Holds d j m) →
    Holds d i (do
      let v ← declare env tok name t isConst
      if keep then edit (·.dup t 0)
      store v
      m)

/-- A property of actions that passes through statements too. -/
structure Pass (env : Env) (ι : Type) [Preorder ι] extends ExprPass env ι where
  target (name : Text) : Target name
  unnamed (i : ι) (name : Text) : Unnamed i name
  alloc {d : Nat} {i : ι} {α : Type} {t : Ty} {f : Nat → Gen α} :
    (∀ j slot, i ≤ j → Taken j t slot → Holds d j (f slot)) → Holds d i (alloc t >>= f)
  declareLocal {d : Nat} {i : ι} {α : Type} {t : Ty} {f : Var → Gen α} {tok : Token} (name : Text)
    (isConst : Bool) : tok.At Place → 2 ≤ d → (∀ j v, i ≤ j → Taken j t v.slot → Holds d j (f v)) →
    Holds d i (declare env tok name t isConst >>= f)
  inScope {d : Nat} {i : ι} {α : Type} {m : Gen α} : Holds (d + 1) i m → Holds d i (inScope m)

namespace ExprPass

section
variable {env : Env} {ι : Type} [Preorder ι] (P : ExprPass env ι) {d : Nat} {i : ι} {α β : Type}
  {tok : Token}

/-! ### Actions -/

section
variable {m : Gen α} {f : α → Gen β}

theorem quiet (h : Quiet P.Place m) : P.Holds d i m := (P.composes d i).quiet h

theorem pure (a : α) : P.Holds d i (Pure.pure a) := P.quiet (quiet_pure a)

theorem refuse (htok : tok.At P.Place) (fault : CompileFault) :
    P.Holds d i (Gen.refuse (α := α) tok fault) :=
  P.quiet (quiet_refuse htok fault)

theorem andThen (h : P.Holds d i m) (hf : ∀ a, P.Holds d i (f a)) : P.Holds d i (m >>= f) :=
  (P.composes d i).bind h hf

theorem after (h : Quiet P.Place m) (hf : ∀ a, P.Holds d i (f a)) : P.Holds d i (m >>= f) :=
  P.andThen (P.quiet h) hf

theorem lift (hx : Refused P.Place x) (h : ∀ a, x = .ok a → P.Holds d i (f a)) :
    P.Holds d i (liftM x >>= f) :=
  (P.composes d i).lift hx h

theorem discard (h : P.Holds d i m) : P.Holds d i (Functor.discard m) := (P.composes d i).discard h

/-- What is only done under a condition. -/
theorem optional {m : Gen PUnit} {f : PUnit → Gen β} [Decidable c] (h : P.Holds d i m)
    (hf : ∀ a, P.Holds d i (f a)) : P.Holds d i (if c then m >>= f else f ⟨⟩) :=
  (P.composes d i).optional h hf

end

/-! ### Variables -/

/-- Variables in scope may be used, and written to unless they are constants. -/
theorem uses (hv : P.Seen i v) (hconst : v.const = false) : Uses (P.Holds d i) v where
  load hlocal := P.loadSlot (P.taken_of_seen hv hlocal)
  store hlocal := P.storeSlot (P.taken_of_seen hv hlocal)
  inc hlocal hint by_ := P.incSlot (hint ▸ P.taken_of_seen hv hlocal) by_
  put := P.put hv hconst

theorem lookup?_of_variable
    (h : Env.variable_ s tok name = .ok v) : s.lookup? name = some v := by
  unfold Env.variable_ at h
  split at h
  · next hv =>
    cases h
    exact hv
  · cases h

section
variable (htok : tok.At P.Place)
include htok

theorem variable_ (name : Text) {f : Var → Gen α}
    (h : ∀ j v, i ≤ j → P.Seen j v → P.Holds d j (f v)) :
    P.Holds d i (do
      let v ← Env.variable_ (← MonadState.get).scopes tok name
      f v) :=
  P.get fun j _ hj hseen _ => P.lift (Env.refused_variable htok _ name) fun v hv =>
    h j v hj (hseen name v (lookup?_of_variable hv))

/-! ### Conditions -/

theorem test (t : Ty) (target : Label) (jumpIf : Bool) :
    P.Holds d i (test tok t target jumpIf) :=
  P.optional (P.refuse htok _) fun _ => P.jump (by cases jumpIf <;> rfl) target

theorem finish (mode : Mode)
    (h : ∀ keep, P.Holds d i (value keep)) : P.Holds d i (finish tok mode value) := by
  unfold Gen.finish
  split
  · exact h true
  · exact h false
  · exact P.andThen (h true) fun t => P.andThen (P.test htok t _ _) fun _ => P.pure t

theorem pushed (mode : Mode) (h : P.Holds d i m) :
    P.Holds d i (Gen.finish tok mode (Gen.pushed m)) :=
  P.finish htok mode ((P.composes d i).pushed h)

theorem constant (c : Constant) (mode : Mode) :
    P.Holds d i (constant tok c mode) := by
  unfold Gen.constant
  split
  · exact P.after (quiet_edit fun code => code.quiet_const _ _) fun _ => P.pure _
  · exact P.pure _
  · split
    · exact P.optional (P.jump rfl _) fun _ => P.pure _
    · exact P.andThen (P.refuse htok _) fun _ => P.pure _

end

theorem boolValue (h : ∀ l j, P.Holds d j (jumpFalse l)) :
    P.Holds d i (boolValue jumpFalse) := by
  refine P.newLabel fun j isFalse _ hfalse => P.newLabel fun k done hjk hdone => ?_
  refine P.andThen (h isFalse k) fun _ => ?_
  refine P.after (quiet_edit fun c => c.quiet_int 1) fun _ => ?_
  refine P.andThen (P.jump rfl done) fun _ => ?_
  refine P.andThen (P.bindLabel (P.own_mono hjk hfalse)) fun _ => ?_
  exact P.after (quiet_edit fun c => c.quiet_int 0) fun _ => P.bindLabel hdone

theorem junction (isAnd : Bool)
    (hleft : ∀ l jumpIf j, P.Holds d j (left l jumpIf))
    (hright : ∀ l jumpIf j, P.Holds d j (right l jumpIf)) (target : Label) (jumpIf : Bool) :
    P.Holds d i (junction isAnd left right target jumpIf) := by
  unfold Gen.junction
  split
  · refine P.newLabel fun j skip _ hskip => P.andThen (hleft skip _ j) fun _ => ?_
    exact P.andThen (hright target _ j) fun _ => P.bindLabel hskip
  · exact P.andThen (hleft target _ i) fun _ => hright target _ i

theorem comparison (hleft : P.Holds d i left) (hright : P.Holds d i right)
    (htok : tok.At P.Place) (op : BinaryOp) (l r : Ty) (target : Label) (jumpIf : Bool) :
    P.Holds d i (comparison tok op l r left right target jumpIf) := by
  rw [comparison_eq]
  exact P.andThen ((P.composes d i).compared hleft hright htok op l r jumpIf) fun op =>
    P.jump op.2 target

/-! ### Expressions -/

/-- An expression is either folded, or code is written for it. -/
theorem folded (hx : x.At P.Place) (mode : Mode)
    (hsome : ∀ c, f (some c) = Gen.constant x.tok c mode) (hnone : P.Holds d i (f none)) :
    P.Holds d i (liftM (Env.fold x) >>= f) := by
  refine P.lift (Env.refused_fold hx) fun c _ => ?_
  cases c with
  | some c =>
    rw [hsome]
    exact P.constant hx.tok c mode
  | none => exact hnone

section
variable {mode : Mode}

theorem ident {name : Text} (h : (Expr.ident tok name).At P.Place) :
    P.Holds d i (expr env (.ident tok name) mode) := by
  have htok := h.tok
  rw [expr.eq_def]
  refine P.folded h mode (fun _ => rfl) (P.pushed htok mode (P.variable_ htok name fun j v _ hv => ?_))
  refine P.andThen ((P.composes d j).load htok fun hlocal => ?_) fun _ => P.pure _
  exact P.loadSlot (P.taken_of_seen hv hlocal)

theorem shape_ineg (t : Ty) : (Opcode.ineg.forNumber t).shape = .plain := by
  cases t with
  | prim p => cases p <;> rfl
  | _ => rfl

theorem unary {op : UnaryOp} {x : Expr} (h : (Expr.unary tok op x).At P.Place)
    (hx : ∀ mode j, P.Holds d j (expr env x mode)) : P.Holds d i (expr env (.unary tok op x) mode) := by
  rw [expr.eq_def]
  refine P.folded h mode (fun _ => rfl) ?_
  obtain ⟨htok, hplace⟩ := h
  dsimp only
  split
  · exact hx _ i
  · refine P.pushed htok mode (P.after (quiet_typeOf env hplace) fun t => ?_)
    refine P.lift (Env.refused_unaryType htok _ t) fun t _ => ?_
    exact P.andThen (P.boolValue fun l j => P.discard (hx _ j)) fun _ => P.pure _
  · refine P.pushed htok mode (P.after (quiet_typeOf env hplace) fun xt => ?_)
    refine P.lift (Env.refused_unaryType htok _ xt) fun t _ => P.andThen (P.discard (hx _ i)) fun _ => ?_
    refine P.after (quiet_convert _ _) fun _ => ?_
    exact P.optional (P.quiet (quiet_op (shape_ineg t))) fun _ => P.pure _

theorem step {op : StepOp} (h : (Expr.step tok op target).At P.Place)
    (hx : ∀ t x name, target = .property t x name → P.Holds d i (expr env x .value)) :
    P.Holds d i (expr env (.step tok op target) mode) := by
  rw [expr.eq_def]
  refine P.folded h mode (fun _ => rfl) ?_
  obtain ⟨htok, htarget⟩ := h
  refine P.finish htok mode fun keep => ?_
  cases target with
  | ident targetTok name =>
    refine P.variable_ htarget name fun j v _ hv => ?_
    refine (P.composes d j).checkVariable htarget v fun hconst => ?_
    refine (P.composes d j).stepTarget ?_ htok htarget op ((P.composes d j).receiver htarget v) keep
    rintro _ ⟨⟩
    exact P.uses hv hconst
  | property targetTok x name =>
    refine P.after (quiet_typeOf env htarget.2) fun t => ?_
    refine P.lift (Env.refused_property htarget.1 t name) fun r _ => ?_
    obtain ⟨owner, f⟩ := r
    refine (P.composes d i).stepTarget ?_ htok htarget.1 op ?_ keep
    · rintro _ ⟨⟩
    · exact P.andThen (P.discard (hx _ _ _ rfl)) fun _ => P.pure _
  | _ => exact P.refuse htok _

/-- The value of a condition that jumps. -/
theorem conditionValue (htok : tok.At P.Place) (mode : Mode)
    (h : ∀ l j, P.Holds d j (jumpFalse l)) :
    P.Holds d i (Gen.finish tok mode (Gen.pushed do
      Gen.boolValue jumpFalse
      return .bool)) :=
  P.pushed htok mode (P.andThen (P.boolValue h) fun _ => P.pure _)

theorem binary {op : BinaryOp} (h : (Expr.binary tok op x y).At P.Place)
    (hx : ∀ mode j, P.Holds d j (expr env x mode)) (hy : ∀ mode j, P.Holds d j (expr env y mode)) :
    P.Holds d i (expr env (.binary tok op x y) mode) := by
  have hplaces := h
  obtain ⟨htok, hxplace, hyplace⟩ := hplaces
  have htypes {β : Type} {f : Ty → Ty → Gen β} {j : ι} (hf : ∀ t u, P.Holds d j (f t u)) :
      P.Holds d j (do
        let t ← typeOf env x
        let u ← typeOf env y
        f t u) :=
    P.after (quiet_typeOf env hxplace) fun t =>
      P.after (quiet_typeOf env hyplace) fun u => hf t u
  have hjunction (isAnd : Bool) (l : Label) (jumpIf : Bool) (j : ι) : P.Holds d j (Gen.junction isAnd
      (fun target jumpIf => Functor.discard (expr env x (.jump target jumpIf)))
      (fun target jumpIf => Functor.discard (expr env y (.jump target jumpIf))) l jumpIf) :=
    P.junction isAnd (fun _ _ k => P.discard (hx _ k)) (fun _ _ k => P.discard (hy _ k)) l jumpIf
  have hcomparison (l : Label) (jumpIf : Bool) (j : ι) : P.Holds d j (do
      let t ← typeOf env x
      let u ← typeOf env y
      Gen.comparison tok op t u (Functor.discard (expr env x .value))
        (Functor.discard (expr env y .value)) l jumpIf) :=
    htypes fun t u => P.comparison (P.discard (hx _ j)) (P.discard (hy _ j)) htok op t u l jumpIf
  have harith : P.Holds d i (Gen.finish tok mode (Gen.pushed do
      let t ← typeOf env x
      let u ← typeOf env y
      arith tok op t u (Functor.discard (expr env x .value))
        (Functor.discard (expr env y .value)))) :=
    P.pushed htok mode (htypes fun t u =>
      (P.composes d i).arith (P.discard (hx _ i)) (P.discard (hy _ i)) htok op t u)
  rw [expr.eq_def]
  refine P.folded h mode (fun _ => rfl) ?_
  dsimp only
  cases op with
  | and | or =>
    cases mode with
    | jump target jumpIf => exact P.andThen (hjunction _ _ _ i) fun _ => P.pure _
    | _ => exact P.conditionValue htok _ fun l j => hjunction _ l false j
  | eq | ne | lt | le | gt | ge =>
    cases mode with
    | jump target jumpIf => exact P.andThen (hcomparison _ _ i) fun _ => P.pure _
    | _ => exact P.conditionValue htok _ fun l j => hcomparison l false j
  | range => exact P.refuse htok _
  | _ => exact harith

theorem assign {op : AssignOp} {target : Expr} (h : (Expr.assign tok op target value).At P.Place)
    (hname : ∀ t name, target = .ident t name → P.Target name)
    (hx : ∀ t x name, target = .property t x name → P.Holds d i (expr env x .value))
    (hvalue : ∀ j, P.Holds d j (expr env value .value)) :
    P.Holds d i (expr env (.assign tok op target value) mode) := by
  rw [expr.eq_def]
  refine P.folded h mode (fun _ => rfl) ?_
  obtain ⟨htok, htarget, hplace⟩ := h
  refine P.finish htok mode fun keep => ?_
  cases target with
  | ident targetTok name =>
    refine P.get fun j b _ hseen hunnamed => ?_
    split
    · next hnone =>
      refine P.optional (P.refuse htarget _) fun _ => ?_
      refine (P.composes d j).declareAssign htok targetTok name keep (P.quiet (quiet_typeOf env hplace))
        (hvalue j) fun t => ?_
      exact P.declareStore false keep htarget (hunnamed name (hname _ _ rfl) hnone) fun _ _ => P.pure _
    · next v hv =>
      refine (P.composes d j).checkVariable htarget v fun hconst => ?_
      refine P.andThen ((P.composes d j).receiver htarget v) fun under => ?_
      refine (P.composes d j).assignTo ?_ htok htarget op under (P.quiet (quiet_typeOf env hplace))
        (hvalue j) keep
      rintro _ ⟨⟩
      exact P.uses (hseen name v hv) hconst
  | property targetTok x name =>
    refine P.after (quiet_typeOf env htarget.2) fun t => ?_
    refine P.lift (Env.refused_property htarget.1 t name) fun r _ => ?_
    obtain ⟨owner, f⟩ := r
    refine P.andThen (P.discard (hx _ _ _ rfl)) fun _ => ?_
    refine (P.composes d i).assignTo ?_ htok htarget.1 op 1 (P.quiet (quiet_typeOf env hplace))
      (hvalue i) keep
    rintro _ ⟨⟩
  | _ => exact P.refuse htok _

theorem call (h : (Expr.call tok callee args).At P.Place)
    (hx : ∀ t x name, callee = .property t x name → ∀ j, P.Holds d j (expr env x .value))
    (hargs : ∀ y ∈ args, ∀ j, P.Holds d j (expr env y .value)) :
    P.Holds d i (expr env (.call tok callee args) mode) := by
  have hargs (j : ι) (params : List Ty) : P.Holds d j (arguments env args params) :=
    (P.composes d j).arguments (fun y hy => hargs y hy j) params
  rw [expr.eq_def]
  refine P.folded h mode (fun _ => rfl) ?_
  obtain ⟨htok, hcallee, hplaces⟩ := h
  refine P.pushed htok mode (P.get fun j b _ _ _ => ?_)
  refine P.lift (Env.refused_typesOf b.scopes hplaces) fun ts _ => ?_
  cases callee with
  | ident nameTok name =>
    refine P.lift (Env.refused_function hcallee name ts) fun f _ => ?_
    refine (P.composes d j).call htok f ?_ (hargs _ _)
    rintro _ ⟨⟩
  | property nameTok x name =>
    refine P.after (quiet_typeOf env hcallee.2) fun t => ?_
    refine P.lift (Env.refused_method hcallee.1 t name ts) fun f _ => ?_
    refine (P.composes d j).call htok f ?_ (hargs _ _)
    rintro _ ⟨⟩
    exact P.discard (hx _ _ _ rfl _)
  | _ => exact P.refuse htok _

theorem property (h : (Expr.property tok x name).At P.Place)
    (hx : P.Holds d i (expr env x .value)) : P.Holds d i (expr env (.property tok x name) mode) := by
  rw [expr.eq_def]
  refine P.folded h mode (fun _ => rfl) ?_
  obtain ⟨htok, hplace⟩ := h
  refine P.pushed htok mode (P.after (quiet_typeOf env hplace) fun t => ?_)
  refine P.lift (Env.refused_property htok t name) fun r _ => P.andThen (P.discard hx) fun _ => ?_
  exact P.after (quiet_field (by decide) _ _) fun _ => P.pure _

theorem construct (h : (Expr.construct tok type args).At P.Place)
    (hargs : ∀ y ∈ args, P.Holds d i (expr env y .value)) :
    P.Holds d i (expr env (.construct tok type args) mode) := by
  have hcomposes := P.composes d i
  rw [expr.eq_def]
  refine P.folded h mode (fun _ => rfl) ?_
  obtain ⟨htok, htype, hplaces⟩ := h
  refine P.pushed htok mode ?_
  refine P.andThen (hcomposes.construction htok htype _
    (P.quiet (quiet_get fun b => quiet_lift (Env.refused_typesOf b.scopes hplaces)))) fun r => ?_
  refine P.after (quiet_edit fun c => c.quiet_type (by decide) _) fun _ => ?_
  refine P.after (quiet_op (by decide)) fun _ => ?_
  refine P.andThen (hcomposes.arguments hargs _) fun _ => ?_
  exact P.after (quiet_invoke _ _ _ _) fun _ => P.pure _

theorem list (h : (Expr.list tok xs).At P.Place)
    (hxs : ∀ y ∈ xs, P.Holds d i (expr env y .value)) : P.Holds d i (expr env (.list tok xs) mode) := by
  rw [expr.eq_def]
  refine P.folded h mode (fun _ => rfl) ?_
  obtain ⟨htok, hplaces⟩ := h
  refine P.pushed htok mode ?_
  refine P.after (quiet_edit fun c => c.quiet_type (by decide) _) fun _ => ?_
  refine P.after (quiet_op (by decide)) fun _ => ?_
  refine P.after (quiet_invoke _ _ _ _) fun _ => ?_
  refine P.andThen ((P.composes d i).elements fun y hy => ?_) fun _ => P.pure _
  exact ⟨Expr.allAt_iff.1 hplaces y hy, hxs y hy⟩

end

theorem expr (hplace : x.At P.Place) (mode : Mode) (hx : ∀ name ∈ x.targets, P.Target name) :
    P.Holds d i (expr env x mode) := by
  induction hw : x.weight using Nat.strongRecOn generalizing i x mode with
  | ind w ih =>
    subst hw
    have h := hplace
    cases x with
    | literal tok =>
      rw [expr.eq_def]
      exact P.folded h mode (fun _ => rfl) (P.refuse h.tok _)
    | ident tok name => exact P.ident h
    | unary tok op x =>
      rw [Expr.targets] at hx
      exact P.unary h fun mode j => ih _ (by rw [Expr.weight]; omega) hplace.2 mode hx rfl
    | step tok op target =>
      refine P.step h ?_
      rintro _ x _ rfl
      rw [Expr.targets, Expr.targets] at hx
      exact ih _ (by rw [Expr.weight, Expr.weight]; omega) hplace.2.2 .value hx rfl
    | binary tok op x y =>
      rw [Expr.targets, List.forall_mem_append] at hx
      exact P.binary h (fun mode j => ih _ (by rw [Expr.weight]; omega) hplace.2.1 mode hx.1 rfl)
        fun mode j => ih _ (by rw [Expr.weight]; omega) hplace.2.2 mode hx.2 rfl
    | assign tok op target value =>
      rw [Expr.targets, List.forall_mem_append, List.forall_mem_append] at hx
      refine P.assign h ?_ ?_ fun j => ih _ (by rw [Expr.weight]; omega) hplace.2.2 .value hx.2.2 rfl
      · rintro _ name rfl
        exact hx.1 name (List.mem_singleton.2 rfl)
      · rintro _ x _ rfl
        rw [Expr.targets] at hx
        exact ih _ (by rw [Expr.weight, Expr.weight]; omega) hplace.2.1.2 .value hx.2.1 rfl
    | call tok callee args =>
      rw [Expr.At, Expr.allAt_iff] at hplace
      rw [Expr.targets, List.forall_mem_append] at hx
      refine P.call h ?_ fun y hy j => ?_
      · rintro _ x _ rfl j
        rw [Expr.targets] at hx
        exact ih _ (by rw [Expr.weight, Expr.weight]; omega) hplace.2.1.2 .value hx.1 rfl
      · have := Expr.weight_le_weights hy
        exact ih _ (by rw [Expr.weight]; omega) (hplace.2.2 y hy) .value
          (fun name h => hx.2 name (Expr.mem_allTargets.2 ⟨y, hy, h⟩)) rfl
    | property tok x name =>
      rw [Expr.targets] at hx
      exact P.property h (ih _ (by rw [Expr.weight]; omega) hplace.2 .value hx rfl)
    | construct tok type args =>
      rw [Expr.At, Expr.allAt_iff] at hplace
      rw [Expr.targets] at hx
      refine P.construct h fun y hy => ?_
      have := Expr.weight_le_weights hy
      exact ih _ (by rw [Expr.weight]; omega) (hplace.2.2 y hy) .value
        (fun name h => hx name (Expr.mem_allTargets.2 ⟨y, hy, h⟩)) rfl
    | list tok xs =>
      rw [Expr.At, Expr.allAt_iff] at hplace
      rw [Expr.targets] at hx
      refine P.list h fun y hy => ?_
      have := Expr.weight_le_weights hy
      exact ih _ (by rw [Expr.weight]; omega) (hplace.2 y hy) .value
        (fun name h => hx name (Expr.mem_allTargets.2 ⟨y, hy, h⟩)) rfl

end

end ExprPass

/-- The rounds of a loop over a range, from the number in a slot up to the one in another slot. -/
def counting (i stop : Nat) (body : LoopLabels → Gen Unit) : Gen Unit := do
  let top ← newLabel
  let next ← newLabel
  let leave ← newLabel
  bind top
  edit (·.load .int i)
  edit (·.load .int stop)
  jump .ifIcmpGe leave
  body ⟨leave, next⟩
  bind next
  if ← isReachable then
    edit (·.inc i 1)
    jump .goto top
  bind leave

/-- Counts from the number in a slot up to a bound, which gets a slot of its own. -/
def countTo (env : Env) (i : Nat) (last : Expr) (body : LoopLabels → Gen Unit) : Gen Unit := do
  bound env last
  let stop ← alloc .int
  edit (·.store .int stop)
  counting i stop body

/-- What is done in the scope of the variable of a range. -/
def ranging (env : Env) (tok : Token) (name : Text) (first last : Expr) (body : LoopLabels → Gen Unit) :
    Gen Unit := do
  bound env first
  let i ← declare env tok name .int false
  edit (·.store .int i.slot)
  countTo env i.slot last body

theorem forRange_eq (env : Env) (tok : Token) (name : Text) (first last : Expr)
    (body : LoopLabels → Gen Unit) :
    forRange env tok name first last body = inScope (ranging env tok name first last body) := rfl

/-- What an arm does with a value that is of its type. -/
def taken (env : Env) (tok : Token) (name : Text) (t : Ty) (value : Nat) (body : Gen Unit) : Gen Unit :=
  inScope do
    edit (·.load .object value)
    edit (·.type .checkcast (instanceClass t))
    if let .prim p := t then unbox p
    let v ← declare env tok name t false
    store v
    body

theorem arm_eq (env : Env) (tok : Token) (name : Text) (t : Ty) (value : Nat) (done : Label)
    (body : Gen Unit) : arm env tok name t value done body = (do
      let next ← newLabel
      edit (·.load .object value)
      edit (·.type .instanceof (instanceClass t))
      jump .ifeq next
      taken env tok name t value body
      again done
      bind next) := rfl

namespace Pass

/-- The loops around do not matter. -/
def inLoop {env : Env} {ι : Type} [Preorder ι] (P : Pass env ι) (loops : List LoopLabels) :
    Pass { env with loops := loops } ι :=
  { P with
    composes := fun d i => { P.composes d i with }
    declareLocal := P.declareLocal
    declareStore := P.declareStore }

section
variable {env : Env} {ι : Type} [Preorder ι] (P : Pass env ι) {d : Nat} {i : ι} {tok : Token}

theorem expr (hx : x.At P.Place) (mode : Mode) : P.Holds d i (expr env x mode) :=
  P.toExprPass.expr hx mode fun name _ => P.target name

/-! ### Loops and cases -/

theorem branch (htok : tok.At P.Place) : P.Holds d i (branch env tok) := by
  unfold Gen.branch
  split
  · exact P.refuse htok _
  · exact P.jump rfl _

theorem again (top : Label) : P.Holds d i (again top) := by
  refine P.andThen (P.quiet quiet_isReachable) fun live => ?_
  split
  · exact P.jump rfl top
  · exact P.pure _

theorem bound (hx : x.At P.Place) : P.Holds d i (bound env x) :=
  (P.composes d i).bound hx (P.expr hx _)

theorem counting (hv : P.Taken i .int v) (hstop : P.Taken i .int stop)
    (hbody : ∀ l j, P.Holds d j (body l)) :
    P.Holds d i (counting v stop body) := by
  refine P.newLabel fun k₁ top hk₁ htop => P.newLabel fun k₂ next hk₂ hnext => ?_
  refine P.newLabel fun k₃ leave hk₃ hleave => ?_
  have hv : P.Taken k₃ .int v := P.taken_mono (hk₁.trans (hk₂.trans hk₃)) hv
  have hstop : P.Taken k₃ .int stop := P.taken_mono (hk₁.trans (hk₂.trans hk₃)) hstop
  refine P.andThen (P.bindLabel (P.own_mono (hk₂.trans hk₃) htop)) fun _ => ?_
  refine P.andThen (P.loadSlot hv) fun _ => P.andThen (P.loadSlot hstop) fun _ => ?_
  refine P.andThen (P.jump rfl leave) fun _ => P.andThen (hbody _ _) fun _ => ?_
  refine P.andThen (P.bindLabel (P.own_mono hk₃ hnext)) fun _ => ?_
  refine P.andThen (P.quiet quiet_isReachable) fun live => ?_
  dsimp only
  split
  · refine P.andThen (P.incSlot hv 1) fun _ => P.andThen (P.jump rfl top) fun _ => ?_
    exact P.bindLabel hleave
  · exact P.bindLabel hleave

theorem countTo (hv : P.Taken i .int v) (hlast : last.At P.Place)
    (hbody : ∀ l j, P.Holds d j (body l)) :
    P.Holds d i (countTo env v last body) := by
  refine P.andThen (P.bound hlast) fun _ => P.alloc fun k stop hk hstop => ?_
  exact P.andThen (P.storeSlot hstop) fun _ => P.counting (P.taken_mono hk hv) hstop hbody

section
variable (htok : tok.At P.Place) (name : Text) {first last : Expr} (hfirst : first.At P.Place)
  (hlast : last.At P.Place) {body : LoopLabels → Gen Unit}
include htok hfirst hlast

theorem ranging (hd : 2 ≤ d) (hbody : ∀ l j, P.Holds d j (body l)) :
    P.Holds d i (ranging env tok name first last body) := by
  refine P.andThen (P.bound hfirst) fun _ => P.declareLocal name false htok hd fun j v _ hv => ?_
  exact P.andThen (P.storeSlot hv) fun _ => P.countTo hv hlast hbody

theorem forRange (hd : 1 ≤ d) (hbody : ∀ l j, P.Holds (d + 1) j (body l)) :
    P.Holds d i (forRange env tok name first last body) := by
  rw [forRange_eq]
  exact P.inScope (P.ranging htok name hfirst hlast (Nat.succ_le_succ hd) hbody)

end

theorem forEach (hd : 1 ≤ d) (htok : tok.At P.Place) (name : Text) (hiter : iter.At P.Place)
    (hbody : ∀ l j, P.Holds (d + 1) j (body l)) :
    P.Holds d i (forEach env tok name iter body) := by
  refine P.inScope (P.andThen (P.expr hiter _) fun t => ?_)
  refine P.optional (P.refuse hiter.tok _) fun _ => P.after (quiet_invoke _ _ _ _) fun _ => ?_
  refine P.declareLocal name false htok (by omega) fun j v _ hv => ?_
  refine P.alloc fun k it hk hit => ?_
  refine P.andThen (P.storeSlot hit) fun _ => ?_
  refine P.newLabel fun k₁ top hk₁ htop => P.newLabel fun k₂ leave hk₂ hleave => ?_
  have hv : P.Taken k₂ .object v.slot := P.taken_mono (hk.trans (hk₁.trans hk₂)) hv
  have hit : P.Taken k₂ .object it := P.taken_mono (hk₁.trans hk₂) hit
  refine P.andThen (P.bindLabel (P.own_mono hk₂ htop)) fun _ => P.andThen (P.loadSlot hit) fun _ => ?_
  refine P.after (quiet_invoke _ _ _ _) fun _ => P.andThen (P.jump rfl leave) fun _ => ?_
  refine P.andThen (P.loadSlot hit) fun _ => P.after (quiet_invoke _ _ _ _) fun _ => ?_
  refine P.andThen (P.storeSlot hv) fun _ => P.andThen (hbody _ _) fun _ => ?_
  exact P.andThen (P.again top) fun _ => P.bindLabel hleave

theorem taken (htok : tok.At P.Place) (name : Text) (t : Ty) (hvalue : P.Taken i .object value)
    (hbody : ∀ j, P.Holds (d + 1) j body) : P.Holds d i (taken env tok name t value body) := by
  have hrest : P.Holds (d + 1) i (do
      let v ← declare env tok name t false
      store v
      body) :=
    P.declareStore false false htok (P.unnamed _ name) fun j _ => hbody j
  refine P.inScope (P.andThen (P.loadSlot hvalue) fun _ => ?_)
  refine P.after (quiet_edit fun c => c.quiet_type (by decide) _) fun _ => ?_
  dsimp only
  split
  · exact P.after (quiet_unbox _) fun _ => hrest
  · exact hrest

theorem arm (htok : tok.At P.Place) (name : Text) (t : Ty) (hvalue : P.Taken i .object value)
    (done : Label) (hbody : ∀ j, P.Holds (d + 1) j body) :
    P.Holds d i (arm env tok name t value done body) := by
  rw [arm_eq]
  refine P.newLabel fun j next hj hnext => ?_
  have hvalue : P.Taken j .object value := P.taken_mono hj hvalue
  refine P.andThen (P.loadSlot hvalue) fun _ => ?_
  refine P.after (quiet_edit fun c => c.quiet_type (by decide) _) fun _ => ?_
  refine P.andThen (P.jump rfl next) fun _ => P.andThen (P.taken htok name t hvalue hbody) fun _ => ?_
  exact P.andThen (P.again done) fun _ => P.bindLabel hnext

theorem varDecl (hdecl : decl.At P.Place) : P.Holds d i (varDecl env decl) := by
  rw [varDecl_eq]
  refine P.andThen ((P.composes d i).declaredValue hdecl (P.expr hdecl.value _)) fun t => ?_
  have h : P.Holds d i (do
      let v ← declare env decl.tok decl.name t decl.const
      if false then edit (·.dup t 0)
      store v
      return ()) :=
    P.declareStore _ false hdecl.tok (P.unnamed _ _) fun _ _ => P.pure _
  simpa using h

end

/-! ### Statements -/

mutual

theorem stmt [Preorder ι] (P : Pass env ι) (hd : 1 ≤ d)
    (h : st.At P.Place) : P.Holds d i (stmt env st) := by
  have htok := h.tok
  rw [Stmt.At.eq_def] at h
  cases st with
  | expr x =>
    rw [Gen.stmt]
    exact P.discard (P.expr h _)
  | var decl =>
    rw [Gen.stmt]
    exact P.varDecl h
  | block b =>
    rw [Gen.stmt]
    exact P.block h
  | cond c =>
    rw [Gen.stmt]
    exact P.ifStmt h
  | loop tok x body =>
    rw [Gen.stmt]
    refine P.newLabel fun j top _ htop => P.newLabel fun k leave hk hleave => ?_
    refine P.andThen (P.bindLabel (P.own_mono hk htop)) fun _ => ?_
    refine P.andThen (P.discard (P.expr h.2.1 _)) fun _ => ?_
    refine P.andThen ((P.inLoop _).block h.2.2) fun _ => P.andThen (P.again top) fun _ => ?_
    exact P.bindLabel hleave
  | each tok name iter body =>
    have hbody (l : LoopLabels) (j : ι) :
        P.Holds (d + 1) j (Gen.block { env with loops := l :: env.loops } body) :=
      (P.inLoop _).block h.2.2
    have hiter := h.2.1
    by_cases hrange : ∃ tok' first last, iter = .binary tok' .range first last
    · obtain ⟨tok', first, last, rfl⟩ := hrange
      rw [Gen.stmt]
      exact P.forRange htok name hiter.2.1 hiter.2.2 hd hbody
    · rw [Gen.stmt]
      · exact P.forEach hd htok name hiter hbody
      · exact fun tok' first last h => hrange ⟨tok', first, last, h⟩
  | case tok x arms =>
    rw [Gen.stmt]
    refine P.after (quiet_caseTypes htok h.2.1 h.2.2) fun types => P.inScope ?_
    refine P.andThen (P.discard (P.expr h.2.1 _)) fun _ => P.alloc fun j value _ hvalue => ?_
    refine P.andThen (P.storeSlot hvalue) fun _ => P.newLabel fun k done hk hdone => ?_
    refine P.andThen (P.caseArms h.2.2 types (P.taken_mono hk hvalue) done) fun _ => ?_
    exact P.bindLabel hdone
  | ret tok value =>
    rw [Gen.stmt]
    exact (P.composes d i).returnStmt htok fun x hx => P.expr (h.2 x hx) .value
  | branch tok =>
    rw [Gen.stmt]
    exact P.branch htok
  | func _ | struct _ | typeAlias _ | use _ =>
    rw [Gen.stmt]
    exact P.refuse htok _

theorem stmts [Preorder ι] (P : Pass env ι) (hd : 1 ≤ d)
    (h : Stmt.AllAt P.Place ss) : P.Holds d i (stmts env ss) := by
  cases ss with
  | nil =>
    rw [Gen.stmts]
    exact P.pure _
  | cons st ss =>
    rw [Gen.stmts]
    refine P.andThen (P.quiet quiet_isReachable) fun live => ?_
    split
    · exact P.andThen (P.stmt hd h.1) fun _ => P.stmts hd h.2
    · exact P.pure _

theorem block [Preorder ι] (P : Pass env ι)
    (h : b.At P.Place) : P.Holds d i (block env b) := by
  cases b with
  | mk _ ss =>
    rw [Gen.block]
    exact P.inScope (P.stmts (Nat.le_add_left _ _) h.2)

theorem ifStmt [Preorder ι] (P : Pass env ι)
    (h : c.At P.Place) : P.Holds d i (ifStmt env c) := by
  cases c with
  | mk _ x body other =>
    rw [Gen.ifStmt]
    refine P.newLabel fun j otherwise _ hown => P.andThen (P.discard (P.expr h.2.1 _)) fun _ => ?_
    exact P.andThen (P.block h.2.2.1) fun _ => P.elseBranch h.2.2.2 hown

theorem elseBranch [Preorder ι] (P : Pass env ι)
    (h : e.At P.Place) (hstart : P.Own i start) :
    P.Holds d i (elseBranch env e start) := by
  cases e with
  | none =>
    rw [Gen.elseBranch]
    exact P.bindLabel hstart
  | block b =>
    rw [Gen.elseBranch]
    refine P.newLabel fun j done hj hdone => P.andThen (P.again done) fun _ => ?_
    refine P.andThen (P.bindLabel (P.own_mono hj hstart)) fun _ => P.andThen (P.block h) fun _ => ?_
    exact P.bindLabel hdone
  | cond c =>
    rw [Gen.elseBranch]
    refine P.newLabel fun j done hj hdone => P.andThen (P.again done) fun _ => ?_
    refine P.andThen (P.bindLabel (P.own_mono hj hstart)) fun _ => P.andThen (P.ifStmt h) fun _ => ?_
    exact P.bindLabel hdone

theorem caseArms [Preorder ι] (P : Pass env ι)
    (h : CaseArm.AllAt P.Place arms) (types : List Ty)
    (hvalue : P.Taken i .object value) (done : Label) :
    P.Holds d i (caseArms env arms types value done) := by
  cases arms with
  | nil =>
    rw [Gen.caseArms]
    exact P.pure _
  | cons a arms =>
    rw [Gen.caseArms]
    refine P.andThen (P.caseArm h.1 (types.headD .void) hvalue done) fun _ => ?_
    exact P.caseArms h.2 types.tail hvalue done

theorem caseArm [Preorder ι] (P : Pass env ι)
    (h : a.At P.Place) (t : Ty) (hvalue : P.Taken i .object value) (done : Label) :
    P.Holds d i (caseArm env a t value done) := by
  cases a with
  | mk tok _ name body =>
    cases body with
    | mk _ ss =>
      rw [Gen.caseArm]
      exact P.arm h.1 name t hvalue done fun j => P.stmts (Nat.le_add_left _ _) h.2.2.2

end

end Pass

end Classwright.Gen
