import Classwright.Body.Stmt
import Classwright.Proofs.Code.Locals
import Classwright.Proofs.Failure
import Mathlib.Logic.Relation

/-!
How the code of operators is put together. Most of it neither uses local variables nor writes to
static fields nor jumps, and is refused at a token of the tree only (`Gen.Quiet`). What holds of all such
code and of one thing after another (`Gen.Composes`) therefore holds of an operator as soon as it holds of
its operands.
-/

namespace Classwright

namespace Gen

/-! ### Outcomes -/

/-- What holds after writing code, if that succeeds. -/
def After (m : Gen α) (b : Body) (Q : α → Body → Prop) : Prop := ∀ a b', m b = .ok (a, b') → Q a b'

section
variable {α β : Type} {b : Body} {Q : β → Body → Prop}

theorem After.mono (h : After m b P)
    (hPR : ∀ a b', P a b' → R a b') : After m b R :=
  fun a b' hm => hPR a b' (h a b' hm)

theorem After.of_eq (hm : m b = .ok (a, b')) (h : Q a b') :
    After m b Q := by
  intro a' b'' hm'
  cases hm.symm.trans hm'
  exact h

theorem After.of_error (hm : m b = .error e) : After m b Q := by
  intro a b' hm'
  cases hm.symm.trans hm'

theorem After.bind (h : After m b fun a b' => After (f a) b' Q) :
    After (m >>= f) b Q := by
  intro y b'' hm
  obtain ⟨⟨a, b'⟩, ha, hf⟩ := bind_eq_ok hm
  exact h a b' ha y b'' hf

theorem After.discard (h : After m b fun _ b' => R ⟨⟩ b') :
    After (Functor.discard m) b R :=
  .bind (h.mono fun _ _ h' => .of_eq rfl h')

theorem After.lift {x : Compiled β} (h : ∀ a, x = .ok a → Q a b) : After (liftM x) b Q := by
  intro a b' hm
  obtain ⟨y, hy, hf⟩ := bind_eq_ok hm
  cases hf
  exact h a hy

end

/-! ### Quiet actions -/

/-- Writing code that neither uses local variables nor writes to static fields nor jumps, changes
nothing but the code, and fails at places only. -/
structure Quiet (P : Int → Int → Prop) (m : Gen α) : Prop where
  after (b : Body) : After m b fun _ b' =>
    ∃ c, Relation.ReflTransGen Code.Quiet b.code c ∧ b' = { b with code := c }
  fails (b : Body) : FailsAt P (m b)

section
variable {α β : Type} {P : Int → Int → Prop} {m : Gen α} {f : α → Gen β}

theorem quiet_pure (a : α) : Quiet P (Pure.pure a) :=
  ⟨fun _ => .of_eq rfl ⟨_, .refl, rfl⟩, fun _ => .ok _⟩

theorem quiet_throw (h : e.At P) : Quiet P (MonadExcept.throw e : Gen α) :=
  ⟨fun _ => .of_error rfl, fun _ => .error h⟩

theorem quiet_refuse (h : tok.At P) (fault : CompileFault) :
    Quiet P (Gen.refuse tok fault : Gen α) :=
  quiet_throw h

theorem quiet_lift {x : Compiled α} (h : Refused P x) : Quiet P (liftM x : Gen α) :=
  ⟨fun _ => .lift fun _ _ => ⟨_, .refl, rfl⟩, fun _ => h.failsAt.bind fun _ _ => .ok _⟩

theorem quiet_get {f : Body → Gen β} (h : ∀ b, Quiet P (f b)) : Quiet P (get >>= f) :=
  ⟨fun b => .bind (.of_eq rfl ((h b).after b)), fun b => (h b).fails b⟩

theorem Quiet.bind (h : Quiet P m) (hf : ∀ a, Quiet P (f a)) : Quiet P (m >>= f) := by
  refine ⟨fun b => .bind ((h.after b).mono fun a b₁ h₁ => ?_), fun b => ?_⟩
  · obtain ⟨c, hc, rfl⟩ := h₁
    refine ((hf a).after _).mono fun a' b₂ h₂ => ?_
    obtain ⟨c', hc', rfl⟩ := h₂
    exact ⟨c', hc.trans hc', rfl⟩
  · exact (h.fails b).bind fun r _ => (hf r.1).fails r.2

/-- What is only done under a condition. -/
theorem Quiet.optional {m : Gen PUnit} {f : PUnit → Gen β} [Decidable c] (h : Quiet P m)
    (hf : ∀ a, Quiet P (f a)) : Quiet P (if c then m >>= f else f ⟨⟩) := by
  split
  · exact h.bind hf
  · exact hf _

theorem quiet_edit {f : Code → Code} (h : ∀ c : Code, c.Quiet (f c)) : Quiet P (edit f) :=
  ⟨fun b => .of_eq rfl ⟨_, .single (h b.code), rfl⟩, fun _ => .ok _⟩

/-- An access that fails points at no token. -/
theorem failsAt_access (f : Code → Except Code.MemberError Code) (b : Body) : FailsAt P (access f b) := by
  unfold access
  split
  · exact .ok _
  · exact .error trivial

theorem quiet_access {f : Code → Except Code.MemberError Code}
    (h : ∀ c c', f c = .ok c' → c.Quiet c') : Quiet P (access f) := by
  refine ⟨fun b => ?_, failsAt_access f⟩
  cases hf : f b.code with
  | ok c => exact .of_eq (by unfold access; rw [hf]) ⟨c, .single (h _ _ hf), rfl⟩
  | error e => exact .of_error (by unfold access; rw [hf])

theorem quiet_field {op : Opcode} (hop : op ≠ .putstatic) (owner : Text) (v : Var) :
    Quiet P (field op owner v) :=
  quiet_access fun _ _ => Code.quiet_field hop

/-- Every access to a field is an instruction. -/
theorem after_field (op : Opcode) (owner : Text) (v : Var) (b : Body) :
    After (field op owner v) b fun _ b' => ∃ pop push : Nat, push ≤ 2 ∧ b' = { b with
      code := b.code.emit ⟨op, .member ⟨owner, v.name, v.type.descriptor, false⟩ pop push⟩ } := by
  intro _ b' h
  unfold field access at h
  dsimp only at h
  split at h
  · next c hc =>
    cases h
    obtain ⟨pop, push, -, hpush, rfl⟩ := Code.field_eq_ok hc
    exact ⟨pop, push, hpush, rfl⟩
  · cases h

theorem quiet_invoke (op : Opcode) (cls name desc : Text) : Quiet P (invoke op cls name desc) :=
  quiet_access fun _ _ => Code.quiet_invoke

theorem quiet_op {op : Opcode} (h : op.shape = .plain) : Quiet P (Gen.op op) :=
  quiet_edit fun c => c.quiet_op h

theorem quiet_isReachable : Quiet P isReachable := quiet_get fun _ => quiet_pure _

theorem quiet_typeOf (env : Env) {x : Expr} (hx : x.At P) : Quiet P (typeOf env x) :=
  quiet_get fun b => quiet_lift (Env.refused_typeOf b.scopes hx)

/-! #### Conversions -/

theorem quiet_convertPrim (p q : Prim) (narrow : Bool) : Quiet P (convertPrim p q narrow) := by
  have hconversion {op : Opcode} (h : p.numberKind.conversion? q.numberKind = some op) :
      op.shape = .plain := by
    revert h
    cases p.numberKind <;> cases q.numberKind <;> rintro ⟨⟩ <;> rfl
  have hnarrowing {op : Opcode} (h : p.narrowing? q = some op) : op.shape = .plain := by
    revert h
    cases p <;> cases q <;> rintro ⟨⟩ <;> rfl
  unfold Gen.convertPrim
  split
  · exact quiet_pure _
  · dsimp only
    split
    · next hop =>
      refine (quiet_op (hconversion hop)).bind fun _ => ?_
      split
      · split
        · next hop => exact quiet_op (hnarrowing hop)
        · exact quiet_pure _
      · exact quiet_pure _
    · split
      · split
        · next hop => exact quiet_op (hnarrowing hop)
        · exact quiet_pure _
      · exact quiet_pure _

theorem quiet_box (p : Prim) : Quiet P (box p) := quiet_invoke _ _ _ _

theorem quiet_unbox (p : Prim) : Quiet P (unbox p) := quiet_invoke _ _ _ _

theorem quiet_conv (source target : Ty) (narrow : Bool) : Quiet P (conv source target narrow) := by
  unfold Gen.conv
  split
  · exact quiet_pure _
  · cases target with
    | prim p =>
      dsimp only
      split
      · exact quiet_convertPrim _ _ _
      · exact quiet_throw trivial
    | null => exact quiet_pure _
    | nullable t => exact quiet_conv source t narrow
    | cls name =>
      dsimp only
      split
      · split
        · exact (quiet_convertPrim _ _ _).bind fun _ => quiet_box _
        · exact quiet_box _
      · exact quiet_pure _
    | union ts =>
      dsimp only
      split
      · exact quiet_pure _
      · split
        · exact quiet_throw trivial
        · next m _ hm =>
          have hmem := Ty.mem_of_select? hm
          refine (quiet_conv source m narrow).bind fun _ => ?_
          split
          · exact quiet_box _
          · exact quiet_pure _
    | method ins out => exact quiet_throw trivial
  termination_by sizeOf target

theorem quiet_convert (source target : Ty) : Quiet P (convert source target) := quiet_conv _ _ _

end

/-! ### Opcodes of operators -/

/-- The instruction of an operator has no operand; one for bits is not used on fractions. -/
theorem shape_arithOpcode {op : BinaryOp} (h : op.type? l r = some t) :
    ((arithOpcode op).forNumber t).shape = .plain := by
  have hall : op ≠ .xor → ∀ t, ((arithOpcode op).forNumber t).shape = .plain := by
    intro hop t
    cases t with
    | prim p => cases p <;> cases op <;> first | decide | exact absurd rfl hop
    | _ => cases op <;> rfl
  cases op with
  | xor =>
    unfold BinaryOp.type? at h
    dsimp only at h
    split at h
    · cases h
      decide
    · obtain ⟨p, hp, rfl⟩ := Option.map_eq_some_iff.1 h
      obtain ⟨-, hint⟩ := Option.filter_eq_some_iff.1 hp
      cases p <;> first | decide | cases hint
  | _ => exact hall nofun t

theorem shape_floatComparison (op : BinaryOp) (p : Prim) : (floatComparison op p).shape = .plain := by
  unfold floatComparison
  dsimp only
  split <;> split <;> decide

/-- A jump, or the one on the opposite condition. -/
def jumpFor (op : Opcode) (h : op.isJump = true ∧ op.negate.isJump = true) (jumpIf : Bool) :
    { op : Opcode // op.isJump = true } :=
  if jumpIf then ⟨op, h.1⟩ else ⟨op.negate, h.2⟩

theorem isJump_comparisonJump (op : BinaryOp) :
    ((comparisonJump op).isJump = true ∧ (comparisonJump op).negate.isJump = true) ∧
      ((comparisonJump op).negate.isJump = true ∧ (comparisonJump op).negate.negate.isJump = true) ∧
      ((onPair (comparisonJump op)).isJump = true ∧
        (onPair (comparisonJump op)).negate.isJump = true) := by
  cases op <;> decide

/-- The part of a comparison before its jump. -/
def compared (tok : Token) (op : BinaryOp) (l r : Ty) (left right : Gen Unit) (jumpIf : Bool) :
    Gen { op : Opcode // op.isJump = true } := do
  let _ ← Env.binaryType tok op l r
  match l.promote? r with
  | some p =>
    operands l r (.prim p) left right
    if p = .long then
      Gen.op .lcmp
      return jumpFor _ (isJump_comparisonJump op).1 jumpIf
    else if p = .float ∨ p = .double then
      Gen.op (floatComparison op p)
      return jumpFor _ (isJump_comparisonJump op).1 jumpIf
    else return jumpFor _ (isJump_comparisonJump op).2.2 jumpIf
  | none =>
    if (op == .eq || op == .ne) && l.isBool && r.isBool then
      operands l r .bool left right
      return jumpFor _ (isJump_comparisonJump op).2.2 jumpIf
    else
      operands l r .object left right
      invoke .invokestatic "java/util/Objects" "equals" "(Ljava/lang/Object;Ljava/lang/Object;)Z"
      return jumpFor _ (isJump_comparisonJump op).2.1 jumpIf

theorem jump_jumpFor {op : Opcode} (h : op.isJump = true ∧ op.negate.isJump = true) (jumpIf : Bool)
    (l : Label) : jump (jumpFor op h jumpIf).1 l = jump (if jumpIf then op else op.negate) l := by
  cases jumpIf <;> rfl

/-- A comparison first computes, and then jumps. -/
theorem comparison_eq (tok : Token) (op : BinaryOp) (l r : Ty) (left right : Gen Unit) (target : Label)
    (jumpIf : Bool) : comparison tok op l r left right target jumpIf =
      compared tok op l r left right jumpIf >>= fun op => jump op.1 target := by
  unfold comparison compared
  rw [bind_assoc]
  refine bind_congr fun _ => ?_
  cases l.promote? r with
  | some p =>
    dsimp only
    rw [bind_assoc]
    refine bind_congr fun _ => ?_
    cases p <;> simp [jump_jumpFor]
  | none =>
    dsimp only
    split
    · simp [jump_jumpFor]
    · simp [jump_jumpFor]

/-! ### Declarations -/

/-- The part of a declaration before its variable: pushing the value, which has the type of the
variable then. -/
def declaredValue (env : Env) (d : VarDecl) : Gen Ty := do
  let declared ← match d.type with
    | none => pure none
    | some r =>
      let t ← env.typeRef r
      if t.isVoid then refuse d.tok (.voidVariable d.name)
      pure (some t)
  let vt ← expr env d.value .value
  let t ← match declared with
    | some t =>
      if !t.assignable vt then refuse d.tok (.assignment vt t)
      pure t
    | none =>
      if vt.isVoid then refuse d.tok (.voidAssignment d.name)
      pure (if vt.isNull then .object else vt)
  convert vt t
  return t

/-- A declaration pushes its value before it declares its variable. -/
theorem varDecl_eq (env : Env) (d : VarDecl) : varDecl env d = (do
    let t ← declaredValue env d
    let v ← declare env d.tok d.name t d.const
    store v) := by
  have hite {α β : Type} (c : Prop) [Decidable c] (x y : Gen α) (f : α → Gen β) :
      (if c then x else y) >>= f = if c then x >>= f else y >>= f := by split <;> rfl
  unfold varDecl declaredValue
  cases d.type with
  | none => simp only [bind_assoc, pure_bind, hite]
  | some r => simp only [bind_assoc, pure_bind, hite]

/-! ### Composition -/

/-- What holds of quiet code, of one thing after another, and of loading the object at hand. -/
structure Composes (P : Int → Int → Prop) (env : Env) (K : {α : Type} → Gen α → Prop) : Prop where
  quiet {α : Type} {m : Gen α} : Quiet P m → K m
  bind {α β : Type} {m : Gen α} {f : α → Gen β} : K m → (∀ a, K (f a)) → K (m >>= f)
  lift {α β : Type} {x : Compiled α} {f : α → Gen β} :
    Refused P x → (∀ a, x = .ok a → K (f a)) → K (liftM x >>= f)
  self {s : StructType} : env.self = some s → K (edit (·.load s.type 0))

/-- It holds of what is done with a variable if that is a local or a global. -/
structure Uses (K : {α : Type} → Gen α → Prop) (v : Var) : Prop where
  load : v.kind = .local → K (edit (·.load v.type v.slot))
  store : v.kind = .local → K (edit (·.store v.type v.slot))
  inc : v.kind = .local → v.type = .int → ∀ by_ : Int, K (edit (·.inc v.slot by_))
  put : v.kind = .global → K (field .putstatic v.owner v)

namespace Composes

variable {P : Int → Int → Prop} {env : Env} {K : {α : Type} → Gen α → Prop} (h : Composes P env K)
  {tok targetTok : Token}
include h

theorem optional {f : PUnit → Gen β} [Decidable c] (hm : K m)
    (hf : ∀ a, K (f a)) : K (if c then m >>= f else f ⟨⟩) := by
  split
  · exact h.bind hm hf
  · exact hf _

theorem pure (a : α) : K (Pure.pure a) := h.quiet (quiet_pure a)

theorem after (hm : Quiet P m) (hf : ∀ a, K (f a)) :
    K (m >>= f) := h.bind (h.quiet hm) hf

theorem check {f : PUnit → Gen β} [Decidable c]
    (htok : tok.At P) (hf : ∀ a, K (f a)) : K (if c then refuse tok fault >>= f else f ⟨⟩) :=
  h.optional (h.quiet (quiet_refuse htok fault)) hf

theorem discard (hm : K m) : K (Functor.discard m) :=
  h.bind hm fun _ => h.pure _

theorem loadSelf (htok : tok.At P) (name : Text) : K (loadSelf env tok name) := by
  unfold Gen.loadSelf
  split
  · exact h.quiet (quiet_refuse htok _)
  · next hs => exact h.self hs

theorem load (htok : tok.At P) (hv : v.kind = .local → K (edit (·.load v.type v.slot))) :
    K (load env tok v) := by
  unfold Gen.load
  split
  · next hlocal => exact hv hlocal
  · exact h.quiet (quiet_field (by decide) _ _)
  · exact h.bind (h.loadSelf htok _) fun _ => h.quiet (quiet_field (by decide) _ _)

theorem store (hv : Uses K v) : K (store v) := by
  unfold Gen.store
  split
  · next hlocal => exact hv.store hlocal
  · next hglobal => exact hv.put hglobal
  · exact h.quiet (quiet_field (by decide) _ _)

theorem pushed (hm : K m) (keep : Bool) : K (pushed m keep) :=
  h.bind hm fun t => h.optional (h.quiet (quiet_edit fun c => c.quiet_drop t)) fun _ =>
    h.quiet (quiet_pure t)

/-! #### Operators -/

section
variable {left right : Gen Unit} (hleft : K left) (hright : K right)
include hleft hright

theorem operands (l r target : Ty) : K (operands l r target left right) :=
  h.bind hleft fun _ => h.after (quiet_convert _ _) fun _ =>
    h.bind hright fun _ => h.quiet (quiet_convert _ _)

theorem concat (l r : Ty) : K (concat l r left right) := by
  refine h.bind hleft fun _ => h.after (quiet_invoke _ _ _ _) fun _ => ?_
  refine h.after (quiet_edit fun c => c.quiet_type (by decide) _) fun _ => ?_
  refine h.after (quiet_op (by decide)) fun _ => ?_
  refine h.after (quiet_op (by decide)) fun _ => ?_
  refine h.after (quiet_invoke _ _ _ _) fun _ => h.bind hright fun _ => ?_
  exact h.after (quiet_invoke _ _ _ _) fun _ => h.quiet (quiet_invoke _ _ _ _)

theorem arith (htok : tok.At P) (op : BinaryOp) (l r : Ty) : K (arith tok op l r left right) := by
  refine h.lift (Env.refused_binaryType htok op l r) fun t ht => ?_
  have htype : op.type? l r = some t := by
    unfold Env.binaryType at ht
    split at ht
    · cases ht
      assumption
    · cases ht
  split
  · exact h.bind (h.concat hleft hright l r) fun _ => h.pure _
  · refine h.bind (h.operands hleft hright l r t) fun _ => ?_
    split
    · exact h.after (quiet_invoke _ _ _ _) fun _ => h.pure _
    · exact h.after (quiet_op (shape_arithOpcode htype)) fun _ => h.pure _

theorem compared (htok : tok.At P) (op : BinaryOp) (l r : Ty) (jumpIf : Bool) :
    K (compared tok op l r left right jumpIf) := by
  refine h.after (quiet_lift (Env.refused_binaryType htok op l r)) fun _ => ?_
  split
  · refine h.bind (h.operands hleft hright l r _) fun _ => ?_
    split
    · exact h.after (quiet_op (by decide)) fun _ => h.pure _
    · split
      · refine h.after (quiet_op (shape_floatComparison op _)) fun _ => ?_
        exact h.pure _
      · exact h.pure _
  · split
    · exact h.bind (h.operands hleft hright l r _) fun _ => h.pure _
    · refine h.bind (h.operands hleft hright l r _) fun _ => ?_
      exact h.after (quiet_invoke _ _ _ _) fun _ => h.pure _

end

/-! #### Assignment -/

theorem receiver (htok : tok.At P) (v : Var) : K (receiver env tok v) := by
  unfold Gen.receiver
  split
  · exact h.pure _
  · exact h.pure _
  · exact h.bind (h.loadSelf htok _) fun _ => h.pure _

/-- What is done with a variable only if it may change. -/
theorem checkVariable (htok : tok.At P) (v : Var)
    (hf : v.const = false → K (f ())) : K (checkVariable tok v >>= f) := by
  unfold Gen.checkVariable
  cases hconst : v.const with
  | true => exact h.quiet ⟨fun _ => .of_error rfl, fun _ => .error htok⟩
  | false => exact hf hconst

section
variable {target : Target} (ht : ∀ v, target = .var v → Uses K v)
include ht

theorem loadTarget (htok : tok.At P) (under : Nat) : K (loadTarget env tok target under) := by
  unfold Gen.loadTarget
  split
  · split
    · exact h.load htok (ht _ rfl).load
    · exact h.after (quiet_op (by decide)) fun _ => h.quiet (quiet_field (by decide) _ _)
  · exact h.after (quiet_op (by decide)) fun _ => h.quiet (quiet_field (by decide) _ _)

theorem storeTarget : K (storeTarget target) := by
  unfold Gen.storeTarget
  split
  · exact h.store (ht _ rfl)
  · exact h.quiet (quiet_field (by decide) _ _)

theorem assignTo (htok : tok.At P) (htarget : targetTok.At P) (op : AssignOp) (under : Nat)
    (htype : K valueType) (hvalue : K value) (keep : Bool) :
    K (assignTo env tok targetTok op target under valueType value keep) := by
  have hkeep : K (do
      if keep then edit (·.dup target.type under)
      Gen.storeTarget target
      return target.type) :=
    h.optional (h.quiet (quiet_edit fun c => c.quiet_dup _ _)) fun _ =>
      h.bind (h.storeTarget ht) fun _ => h.pure _
  unfold Gen.assignTo
  dsimp only
  split
  · refine h.bind htype fun vt => ?_
    refine h.bind (h.arith (h.loadTarget ht htarget under) (h.discard hvalue) htok _ _ vt)
      fun rt => ?_
    refine h.check htok fun _ => ?_
    exact h.after (quiet_conv _ _ _) fun _ => hkeep
  · refine h.bind hvalue fun vt => h.check htok fun _ => ?_
    exact h.after (quiet_convert _ _) fun _ => hkeep

theorem stepTarget (htok : tok.At P) (htarget : targetTok.At P) (op : StepOp) {receiver : Gen Nat}
    (hreceiver : K receiver)
    (keep : Bool) : K (stepTarget env tok targetTok op target receiver keep) := by
  unfold Gen.stepTarget
  dsimp only
  split
  · exact h.quiet (quiet_refuse htok _)
  · next p _ =>
    split
    · next hint =>
      have huse := ht _ rfl
      refine h.optional ?_ fun _ => ?_
      · rw [hint]
        exact hint ▸ huse.load rfl
      · exact h.bind (huse.inc rfl hint _) fun _ => h.pure _
    · refine h.bind hreceiver fun under => h.bind (h.loadTarget ht htarget under) fun _ => ?_
      refine h.optional (h.quiet (quiet_edit fun c => c.quiet_dup _ _)) fun _ => ?_
      refine h.after (quiet_convert _ _) fun _ => ?_
      refine h.after (quiet_edit fun c => c.quiet_const _ _) fun _ => ?_
      refine h.after (quiet_op (by cases p <;> decide)) fun _ => ?_
      refine h.after (quiet_conv _ _ _) fun _ => ?_
      exact h.bind (h.storeTarget ht) fun _ => h.pure _

end

/-! #### Calls and objects -/

theorem call (htok : tok.At P) (f : Function) {receiver : Option (Gen Unit)}
    (hreceiver : ∀ push, receiver = some push → K push) (hargs : K args) :
    K (call env tok f receiver args) := by
  have hfinal (op : Opcode) : K (do
      args
      invoke op f.owner f.name f.sig.descriptor
      return f.sig.result) :=
    h.bind hargs fun _ => h.after (quiet_invoke _ _ _ _) fun _ => h.pure _
  unfold Gen.call
  dsimp only
  split
  · exact h.after (quiet_access fun _ _ => Code.quiet_field (by decide)) fun _ => hfinal _
  · split
    · exact h.bind (hreceiver _ rfl) fun _ => hfinal _
    · next hself =>
      refine h.check htok fun _ => ?_
      exact h.bind (h.self hself) fun _ => hfinal _
    · exact h.after (quiet_refuse htok _) fun _ => hfinal _
  · exact hfinal _

theorem construction (htok : tok.At P) (htype : type.At P) (hasArgs : Bool)
    (htypes : K argTypes) : K (construction env tok type hasArgs argTypes) := by
  refine h.after (quiet_lift (Env.refused_typeName htype)) fun t => ?_
  split
  · split
    · exact h.check htok fun _ => h.pure _
    · refine h.bind htypes fun ts => ?_
      exact h.check htype fun _ => h.pure _
  · exact h.quiet (quiet_refuse htok _)

theorem arguments (hxs : ∀ x ∈ xs, K (expr env x .value)) (params : List Ty) :
    K (arguments env xs params) := by
  induction xs generalizing params with
  | nil =>
    rw [Gen.arguments]
    exact h.pure _
  | cons x xs ih =>
    rw [Gen.arguments]
    refine h.bind (hxs x (.head _)) fun t => h.after (quiet_convert _ _) fun _ => ?_
    exact ih (fun y hy => hxs y (.tail _ hy)) params.tail

theorem elements {xs : List Expr} (hxs : ∀ x ∈ xs, x.At P ∧ K (expr env x .value)) :
    K (elements env xs) := by
  induction xs with
  | nil =>
    rw [Gen.elements]
    exact h.pure _
  | cons x xs ih =>
    rw [Gen.elements]
    obtain ⟨hx, hvalue⟩ := hxs x (.head _)
    refine h.after (quiet_op (by decide)) fun _ => h.bind hvalue fun t => ?_
    refine h.check hx.tok fun _ => ?_
    refine h.after (quiet_convert _ _) fun _ => ?_
    refine h.after (quiet_invoke _ _ _ _) fun _ => ?_
    refine h.after (quiet_op (by decide)) fun _ => ?_
    exact ih fun y hy => hxs y (.tail _ hy)

/-! #### Statements -/

theorem declareAssign (htok : tok.At P) (nameTok : Token) (name : Text) (keep : Bool)
    (htype : K valueType) (hvalue : K value)
    (hdeclare : ∀ t, K (do
      let v ← declare env nameTok name t false
      if keep then edit (·.dup t 0)
      Gen.store v
      return t)) : K (declareAssign env tok nameTok name valueType value keep) := by
  refine h.bind htype fun t => h.check htok fun _ => ?_
  exact h.bind hvalue fun vt => h.after (quiet_convert _ _) fun _ => hdeclare _

theorem declaredValue (hdecl : decl.At P) (hvalue : K (expr env decl.value .value)) :
    K (declaredValue env decl) := by
  have hrest (t vt : Ty) : K (do
      convert vt t
      return t) :=
    h.after (quiet_convert _ _) fun _ => h.pure _
  unfold Gen.declaredValue
  dsimp only
  split
  · refine h.after (quiet_pure _) fun declared => h.bind hvalue fun vt => ?_
    split <;> exact h.check hdecl.tok fun _ => hrest _ vt
  · next r hr =>
    refine h.after (quiet_lift (Env.refused_typeRef (hdecl.type r hr))) fun t => ?_
    refine h.check hdecl.tok fun _ => ?_
    refine h.after (quiet_pure _) fun declared => h.bind hvalue fun vt => ?_
    split <;> exact h.check hdecl.tok fun _ => hrest _ vt

theorem returnStmt (htok : tok.At P) {value : Option Expr}
    (hvalue : ∀ x, value = some x → K (expr env x .value)) : K (returnStmt env tok value) := by
  unfold Gen.returnStmt
  refine h.check htok fun _ => ?_
  refine h.after (quiet_get fun b => quiet_pure b) fun b => ?_
  dsimp only
  split
  · refine h.check htok fun _ => ?_
    exact h.quiet (quiet_edit fun c => c.quiet_ret _)
  · refine h.check htok fun _ => h.bind (hvalue _ rfl) fun t => ?_
    refine h.check htok fun _ => ?_
    refine h.after (quiet_convert _ _) fun _ => ?_
    exact h.quiet (quiet_edit fun c => c.quiet_ret _)

theorem bound (hx : x.At P) (hvalue : K (expr env x .value)) : K (bound env x) :=
  h.bind hvalue fun _ => h.check hx.tok fun _ => h.quiet (quiet_convert _ _)

end Composes

section
variable {P : Int → Int → Prop} {env : Env}

theorem quiet_armTypes (union : Ty) (members seen : List Ty)
    (harms : CaseArm.AllAt P arms) : Quiet P (armTypes env union members seen arms) := by
  induction arms generalizing seen with
  | nil => exact quiet_pure _
  | cons a arms ih =>
    rw [CaseArm.AllAt] at harms
    have htype := harms.1.type
    refine (quiet_lift (Env.refused_typeName htype)).bind fun t => ?_
    exact .optional (quiet_refuse htype _) fun _ => .optional (quiet_refuse htype _) fun _ =>
      ih _ harms.2

theorem quiet_caseTypes (htok : tok.At P) (hx : x.At P)
    (harms : CaseArm.AllAt P arms) : Quiet P (caseTypes env tok x arms) := by
  refine (quiet_typeOf env hx).bind fun t => ?_
  dsimp only
  split
  all_goals
    refine (quiet_pure _).bind fun t => ?_
    split
    · refine (quiet_armTypes _ _ _ harms).bind fun types => ?_
      exact .optional (quiet_refuse htok _) fun _ => quiet_pure _
    · exact quiet_refuse hx.tok _

end

end Gen

end Classwright
