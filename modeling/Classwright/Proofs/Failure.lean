import Classwright.Proofs.Outcome
import Classwright.Proofs.Syntax.Located
import Classwright.Typing

/-!
How compiling fails. Failures for the stack are about depths that disagree while code is written, or in
the search through its control flow. What is refused points at a token. Finding names, types and functions
fails in the second way only, at a token of the tree that it is about (`Refused`).
-/

namespace Classwright

/-- Whether code is refused for what it does with the stack. -/
def BuildCause.isStack : BuildCause → Bool
  | .flow _ | .assemble (.tracking _) => true
  | .assemble _ => false

def Failure.isStack : Failure → Bool
  | .build e => e.cause.isStack
  | .within _ e => e.isStack
  | _ => false

/-- A computation does not fail for the stack. -/
def StackSafe (x : Compiled α) : Prop := ∀ e, x = .error e → e.isStack = false

theorem StackSafe.ok (a : α) : StackSafe (.ok a) := nofun

theorem StackSafe.error (h : e.isStack = false) : StackSafe (.error e : Compiled α) := by
  rintro _ ⟨⟩
  exact h

theorem StackSafe.refuse (tok : Token) (fault : CompileFault) :
    StackSafe (refuse tok fault : Compiled α) := .error rfl

theorem StackSafe.bind (hx : StackSafe x)
    (hf : ∀ a, x = .ok a → StackSafe (f a)) : StackSafe (x >>= f) := by
  cases x with
  | error e => exact fun e' he => hx e' (by cases he; rfl)
  | ok a => exact hf a rfl

/-- A computation does not fail for the stack, and its outcome satisfies a condition if there is
one. -/
def Yields (x : Compiled α) (Q : α → Prop) : Prop := StackSafe x ∧ ∀ a, x = .ok a → Q a

theorem Yields.of_safe (hx : StackSafe x) (h : ∀ a, x = .ok a → Q a) :
    Yields x Q := ⟨hx, h⟩

theorem Yields.mono (h : Yields x P) (hPQ : ∀ a, P a → Q a) :
    Yields x Q := ⟨h.1, fun a ha => hPQ a (h.2 a ha)⟩

/-! ### Places of failures -/

/-- A failure that is about a token is so at a place. No failure here is one to find tokens. -/
def Failure.At (P : Int → Int → Prop) : Failure → Prop
  | .lex _ => False
  | .parse e => e.tok.At P
  | .compile tok _ => tok.At P
  | .within _ e => e.At P
  | _ => True

/-- A computation fails at places only. -/
def FailsAt (P : Int → Int → Prop) (x : Compiled α) : Prop := ∀ e, x = .error e → e.At P

variable {P : Int → Int → Prop}

theorem FailsAt.ok (a : α) : FailsAt P (.ok a) := nofun

theorem FailsAt.error (h : e.At P) : FailsAt P (.error e : Compiled α) := by
  rintro _ ⟨⟩
  exact h

theorem FailsAt.refuse (h : tok.At P) (fault : CompileFault) :
    FailsAt P (refuse tok fault : Compiled α) := .error h

theorem FailsAt.bind (hx : FailsAt P x)
    (hf : ∀ a, x = .ok a → FailsAt P (f a)) : FailsAt P (x >>= f) := by
  cases x with
  | error e => exact .error (hx e rfl)
  | ok a => exact hf a rfl

/-- A computation fails at places only, and not for the stack. -/
structure Refused (P : Int → Int → Prop) (x : Compiled α) : Prop where
  failsAt : FailsAt P x
  stackSafe : StackSafe x

theorem Refused.ok (a : α) : Refused P (.ok a) := ⟨.ok a, .ok a⟩

theorem Refused.refuse (h : tok.At P) (fault : CompileFault) :
    Refused P (refuse tok fault : Compiled α) := ⟨.refuse h fault, .refuse tok fault⟩

theorem Refused.bind (hx : Refused P x)
    (hf : ∀ a, Refused P (f a)) : Refused P (x >>= f) :=
  ⟨hx.failsAt.bind fun a _ => (hf a).failsAt, hx.stackSafe.bind fun a _ => (hf a).stackSafe⟩

theorem Refused.check [Decidable c] {x : Compiled PUnit}
    (hx : Refused P x) (hf : ∀ a, Refused P (f a)) : Refused P (if c then x >>= f else f ⟨⟩) := by
  split
  · exact hx.bind hf
  · exact hf _

namespace Env

variable {env : Env} {tok : Token}

/-- A literal that stands for nothing is a part of the expression that is folded. -/
theorem at_of_fold {x : Expr} (hx : x.At P) (h : x.fold = .error e) :
    e.tok.At P := by
  induction x using Expr.fold.induct generalizing e with
  | case1 t =>
    rw [Expr.At] at hx
    rw [Expr.fold, Constant.ofToken] at h
    split at h
    · cases h
      exact hx
    · cases h
  | case2 _ op x ih =>
    rw [Expr.At] at hx
    rw [Expr.fold] at h
    cases hfold : x.fold with
    | error e' =>
      rw [hfold] at h
      cases h
      exact ih hx.2 hfold
    | ok a =>
      rw [hfold] at h
      cases h
  | case3 _ op x y ihx ihy =>
    rw [Expr.At] at hx
    rw [Expr.fold] at h
    cases hfold : x.fold with
    | error e' =>
      rw [hfold] at h
      cases h
      exact ihx hx.2.1 hfold
    | ok a =>
      rw [hfold] at h
      cases a with
      | none => cases h
      | some a =>
        cases hfold' : y.fold with
        | error e' =>
          rw [hfold'] at h
          cases h
          exact ihy hx.2.2 hfold'
        | ok b =>
          rw [hfold'] at h
          cases h
  | case4 x h1 h2 h3 =>
    rw [Expr.fold] at h
    · cases h
    all_goals assumption

theorem refused_fold {x : Expr} (hx : x.At P) : Refused P (fold x) := by
  unfold fold
  split
  · exact .ok _
  · next h => exact .refuse (at_of_fold hx h) _

theorem refused_variable (htok : tok.At P) (s : Scopes) (name : Text) :
    Refused P (variable_ s tok name) := by
  unfold variable_
  split
  · exact .ok _
  · exact .refuse htok _

theorem refused_unaryType (htok : tok.At P) (op : UnaryOp) (t : Ty) :
    Refused P (unaryType tok op t) := by
  unfold unaryType
  split
  · exact .ok _
  · exact .refuse htok _

theorem refused_binaryType (htok : tok.At P) (op : BinaryOp) (l r : Ty) :
    Refused P (binaryType tok op l r) := by
  unfold binaryType
  split
  · exact .ok _
  · exact .refuse htok _

theorem refused_property (htok : tok.At P) (t : Ty) (name : Text) :
    Refused P (env.property tok t name) := by
  unfold property
  split
  · exact .refuse htok _
  · split
    · exact .refuse htok _
    · exact .ok _

theorem refused_function (htok : tok.At P) (name : Text) (args : List Ty) :
    Refused P (env.function tok name args) := by
  unfold function
  dsimp only
  split
  · exact .ok _
  · exact .refuse htok _

theorem refused_method (htok : tok.At P) (t : Ty) (name : Text) (args : List Ty) :
    Refused P (env.method tok t name args) := by
  unfold method
  split
  · exact .refuse htok _
  · split
    · exact .ok _
    · exact .refuse htok _

/-! ### Types as they are written -/

theorem refused_named (htok : tok.At P) (name : Text) : Refused P (env.named tok name) := by
  unfold named
  dsimp only
  split
  · exact .ok _
  · exact .refuse htok _

theorem refused_nullable (htok : tok.At P) (t : Ty) : Refused P (nullable tok t) := by
  unfold nullable
  split
  · exact .refuse htok _
  all_goals exact .ok _

theorem refused_typeName (hn : n.At P) : Refused P (env.typeName n) := by
  have hmark (t : Ty) : Refused P (if n.nullable then nullable n.tok t else return t) := by
    split
    · exact refused_nullable hn t
    · exact .ok t
  unfold typeName
  dsimp only
  split
  · exact .bind (.ok _) fun t => hmark t
  · exact .bind (refused_named hn _) fun t => hmark t

theorem refused_unionMembers (hns : ∀ n ∈ ns, n.At P) :
    Refused P (env.unionMembers ns) := by
  induction ns with
  | nil => exact .ok _
  | cons n ns ih =>
    rw [List.forall_mem_cons] at hns
    refine .bind (refused_typeName hns.1) fun t => .check (.refuse hns.1 _) fun _ => ?_
    exact .bind (ih hns.2) fun _ => .ok _

theorem refused_typeRef (hr : r.At P) : Refused P (env.typeRef r) := by
  unfold typeRef
  split
  · exact refused_typeName (hr _ (.head _))
  · exact .bind (refused_unionMembers hr) fun _ => .ok _

theorem refused_params (hps : ∀ p ∈ ps, p.At P) : Refused P (env.params ps) := by
  induction ps with
  | nil => exact .ok _
  | cons p ps ih =>
    rw [List.forall_mem_cons] at hps
    refine .bind (refused_typeRef hps.1.type) fun t => .check (.refuse hps.1.tok _) fun _ => ?_
    exact .bind (ih hps.2) fun _ => .ok _

theorem refused_signature (hd : d.At P) : Refused P (env.signature d) := by
  obtain ⟨-, hparams, hresult, -⟩ := FuncDecl.at_iff.1 hd
  refine .bind (refused_params hparams) fun ins => ?_
  split
  · exact .ok _
  · next r hr => exact .bind (refused_typeRef (hresult r hr)) fun _ => .ok _

/-! ### Types of expressions -/

mutual

theorem refused_typeOf (s : Scopes) (hx : x.At P) : Refused P (env.typeOf s x) := by
  rw [typeOf.eq_def]
  refine .bind (refused_fold hx) fun c => ?_
  cases c with
  | some c => exact .ok _
  | none =>
    rw [Expr.At.eq_def] at hx
    match x with
    | .literal _ | .list _ _ => exact .ok _
    | .ident tok name => exact .bind (refused_variable hx s name) fun _ => .ok _
    | .unary tok op y => exact .bind (refused_typeOf s hx.2) fun t => refused_unaryType hx.1 op t
    | .step _ _ y => exact refused_typeOf s hx.2
    | .binary tok op y z =>
      exact .bind (refused_typeOf s hx.2.1) fun l => .bind (refused_typeOf s hx.2.2) fun r =>
        refused_binaryType hx.1 op l r
    | .assign _ _ (.ident _ name) value =>
      dsimp only
      split
      · exact .ok _
      · exact refused_typeOf s hx.2.2
    | .assign _ _ (.property tok y name) _ =>
      have htarget := hx.2.1
      rw [Expr.At] at htarget
      exact .bind (refused_typeOf s htarget.2) fun t => .bind (refused_property htarget.1 t name)
        fun _ => .ok _
    | .assign _ _ (.literal _) value | .assign _ _ (.unary _ _ _) value
    | .assign _ _ (.step _ _ _) value | .assign _ _ (.binary _ _ _ _) value
    | .assign _ _ (.assign _ _ _ _) value | .assign _ _ (.call _ _ _) value
    | .assign _ _ (.construct _ _ _) value | .assign _ _ (.list _ _) value =>
      exact refused_typeOf s hx.2.2
    | .call tok callee args =>
      refine .bind (refused_typesOf s hx.2.2) fun ts => ?_
      have hcallee := hx.2.1
      cases callee with
      | ident _ name =>
        rw [Expr.At] at hcallee
        exact .bind (refused_function hcallee _ ts) fun _ => .ok _
      | property _ y name =>
        rw [Expr.At] at hcallee
        exact .bind (refused_typeOf s hcallee.2) fun t => .bind (refused_method hcallee.1 t name ts)
          fun _ => .ok _
      | _ => exact .refuse hx.1 _
    | .property tok y name =>
      exact .bind (refused_typeOf s hx.2) fun t => .bind (refused_property hx.1 t name) fun _ => .ok _
    | .construct _ type _ => exact refused_typeName hx.2.1

theorem refused_typesOf (s : Scopes) (hxs : Expr.AllAt P xs) :
    Refused P (env.typesOf s xs) := by
  match xs with
  | [] =>
    rw [typesOf]
    exact .ok _
  | x :: xs =>
    rw [typesOf]
    exact .bind (refused_typeOf s hxs.1) fun _ => .bind (refused_typesOf s hxs.2) fun _ => .ok _

end

/-! ### The stack -/

theorem stackSafe_fold (x : Expr) : StackSafe (fold x) := (refused_fold x.at_true).stackSafe

theorem stackSafe_variable (s : Scopes) (tok : Token) (name : Text) :
    StackSafe (variable_ s tok name) :=
  (refused_variable (P := fun _ _ => True) trivial s name).stackSafe

theorem stackSafe_unaryType (tok : Token) (op : UnaryOp) (t : Ty) :
    StackSafe (unaryType tok op t) :=
  (refused_unaryType (P := fun _ _ => True) trivial op t).stackSafe

theorem stackSafe_binaryType (tok : Token) (op : BinaryOp) (l r : Ty) :
    StackSafe (binaryType tok op l r) :=
  (refused_binaryType (P := fun _ _ => True) trivial op l r).stackSafe

theorem stackSafe_property (tok : Token) (t : Ty) (name : Text) :
    StackSafe (env.property tok t name) :=
  (refused_property (P := fun _ _ => True) trivial t name).stackSafe

theorem stackSafe_function (tok : Token) (name : Text) (args : List Ty) :
    StackSafe (env.function tok name args) :=
  (refused_function (P := fun _ _ => True) trivial name args).stackSafe

theorem stackSafe_method (tok : Token) (t : Ty) (name : Text) (args : List Ty) :
    StackSafe (env.method tok t name args) :=
  (refused_method (P := fun _ _ => True) trivial t name args).stackSafe

theorem stackSafe_typeName (n : TypeName) : StackSafe (env.typeName n) :=
  (refused_typeName (P := fun _ _ => True) trivial).stackSafe

theorem stackSafe_typeRef (r : TypeRef) : StackSafe (env.typeRef r) :=
  (refused_typeRef r.at_true).stackSafe

theorem stackSafe_typeOf (s : Scopes) (x : Expr) : StackSafe (env.typeOf s x) :=
  (refused_typeOf s x.at_true).stackSafe

theorem stackSafe_typesOf (s : Scopes) (xs : List Expr) : StackSafe (env.typesOf s xs) :=
  (refused_typesOf s (Expr.allAt_true xs)).stackSafe

end Env

end Classwright
