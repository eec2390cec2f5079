import Classwright.Proofs.Body.Assignment
import Classwright.Proofs.Body.OperandTypes

/-!
What expressions do to the stack. In a sound environment, an expression that declares no variable
leaves a value of its type, nothing, or jumps, as its mode says; and its type is the one that is found
before code is written (`Gen.does_expr`).
-/

namespace Classwright

namespace Gen

variable {base : Option Int} {room : Int} {s : Scopes} {l : Label} {b : Body} {env : Env}
  {P : Ty → Prop} {mode : Mode}

/-! ### Modes -/

theorem does_refuse (tok : Token) (fault : CompileFault) :
    Does base room s P (refuse tok fault) mode := by
  cases mode with
  | value => exact fun _ _ _ _ => .refuse _ _
  | drop => exact fun _ _ _ _ => .refuse _ _
  | jump target jumpIf => exact fun _ _ _ _ _ _ => .refuse _ _

theorem does_lift (hx : StackSafe x)
    (h : ∀ a, x = .ok a → Does base room s P (f a) mode) :
    Does base room s P (liftM x >>= f) mode := by
  cases mode with
  | value | drop => exact fun b hs hsound hb => .bind (.lift hx fun a ha => h a ha b hs hsound hb)
  | jump target jumpIf =>
    exact fun b hs hsound hb hlt ht => .bind (.lift hx fun a ha => h a ha b hs hsound hb hlt ht)

/-- A condition jumps, or becomes a value. -/
theorem does_condition (tok : Token) {jumping : Label → Bool → Gen Unit} (hroom : 2 ≤ room)
    (h : ∀ l j, JumpsTo base room s l (jumping l j)) (hP : P .bool) :
    Does base room s P (match mode with
      | .jump target jumpIf => do
        jumping target jumpIf
        return .bool
      | _ => finish tok mode (pushed do
        boolValue fun isFalse => jumping isFalse false
        return .bool)) mode := by
  have hvalue : Pushes base room s (do
      boolValue fun isFalse => jumping isFalse false
      return Ty.bool) (fun t => t.size) P := by
    intro b hs hsound hb
    refine (pushes_boolValue (by omega) (fun l => h l false) b hs hsound hb).andThen ?_
    exact fun _ b₁ h₁ => .pure ⟨h₁.1, hP⟩
  cases mode with
  | value | drop => exact does_finish tok (by omega) (pushes_pushed hvalue hroom)
  | jump target jumpIf =>
    intro b hs hsound hb hlt ht
    exact (h target jumpIf b hs hsound hb hlt ht).andThen fun _ _ h₁ => .pure h₁

/-- What an expression does when its value is made first and then used as the mode says. -/
theorem does_pushed (tok : Token) (hroom : 2 ≤ room)
    (h : ∀ b, b.scopes = s →
      At (.of base room b) [] s 0 b →
      Ensures m b fun t b' => At (.of base room b) [] s t.size b' ∧ P t) :
    Does base room s P (finish tok mode (pushed m)) mode := by
  refine does_finish tok (by omega) (pushes_pushed (fun b hs hsound hb => ?_) hroom)
  exact h b hs (hs ▸ .refl _ hsound hb)

end Gen

/-! ### Typing -/

namespace Env

variable {env : Env} {s : Scopes}

/-- Types that are found for expressions are theirs, one by one. -/
theorem forall₂_of_typesOf (h : env.typesOf s xs = .ok ts) :
    List.Forall₂ (fun x t => env.typeOf s x = .ok t) xs ts := by
  induction xs generalizing ts with
  | nil =>
    cases h
    exact .nil
  | cons x xs ih =>
    rw [typesOf] at h
    obtain ⟨t, ht, h⟩ := bind_eq_ok h
    obtain ⟨us, hus, h⟩ := bind_eq_ok h
    cases h
    exact .cons ht (ih hus)

end Env

namespace Gen

variable {o : Origin} {own : List Label} {s : Scopes} {n : Int} {b : Body} {env : Env}

/-! ### Calls and objects -/

/-- Arguments take the slots of the parameters that they are converted to. -/
theorem At.arguments (h : At o own s n b)
    (hxs : ∀ x ∈ xs, Pushes o.base (8 * x.weight) s (expr env x .value) (fun t => t.size)
      (env.Types s x))
    (hts : List.Forall₂ (fun x t => env.typeOf s x = .ok t) xs ts)
    (hparams : List.Forall₂ (fun t u => t.assignable u = true) params ts)
    (htight : ∀ t ∈ params, t.isTight = true) (hn : 0 ≤ n)
    (hroom : n + 8 * Expr.weights xs + 3 ≤ o.room) :
    Ensures (arguments env xs params) b fun _ => At o own s (n + Descriptor.slots params) := by
  induction xs generalizing params ts n b with
  | nil =>
    cases hts
    cases hparams
    rw [Gen.arguments]
    exact .pure (h.congr (Int.add_zero n).symm)
  | cons x xs ih =>
    cases hts with
    | @cons _ u _ ts hx hts =>
      cases hparams with
      | @cons p _ params _ hp hparams =>
        have hpsize := p.size_le_two
        have hpos := x.weight_pos
        rw [Expr.weights] at hroom
        rw [Gen.arguments]
        refine (h.run (hxs x (.head _)) (by omega)).andThen ?_
        rintro t b₁ ⟨h₁, -, ht⟩
        obtain rfl := ht u hx
        have htsize := u.size_le_two
        obtain ⟨hpvoid, htvoid⟩ := Ty.isVoid_of_assignable hp
        refine (h₁.convert htvoid hpvoid (htight p (.head _)) (fun _ => .inr hp)
          (by omega) (by omega)).andThen fun _ b₂ h₂ => ?_
        rw [Int.add_sub_cancel] at h₂
        refine (ih h₂ (fun y hy => hxs y (.tail _ hy)) hts
          hparams (fun q hq => htight q (.tail _ hq)) (by omega) (by omega)).mono fun _ b₃ h₃ => ?_
        refine h₃.congr ?_
        rw [Descriptor.slots_cons]
        omega

/-- Elements are added to the list on top, which stays. -/
theorem At.elements (h : At o own s n b)
    (hxs : ∀ x ∈ xs, Pushes o.base (8 * x.weight) s (expr env x .value) (fun t => t.size)
      (env.Types s x))
    (hn : 1 ≤ n) (hroom : n + 8 * Expr.weights xs + 3 ≤ o.room) :
    Ensures (elements env xs) b fun _ => At o own s n := by
  induction xs generalizing b with
  | nil =>
    rw [Gen.elements]
    exact .pure h
  | cons x xs ih =>
    have hpos := x.weight_pos
    rw [Expr.weights] at hroom
    rw [Gen.elements]
    refine (h.op (p := 1) (q := 2) (by decide) (by omega) (by omega)).andThen fun _ b₁ h₁ => ?_
    refine (h₁.run (hxs x (.head _)) (by omega)).andThen ?_
    rintro t b₂ ⟨h₂, -, -⟩
    have htsize := t.size_le_two
    split
    · exact .bind (.refuse _ _)
    · next hvoid =>
      have hvoid : t.isVoid = false := by simpa using hvoid
      refine (h₂.convert hvoid rfl rfl (fun hp => .inr (Ty.object_assignable hvoid hp))
        (by omega) (by omega)).andThen fun _ b₃ h₃ => ?_
      have h₃ : At o own s (n + 2) b₃ := h₃.congr (by change _ + (1 : Int) = _; omega)
      refine (h₃.invoke (p := 2) (q := 1) ⟨[.object], some .bool⟩ (by decide) (by decide)
        (.inr ⟨.inl rfl, rfl⟩) rfl (by omega) (by omega)).andThen fun _ b₄ h₄ => ?_
      refine (h₄.op (p := 1) (q := 0) (by decide) (by omega) (by omega)).andThen fun _ b₅ h₅ => ?_
      exact ih (h₅.congr (by omega)) (fun y hy => hxs y (.tail _ hy)) (by omega)

/-- A call takes its arguments, and the object that it is made on, and leaves its result. -/
theorem At.call (h : At o own s n b) (tok : Token) (hf : f.sig.isProper = true)
    {receiver : Option (Gen Unit)}
    (hreceiver : ∀ push, receiver = some push → Ensures push b fun _ => At o own s (n + 1))
    (hargs : ∀ m b', n ≤ m → m ≤ n + 1 → At o own s m b' →
      Ensures args b' fun _ => At o own s (m + f.sig.argSize))
    (hn : 0 ≤ n) (hroom : n + 2 ≤ o.room) :
    Ensures (call env tok f receiver args) b fun t b' =>
      At o own s (n + t.size) b' ∧ t = f.sig.result := by
  have hrsize := f.sig.result.size_le_two
  -- the arguments are pushed above the object, if there is one
  have hcall : ∀ (op : Opcode) (k : Nat) b',
      (op = .invokestatic ∧ k = 0 ∨ op = .invokevirtual ∧ k = 1) → At o own s (n + k) b' →
      Ensures (do
        args
        Gen.invoke op f.owner f.name f.sig.descriptor
        return f.sig.result) b' fun t b' =>
          At o own s (n + t.size) b' ∧ t = f.sig.result := by
    intro op k b' hop h'
    refine (hargs _ b' (by omega) (by omega) h').andThen fun _ b₁ h₁ => ?_
    refine (h₁.invoke (p := f.sig.argSize + k) f.sig hf rfl ?_ rfl (by omega) (by omega)).andThen
      fun _ b₂ h₂ => .pure ⟨h₂.congr (by omega), rfl⟩
    rcases hop with ⟨rfl, rfl⟩ | ⟨rfl, rfl⟩
    · exact .inl ⟨rfl, rfl⟩
    · exact .inr ⟨.inl rfl, rfl⟩
  unfold Gen.call
  split
  · have hfield : Ensures (access (·.field .getstatic
        { cls := "java/lang/System", name := "out", desc := (Ty.cls Registry.outputOwner).descriptor })) b
        fun _ => At o own s (n + 1) := by
      refine h.getstatic (v := { name := "out", kind := .field, type := .cls Registry.outputOwner }) rfl hn ?_
      change n + 1 ≤ _
      omega
    exact hfield.andThen fun _ b₁ h₁ => hcall .invokevirtual 1 b₁ (.inr ⟨rfl, rfl⟩) h₁
  · have hvirtual := fun b₁ h₁ => hcall .invokevirtual 1 b₁ (.inr ⟨rfl, rfl⟩) h₁
    split
    · next push => exact (hreceiver push rfl).andThen fun _ b₁ h₁ => hvirtual b₁ h₁
    · next st _ =>
      split
      · exact .bind (.refuse _ _)
      · exact (h.load (t := st.type) rfl 0 hn (by change n + 1 ≤ _; omega)).andThen
          fun _ b₁ h₁ => hvirtual b₁ h₁
    · exact .bind (.refuse _ _)
  · exact hcall .invokestatic 0 b (.inl ⟨rfl, rfl⟩) (h.congr (Int.add_zero n).symm)

/-- The class of a new object and the parameters of its constructor, which take the arguments. -/
theorem ensures_construction (henv : env.Sound) (hs : b.scopes = s) (tok : Token) (type : TypeName)
    (args : List Expr) :
    Ensures (construction env tok type (!args.isEmpty) do env.typesOf (← get).scopes args) b
      fun r b' => b' = b ∧ env.typeName type = .ok (.cls r.1) ∧ (∀ t ∈ r.2, t.isProper = true) ∧
        ∃ ts, env.typesOf s args = .ok ts ∧
          List.Forall₂ (fun t u => t.assignable u = true) r.2 ts := by
  unfold Gen.construction
  refine .bind (.lift (Env.stackSafe_typeName type) fun t ht => ?_)
  dsimp only
  split
  · next name =>
    split
    · split
      · exact .bind (.refuse _ _)
      · next hargs =>
        have hargs : args = [] := by simpa using hargs
        subst hargs
        exact .pure ⟨rfl, ht, nofun, [], rfl, .nil⟩
    · next st hst =>
      have hproper := (henv.structs st (Env.mem_of_structOfClass? hst)).constructor
      refine .bind (.bind (.get (.lift (Env.stackSafe_typesOf _ args) fun ts hts => ?_)))
      split
      · exact .bind (.refuse _ _)
      · next hfit =>
        simp only [Bool.or_eq_true, decide_eq_true_eq, Bool.not_eq_true', not_or, not_not,
          Bool.not_eq_false, List.all_eq_true] at hfit
        refine .pure ⟨rfl, ht, (Signature.isProper_iff.1 hproper).1, ts, hs ▸ hts, ?_⟩
        exact List.forall₂_iff_zip.2 ⟨hfit.1, fun hmem => hfit.2 _ hmem⟩
  · exact .refuse _ _

/-! ### All expressions -/

/-- The code of an expression does what each mode says, in as many slots as its size allows. -/
def Obeys (base : Option Int) (env : Env) (s : Scopes) (x : Expr) : Prop :=
  ∀ (room : Int) mode, 8 * x.weight ≤ room → Does base room s (env.Types s x) (expr env x mode) mode

variable {base : Option Int}

theorem Obeys.value (h : Obeys base env s x) {k : Int} (hk : 8 * x.weight ≤ k) :
    Pushes base k s (expr env x .value) (fun t => t.size) (env.Types s x) := h k .value hk

theorem Obeys.jumps (h : Obeys base env s x) {k : Int} (hk : 8 * x.weight ≤ k) (l : Label)
    (j : Bool) : JumpsTo base k s l (Functor.discard (expr env x (.jump l j))) := by
  intro b hs hsound hb hlt ht
  exact .discard ((h k (.jump l j) hk) b hs hsound hb hlt ht)

/-- The value of an expression whose type has been found before. -/
theorem Obeys.typed (h : Obeys base env s x) {k : Int} (hk : 8 * x.weight ≤ k)
    (ht : env.typeOf s x = .ok t) :
    Pushes base k s (Functor.discard (expr env x .value)) (fun _ => t.size) fun _ => True := by
  intro b hs hsound hb
  refine .discard ((h.value hk b hs hsound hb).mono ?_)
  rintro u b' ⟨h', -, hu⟩
  cases hu t ht
  exact ⟨h', trivial⟩

/-- An expression that declares nothing gives back the type that is found for it. -/
theorem Does.types (hdecl : x.declares s = false)
    (h : Does base room s (·.isTight = true) (expr env x mode) mode) :
    Does base room s (env.Types s x) (expr env x mode) mode := by
  cases mode with
  | value =>
    rintro b rfl hsound hb
    obtain ⟨hsafe, hrun⟩ := h b rfl hsound hb
    refine ⟨hsafe, fun t b' hm => ?_⟩
    obtain ⟨hat, htight⟩ := hrun t b' hm
    refine ⟨hat, htight, fun u hu => (type_of_expr hu (fun hnew => ?_) t b' hm).symm⟩
    cases hdecl.symm.trans hnew
  | _ => exact h

/-- A constant is pushed as it is; else it is up to the kind of expression. -/
theorem obeys_of_not_constant {f : Mode → Option Constant → Gen Ty}
    (heq : ∀ mode, expr env x mode = liftM (Env.fold x) >>= f mode) (hdecl : x.declares s = false)
    (h : ∀ (room : Int) mode, 8 * x.weight ≤ room → Does base room s (·.isTight = true) (f mode none) mode) :
    Obeys base env s x := by
  intro room mode hroom
  refine Does.types hdecl ?_
  have hpos := x.weight_pos
  cases hfold : Env.fold x with
  | error e =>
    rw [heq]
    exact does_lift (Env.stackSafe_fold _) fun c hc => by cases hfold.symm.trans hc
  | ok c =>
    cases c with
    | none =>
      rw [heq]
      refine does_lift (Env.stackSafe_fold _) fun c hc => ?_
      cases hfold.symm.trans hc
      exact h room mode hroom
    | some c =>
      have htyped := Expr.isTyped_fold (Env.fold_eq_ok_iff.1 hfold)
      rw [expr_of_constant hfold]
      exact does_constant x.tok htyped (by omega) mode htyped.isTight

theorem obeys_literal (tok : Token) : Obeys base env s (.literal tok) :=
  obeys_of_not_constant (fun _ => expr.eq_def ..) rfl fun _ _ _ => does_refuse _ _

theorem sound_of_variable (hs : s.Sound)
    (hv : Env.variable_ s tok name = .ok v) : v.Sound := by
  unfold Env.variable_ at hv
  split at hv
  · cases hv
    exact hs.of_lookup? ‹_›
  · cases hv

theorem obeys_ident (hs : s.Sound) (tok : Token) (name : Text) :
    Obeys base env s (.ident tok name) := by
  refine obeys_of_not_constant (fun _ => expr.eq_def ..) rfl fun room mode hroom => ?_
  rw [Expr.weight] at hroom
  dsimp only
  refine does_pushed tok (by omega) fun b hb h => ?_
  refine .bind (.get (.bind (.lift (Env.stackSafe_variable _ _ _) fun v hv => ?_)))
  rw [hb] at hv
  have hsound := sound_of_variable hs hv
  refine (h.loadVar tok hsound (Int.le_refl 0) (by dsimp only; omega)).andThen
    fun _ b₁ h₁ => .pure ⟨h₁.congr (Int.zero_add _), hsound.tight⟩

/-- A negation that is not jumped on becomes a value. -/
theorem does_not (hx : Obeys base env s x) (tok : Token) {room : Int}
    (hroom : 8 * ((x.weight + 1 : Nat) : Int) ≤ room) (mode : Mode) :
    Does base room s (·.isTight = true) (finish tok mode (pushed do
      let t ← Env.unaryType tok .not (← typeOf env x)
      boolValue fun isFalse => Functor.discard (expr env x (.jump isFalse true))
      return t)) mode := by
  have hpos := x.weight_pos
  refine does_pushed tok (by omega) fun b hb h => ?_
  refine (ensures_typeOf hb x).andThen ?_
  rintro t _ ⟨rfl, ht⟩
  refine .bind (.lift (Env.stackSafe_unaryType _ _ _) fun u hu => ?_)
  obtain ⟨-, -, rfl⟩ := (UnaryOp.type?_cases (Env.type?_of_unaryType hu)).resolve_right fun h => h.1 rfl
  have hvalue : Pushes base room s (boolValue fun l => Functor.discard (expr env x (.jump l true))) _ _ :=
    pushes_boolValue (by omega) fun l => hx.jumps (by omega) l true
  refine (h.run hvalue (by dsimp only; omega)).andThen ?_
  rintro _ b₁ ⟨h₁, -⟩
  exact .pure ⟨h₁.congr (Int.zero_add _), rfl⟩

/-- A sign applies to a number. -/
theorem does_sign (hx : Obeys base env s x) (tok : Token) {op : UnaryOp} (hop : op ≠ .not)
    (hroom : 8 * ((x.weight + 1 : Nat) : Int) ≤ room) (mode : Mode) :
    Does base room s (·.isTight = true) (finish tok mode (pushed do
      let xt ← typeOf env x
      let t ← Env.unaryType tok op xt
      Functor.discard (expr env x .value)
      convert xt t
      if op = .minus then Gen.op (Opcode.ineg.forNumber t)
      return t)) mode := by
  have hpos := x.weight_pos
  refine does_pushed tok (by omega) fun b hb h => ?_
  refine (ensures_typeOf hb x).andThen ?_
  rintro xt _ ⟨rfl, hxt⟩
  refine .bind (.lift (Env.stackSafe_unaryType _ _ _) fun t ht => ?_)
  obtain ⟨-, p, hp, rfl⟩ := (UnaryOp.type?_cases (Env.type?_of_unaryType ht)).resolve_left fun h => hop h.1
  obtain ⟨q, q', rfl, -, hq⟩ := Ty.eq_prim_of_promote? hp
  obtain ⟨hqvoid, -, hpvoid⟩ := Ty.isVoid_of_promote hq
  have hqsize : q.size ≤ 2 := Ty.size_le_two (.prim q)
  have hpsize : p.size ≤ 2 := Ty.size_le_two (.prim p)
  refine (h.typed (hx.value (by omega : (_ : Int) ≤ room - 8)) hxt (by dsimp only; omega)).andThen
    fun _ b₁ h₁ => ?_
  have h₁ : At ⟨base, room, Code.untouched, _⟩ [] s (0 + q.size) b₁ := h₁
  refine (h₁.convert hqvoid hpvoid rfl (fun _ => .inl rfl) (Int.le_of_eq (Int.zero_add _).symm)
    (by dsimp only; omega)).andThen fun _ b₂ h₂ => ?_
  have h₂ : At ⟨base, room, Code.untouched, _⟩ [] s p.size b₂ := h₂.congr (by
    change 0 + (q.size : Int) - q.size + p.size = _
    omega)
  split
  · have hopcode : (Opcode.ineg.forNumber (.prim p)).Moves .plain p.size p.size := by
      rcases Prim.promote_cases hq with rfl | rfl | rfl | rfl <;> decide
    refine (h₂.op hopcode (Int.le_refl _) (by dsimp only; omega)).andThen
      fun _ b₃ h₃ => .pure ⟨h₃.congr ?_, rfl⟩
    exact Int.add_sub_cancel _ _
  · exact .pure ⟨h₂, rfl⟩

theorem obeys_unary (hx : Obeys base env s x) (tok : Token) (op : UnaryOp) :
    Obeys base env s (.unary tok op x) := by
  refine obeys_of_not_constant (fun _ => expr.eq_def ..) rfl fun room mode hroom => ?_
  rw [Expr.weight] at hroom
  cases op with
  | not =>
    cases mode with
    | jump target jumpIf =>
      exact fun b hb hsound hroom' hlt ht => hx room (.jump target !jumpIf) (by omega) b hb hsound hroom' hlt ht
    | _ => exact does_not hx tok hroom _
  | _ => exact does_sign hx tok (by decide) hroom mode

theorem obeys_step (henv : env.Sound) (hs : s.Sound) (tok : Token) (op : StepOp)
    (hx : ∀ t x name, target = .property t x name → Obeys base env s x) :
    Obeys base env s (.step tok op target) := by
  refine obeys_of_not_constant (fun _ => expr.eq_def ..) rfl fun room mode hroom => ?_
  rw [Expr.weight] at hroom
  have hpos := target.weight_pos
  refine does_finish tok (by omega) fun keep b hb hsound hroom' => ?_
  have h : At (.of base room b) [] s 0 b := hb ▸ .refl _ hsound hroom'
  dsimp only
  split
  · next targetTok name =>
    refine .bind (.get (.bind (.lift (Env.stackSafe_variable _ _ _) fun v hv => ?_)))
    rw [hb] at hv
    have hvsound := sound_of_variable hs hv
    unfold Gen.checkVariable
    split
    · exact .bind (.refuse _ _)
    · refine (h.stepTarget tok targetTok op (.var v) hvsound keep
        (h.receiver targetTok v (Int.le_refl 0) (by dsimp only; omega)) (Int.le_refl 0)
        (by dsimp only; omega)).mono ?_
      rintro _ b₁ ⟨h₁, rfl⟩
      exact ⟨h₁.congr (by rw [Int.zero_add]), hvsound.tight⟩
  · next targetTok x name =>
    rw [Expr.weight] at hroom
    have hx := hx _ _ _ rfl
    refine (ensures_typeOf hb x).andThen ?_
    rintro t _ ⟨rfl, ht⟩
    refine .bind (.lift (Env.stackSafe_property _ _ _) ?_)
    rintro ⟨st, f⟩ hf
    obtain ⟨hfsound, hone, -⟩ := henv.of_property hf
    dsimp only
    refine (h.stepTarget tok targetTok op (.field st f) hfsound keep ?_ (Int.le_refl 0)
      (by dsimp only; omega)).mono ?_
    · refine (h.typed (hx.value (by omega : (_ : Int) ≤ room - 8)) ht (by dsimp only; omega)).andThen
        fun _ b₁ h₁ => .pure ⟨h₁.congr ?_, rfl⟩
      rw [hone]
    · rintro _ b₁ ⟨h₁, rfl⟩
      exact ⟨h₁.congr (by rw [Int.zero_add]), hfsound.tight⟩
  · exact .refuse _ _

theorem obeys_binary {y : Expr} (hx : Obeys base env s x) (hy : Obeys base env s y) (tok : Token)
    (op : BinaryOp) : Obeys base env s (.binary tok op x y) := by
  refine obeys_of_not_constant (fun _ => expr.eq_def ..) rfl fun room mode hroom => ?_
  rw [Expr.weight] at hroom
  have hxpos := x.weight_pos
  have hypos := y.weight_pos
  have hcompare : op.isComparison = true → ∀ l j, JumpsTo base room s l (do
      let lt ← typeOf env x
      let rt ← typeOf env y
      comparison tok op lt rt (Functor.discard (expr env x .value))
        (Functor.discard (expr env y .value)) l j) := by
    intro hop l j b hb hsound hroom' hlt htakes
    refine (ensures_typeOf hb x).andThen ?_
    rintro xt _ ⟨rfl, hxt⟩
    refine (ensures_typeOf hb y).andThen ?_
    rintro yt _ ⟨rfl, hyt⟩
    exact jumpsTo_comparison tok hop (hx.typed (by omega : (_ : Int) ≤ room - 8) hxt)
      (hy.typed (by omega) hyt) (by omega) (by omega) _ hb hsound hroom' hlt htakes
  have harith : op.isArithmetic = true → Does base room s (·.isTight = true)
      (finish tok mode (pushed do
        let lt ← typeOf env x
        let rt ← typeOf env y
        arith tok op lt rt (Functor.discard (expr env x .value))
          (Functor.discard (expr env y .value)))) mode := by
    intro hop
    refine does_pushed tok (by omega) fun b hb h => ?_
    refine (ensures_typeOf hb x).andThen ?_
    rintro xt _ ⟨rfl, hxt⟩
    refine (ensures_typeOf hb y).andThen ?_
    rintro yt _ ⟨rfl, hyt⟩
    refine (ensures_arith tok hop (h.typed (hx.value (by omega : (_ : Int) ≤ room - 8)) hxt (by dsimp only; omega))
      (fun m b' _ _ h' => h'.typed (hy.value (by omega : (_ : Int) ≤ room - 8)) hyt (by dsimp only; omega))
      (Int.le_refl 0) (by dsimp only; omega)).mono ?_
    rintro t b₁ ⟨h₁, -, -, htight⟩
    exact ⟨h₁.congr (Int.zero_add _), htight⟩
  have hjunction : ∀ isAnd l j, JumpsTo base room s l (junction isAnd
      (fun target jumpIf => Functor.discard (expr env x (.jump target jumpIf)))
      (fun target jumpIf => Functor.discard (expr env y (.jump target jumpIf))) l j) :=
    fun _ _ _ => jumpsTo_junction (hx.jumps (by omega)) (hy.jumps (by omega))
  cases op with
  | and => exact does_condition tok (by omega) (hjunction true) rfl
  | or => exact does_condition tok (by omega) (hjunction false) rfl
  | eq | ne | lt | le | gt | ge => exact does_condition tok (by omega) (hcompare rfl) rfl
  | range => exact does_refuse _ _
  | add | sub | mul | div | mod | pow | xor => exact harith rfl

theorem obeys_assign (henv : env.Sound) (hs : s.Sound) (tok : Token) (op : AssignOp)
    (hknown : ∀ t name, target = .ident t name → (s.lookup? name).isSome = true)
    (hx : ∀ t x name, target = .property t x name → Obeys base env s x)
    (hvalue : Obeys base env s value) : Obeys base env s (.assign tok op target value) := by
  have hdecl : (Expr.assign tok op target value).declares s = false := by
    unfold Expr.declares
    split
    · next heq =>
      cases heq
      exact Option.isNone_eq_false_iff.2 (hknown _ _ rfl)
    · rfl
  refine obeys_of_not_constant (fun _ => expr.eq_def ..) hdecl fun room mode hroom => ?_
  rw [Expr.weight] at hroom
  have hpos := target.weight_pos
  have hvpos := value.weight_pos
  refine does_finish tok (by omega) fun keep b hb hsound hroom' => ?_
  have h : At (.of base room b) [] s 0 b := hb ▸ .refl _ hsound hroom'
  dsimp only
  split
  · next targetTok name =>
    refine .bind (.get ?_)
    rw [hb]
    obtain ⟨v, hv⟩ := Option.isSome_iff_exists.1 (hknown _ _ rfl)
    rw [hv]
    dsimp only
    have hvsound := hs.of_lookup? hv
    unfold Gen.checkVariable
    split
    · exact .bind (.refuse _ _)
    · refine .bind (.pure (.bind
        ((h.receiver targetTok v (Int.le_refl 0) (by dsimp only; omega)).mono ?_)))
      rintro _ b₁ ⟨h₁, rfl⟩
      have hunder := (Target.var v).under_le_one
      change v.under ≤ 1 at hunder
      refine (h₁.assignTo tok targetTok op (.var v) hvsound
        (hvalue.value (by omega : (_ : Int) ≤ room - 8)) keep (Int.le_of_eq (Int.zero_add _).symm)
        (by omega) (by dsimp only; omega)).mono ?_
      rintro _ b₂ ⟨h₂, rfl⟩
      refine ⟨h₂.congr ?_, hvsound.tight⟩
      change 0 + (v.under : Int) - v.under + _ = _
      rw [Int.add_sub_cancel, Int.zero_add]
  · next targetTok x name =>
    rw [Expr.weight] at hroom
    have hx := hx _ _ _ rfl
    refine (ensures_typeOf hb x).andThen ?_
    rintro t _ ⟨rfl, ht⟩
    refine .bind (.lift (Env.stackSafe_property _ _ _) ?_)
    rintro ⟨st, f⟩ hf
    obtain ⟨hfsound, hone, -⟩ := henv.of_property hf
    dsimp only
    refine (h.typed (hx.value (by omega : (_ : Int) ≤ room - 8)) ht (by dsimp only; omega)).andThen
      fun _ b₁ h₁ => ?_
    rw [hone] at h₁
    refine (h₁.assignTo tok targetTok op (.field st f) hfsound
      (hvalue.value (by omega : (_ : Int) ≤ room - 8)) keep (Int.le_refl 1) (by omega)
      (by dsimp only; omega)).mono ?_
    rintro _ b₂ ⟨h₂, rfl⟩
    refine ⟨h₂.congr ?_, hfsound.tight⟩
    change 0 + (1 : Int) - 1 + _ = _
    rw [Int.add_sub_cancel, Int.zero_add]
  · exact .refuse _ _

theorem obeys_property (henv : env.Sound) (hx : Obeys base env s x) (tok : Token)
    (name : Text) : Obeys base env s (.property tok x name) := by
  refine obeys_of_not_constant (fun _ => expr.eq_def ..) rfl fun room mode hroom => ?_
  rw [Expr.weight] at hroom
  have hpos := x.weight_pos
  refine does_pushed tok (by omega) fun b hb h => ?_
  refine (ensures_typeOf hb x).andThen ?_
  rintro t _ ⟨rfl, ht⟩
  refine .bind (.lift (Env.stackSafe_property _ _ _) ?_)
  rintro ⟨st, f⟩ hf
  obtain ⟨hfsound, hone, -⟩ := henv.of_property hf
  have hfsize := f.type.size_le_two
  dsimp only
  refine (h.typed (hx.value (by omega : (_ : Int) ≤ room - 8)) ht (by dsimp only; omega)).andThen
    fun _ b₁ h₁ => ?_
  rw [hone] at h₁
  refine (h₁.getfield hfsound.tight (Int.le_refl 1) (by dsimp only; omega)).andThen
    fun _ b₂ h₂ => .pure ⟨h₂.congr ?_, hfsound.tight⟩
  change (0 : Int) + 1 - 1 + _ = _
  omega

theorem obeys_list (hxs : ∀ x ∈ xs, Obeys base env s x) (tok : Token) :
    Obeys base env s (.list tok xs) := by
  refine obeys_of_not_constant (fun _ => expr.eq_def ..) rfl fun room mode hroom => ?_
  rw [Expr.weight] at hroom
  refine does_pushed tok (by omega) fun b hb h => ?_
  refine (h.type (p := 0) (q := 1) (by decide) _ (Int.le_refl 0) (by dsimp only; omega)).andThen
    fun _ b₁ h₁ => ?_
  refine (h₁.op (p := 1) (q := 2) (by decide) (by omega) (by dsimp only; omega)).andThen fun _ b₂ h₂ => ?_
  refine (h₂.invoke (p := 1) (q := 0) ⟨[], none⟩ (by decide) (by decide)
    (.inr ⟨.inr (.inl rfl), rfl⟩) rfl (by omega) (by dsimp only; omega)).andThen fun _ b₃ h₃ => ?_
  refine ((h₃.congr (m := 1) (by omega)).elements (fun x hx => (hxs x hx).value (Int.le_refl _)) (Int.le_refl 1)
    (by dsimp only; omega)).andThen fun _ b₄ h₄ => .pure ⟨h₄, rfl⟩

theorem obeys_construct (henv : env.Sound)
    (hargs : ∀ x ∈ args, Obeys base env s x) (tok : Token) (type : TypeName) :
    Obeys base env s (.construct tok type args) := by
  refine obeys_of_not_constant (fun _ => expr.eq_def ..) rfl fun room mode hroom => ?_
  rw [Expr.weight] at hroom
  refine does_pushed tok (by omega) fun b hb h => ?_
  refine (ensures_construction henv hb tok type args).andThen ?_
  rintro ⟨cls, params⟩ _ ⟨rfl, -, hproper, ts, hts, hparams⟩
  dsimp only at hproper hparams ⊢
  refine (h.type (p := 0) (q := 1) (by decide) _ (Int.le_refl 0) (by dsimp only; omega)).andThen
    fun _ b₁ h₁ => ?_
  refine (h₁.op (p := 1) (q := 2) (by decide) (by omega) (by dsimp only; omega)).andThen fun _ b₂ h₂ => ?_
  have h₂ : At ⟨base, room, Code.untouched, _⟩ [] s 2 b₂ := h₂.congr (by omega)
  refine (h₂.arguments (fun x hx => (hargs x hx).value (Int.le_refl _))
    (Env.forall₂_of_typesOf hts) hparams (fun t ht => (Ty.isProper_iff.1 (hproper t ht)).1) (by omega)
    (by dsimp only; omega)).andThen fun _ b₃ h₃ => ?_
  have hsig : (Signature.mk params none).isProper = true := Signature.isProper_iff.2 ⟨hproper, rfl⟩
  refine (h₃.invoke (p := Descriptor.slots params + 1) (q := 0) ⟨params, none⟩ hsig rfl
    (.inr ⟨.inr (.inl rfl), rfl⟩) rfl (by omega) (by dsimp only; omega)).andThen
    fun _ b₄ h₄ => .pure ⟨h₄.congr ?_, rfl⟩
  change _ = ((1 : Nat) : Int)
  omega

theorem obeys_call (henv : env.Sound)
    (hx : ∀ t x name, callee = .property t x name → Obeys base env s x)
    (hargs : ∀ x ∈ args, Obeys base env s x) (tok : Token) :
    Obeys base env s (.call tok callee args) := by
  refine obeys_of_not_constant (fun _ => expr.eq_def ..) rfl fun room mode hroom => ?_
  rw [Expr.weight] at hroom
  have hpos := callee.weight_pos
  refine does_pushed tok (by omega) fun b hb h => ?_
  refine .bind (.get (.bind (.lift (Env.stackSafe_typesOf _ args) fun ts hts => ?_)))
  rw [hb] at hts
  -- arguments of a function that has been found for their types
  have hpush : ∀ {f : Function}, f.sig.isProper = true →
      List.Forall₂ (fun t u => t.assignable u = true) f.sig.ins ts →
      ∀ m b', 0 ≤ m → m ≤ 0 + 1 → At (.of base room b) [] s m b' →
        Ensures (arguments env args f.sig.ins) b' fun _ =>
          At (.of base room b) [] s (m + f.sig.argSize) := by
    intro f hf hfit m b' hm hle h'
    exact h'.arguments (fun x hx => (hargs x hx).value (Int.le_refl _)) (Env.forall₂_of_typesOf hts)
      hfit (fun t ht => (Ty.isProper_iff.1 ((Signature.isProper_iff.1 hf).1 t ht)).1) hm
      (by dsimp only; omega)
  have hresult : ∀ {f : Function}, f.sig.isProper = true → f.sig.result.isTight = true :=
    fun hf => (Ty.isProper_iff.1 (Signature.isProper_iff.1 hf).2).1
  split
  · next nameTok name =>
    refine .bind (.lift (Env.stackSafe_function _ _ _) fun f hf => ?_)
    obtain ⟨hproper, hfit⟩ := henv.of_function hf
    refine (h.call tok hproper (fun _ h => by cases h) (hpush hproper hfit) (Int.le_refl 0)
      (by dsimp only; omega)).mono ?_
    rintro _ b₁ ⟨h₁, rfl⟩
    exact ⟨h₁.congr (Int.zero_add _), hresult hproper⟩
  · next nameTok x name =>
    rw [Expr.weight] at hroom
    have hx := hx _ _ _ rfl
    refine (ensures_typeOf hb x).andThen ?_
    rintro t _ ⟨rfl, ht⟩
    refine .bind (.lift (Env.stackSafe_method _ _ _ _) fun f hf => ?_)
    obtain ⟨hproper, hfit, hone⟩ := henv.of_method hf
    refine (h.call tok hproper ?_ (hpush hproper hfit) (Int.le_refl 0) (by dsimp only; omega)).mono ?_
    · rintro _ ⟨⟩
      refine (h.typed (hx.value (by omega : (_ : Int) ≤ room - 8)) ht (by dsimp only; omega)).mono
        fun _ b₁ h₁ => h₁.congr ?_
      rw [hone]
      rfl
    · rintro _ b₁ ⟨h₁, rfl⟩
      exact ⟨h₁.congr (Int.zero_add _), hresult hproper⟩
  · exact .refuse _ _

/-- The code of an expression that declares nothing does what each mode says. -/
theorem obeys_expr (henv : env.Sound) (hs : s.Sound) (hknown : s.Covers known)
    (x : Expr) (hx : x.isClosed known = true) : Obeys base env s x := by
  induction hw : x.weight using Nat.strongRecOn generalizing x with
  | ind w ih =>
    subst hw
    cases x with
    | literal tok => exact obeys_literal tok
    | ident tok name => exact obeys_ident hs tok name
    | unary tok op x =>
      rw [Expr.isClosed] at hx
      exact obeys_unary (ih _ (by rw [Expr.weight]; omega) x hx rfl) tok op
    | step tok op x =>
      refine obeys_step henv hs tok op ?_
      rintro t y name rfl
      rw [Expr.isClosed, Expr.isClosed] at hx
      exact ih _ (by rw [Expr.weight, Expr.weight]; omega) y hx rfl
    | binary tok op x y =>
      rw [Expr.isClosed, Bool.and_eq_true] at hx
      exact obeys_binary (ih _ (by rw [Expr.weight]; omega) x hx.1 rfl)
        (ih _ (by rw [Expr.weight]; omega) y hx.2 rfl) tok op
    | assign tok op target value =>
      have hvalue : value.isClosed known = true := by
        unfold Expr.isClosed at hx
        split at hx <;> simp_all
      refine obeys_assign henv hs tok op ?_ ?_ (ih _ (by rw [Expr.weight]; omega) value hvalue rfl)
      · rintro t name rfl
        rw [Expr.isClosed, Bool.and_eq_true, List.contains_iff_mem] at hx
        exact hknown name hx.1
      · rintro t x name rfl
        rw [Expr.isClosed, Bool.and_eq_true, Expr.isClosed] at hx
        · exact ih _ (by rw [Expr.weight, Expr.weight]; omega) x hx.1 rfl
        · rintro _ _ ⟨⟩
    | call tok callee args =>
      rw [Expr.isClosed, Bool.and_eq_true] at hx
      refine obeys_call henv ?_ (fun y hy => ?_) tok
      · rintro t y name rfl
        rw [Expr.isClosed] at hx
        exact ih _ (by rw [Expr.weight, Expr.weight]; omega) y hx.1 rfl
      · have := Expr.weight_le_weights hy
        exact ih _ (by rw [Expr.weight]; omega) y (Expr.isClosed_of_mem hx.2 hy) rfl
    | property tok x name =>
      rw [Expr.isClosed] at hx
      exact obeys_property henv (ih _ (by rw [Expr.weight]; omega) x hx rfl) tok name
    | construct tok type args =>
      rw [Expr.isClosed] at hx
      refine obeys_construct henv (fun y hy => ?_) tok type
      have := Expr.weight_le_weights hy
      exact ih _ (by rw [Expr.weight]; omega) y (Expr.isClosed_of_mem hx hy) rfl
    | list tok xs =>
      rw [Expr.isClosed] at hx
      refine obeys_list (fun y hy => ?_) tok
      have := Expr.weight_le_weights hy
      exact ih _ (by rw [Expr.weight]; omega) y (Expr.isClosed_of_mem hx hy) rfl

end Gen

end Classwright
