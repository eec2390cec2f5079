import Classwright.Proofs.Body.Operators
import Classwright.Proofs.Env

/-!
Variables and fields on the stack: loading takes the slots of the type, storing frees them together
with the object of a field, and an assignment leaves its value only if it is asked for.
-/

namespace Classwright

/-- What an expression may be typed as: tight, and the same as found before code is written. -/
def Env.Types (env : Env) (s : Scopes) (x : Expr) (t : Ty) : Prop :=
  t.isTight = true ∧ ∀ u, env.typeOf s x = .ok u → u = t

/-- The slots that the object of a variable takes while its value is stored. -/
def Var.under (v : Var) : Nat :=
  match v.kind with
  | .local | .global => 0
  | _ => 1

theorem Var.under_of_local {v : Var} (h : v.kind = .local) : v.under = 0 := by
  rw [under, h]

theorem Var.under_of_global {v : Var} (h : v.kind = .global) : v.under = 0 := by
  rw [under, h]

theorem Var.under_of_field {v : Var} (hlocal : v.kind ≠ .local) (hglobal : v.kind ≠ .global) :
    v.under = 1 := by
  unfold under
  split
  · exact absurd ‹_› hlocal
  · exact absurd ‹_› hglobal
  · rfl

namespace Target

/-- The slots that the object of a target takes. -/
def under : Target → Nat
  | var v => v.under
  | field _ _ => 1

def Sound : Target → Prop
  | var v => v.Sound
  | field _ f => f.Sound

theorem under_le_one (t : Target) : t.under ≤ 1 := by
  cases t with
  | var v =>
    rw [under, Var.under]
    split <;> omega
  | field s f => exact Nat.le_refl 1

theorem Sound.tight {t : Target} (h : t.Sound) : t.type.isTight = true := by
  cases t with
  | var v => exact Var.Sound.tight h
  | field s f => exact Var.Sound.tight h

theorem Sound.isVoid {t : Target} (h : t.Sound) : t.type.isVoid = false := by
  cases t with
  | var v => exact Var.Sound.isVoid h
  | field s f => exact Var.Sound.isVoid h

end Target

namespace Gen

variable {o : Origin} {own : List Label} {s : Scopes} {n : Int} {b : Body} {env : Env}

theorem ensures_typeOf (hs : b.scopes = s) (x : Expr) :
    Ensures (typeOf env x) b fun t b' => b' = b ∧ env.typeOf s x = .ok t :=
  .bind (.get (.lift (Env.stackSafe_typeOf _ x) fun _ ht => ⟨rfl, hs ▸ ht⟩))

variable (h : At o own s n b)
include h

/-! ### Loading and storing -/

theorem At.loadSelf (tok : Token) (name : Text) (hn : 0 ≤ n)
    (hroom : n + 1 ≤ o.room) :
    Ensures (loadSelf env tok name) b fun _ => At o own s (n + 1) := by
  unfold Gen.loadSelf
  split
  · exact .refuse _ _
  · next st _ => exact h.load (t := st.type) rfl 0 hn hroom

theorem At.loadVar (tok : Token) (hv : v.Sound) (hn : 0 ≤ n)
    (hroom : n + 3 ≤ o.room) :
    Ensures (Gen.load env tok v) b fun _ => At o own s (n + v.type.size) := by
  have hsize := v.type.size_le_two
  unfold Gen.load
  split
  · exact h.load hv.isVoid _ hn (by omega)
  · exact h.getstatic hv.tight hn (by omega)
  · refine (h.loadSelf tok v.name hn (by omega)).andThen fun _ b₁ h₁ => ?_
    refine (h₁.getfield hv.tight (by omega) (by omega)).mono fun _ b₂ h₂ => ?_
    rwa [Int.add_sub_cancel] at h₂

theorem At.storeVar {v : Var} (hv : v.Sound) (hn : v.under + v.type.size ≤ n)
    (hroom : n ≤ o.room) :
    Ensures (Gen.store v) b fun _ => At o own s (n - v.under - v.type.size) := by
  unfold Gen.store
  split
  · rename_i hkind
    rw [Var.under_of_local hkind] at hn ⊢
    refine (h.store hv.isVoid _ (by omega) hroom).mono fun _ b₁ h₁ => h₁.congr ?_
    exact congrArg (· - (v.type.size : Int)) (Int.sub_zero n).symm
  · rename_i hkind
    rw [Var.under_of_global hkind] at hn ⊢
    refine (h.putstatic hv.tight (by omega) hroom).mono fun _ b₁ h₁ => h₁.congr ?_
    exact congrArg (· - (v.type.size : Int)) (Int.sub_zero n).symm
  · rename_i hlocal hglobal
    rw [Var.under_of_field hlocal hglobal] at hn ⊢
    exact h.putfield hv.tight hn hroom

/-- The object of a field that is named without one. -/
theorem At.receiver (tok : Token) (v : Var) (hn : 0 ≤ n)
    (hroom : n + 1 ≤ o.room) :
    Ensures (receiver env tok v) b fun k b' => At o own s (n + k) b' ∧ k = v.under := by
  unfold Gen.receiver
  split
  · rename_i hkind
    rw [Var.under_of_local hkind]
    exact .pure ⟨h.congr (Int.add_zero n).symm, rfl⟩
  · rename_i hkind
    rw [Var.under_of_global hkind]
    exact .pure ⟨h.congr (Int.add_zero n).symm, rfl⟩
  · rename_i hlocal hglobal
    rw [Var.under_of_field hlocal hglobal]
    exact (h.loadSelf tok v.name hn hroom).andThen fun _ b₁ h₁ => .pure ⟨h₁, rfl⟩

/-- The value of a field whose object stays below. -/
theorem At.dupGetfield (hv : v.Sound) (hn : 1 ≤ n)
    (hroom : n + 3 ≤ o.room) :
    Ensures (do Gen.op .dup; field .getfield owner v) b fun _ => At o own s (n + v.type.size) := by
  have hsize := v.type.size_le_two
  refine (h.op (p := 1) (q := 2) (by decide) (by omega) (by omega)).andThen fun _ b₁ h₁ => ?_
  refine (h₁.getfield hv.tight (by omega) (by omega)).mono fun _ b₂ h₂ => h₂.congr (by omega)

theorem At.loadTarget (tok : Token) (ht : target.Sound)
    (hn : target.under ≤ n) (hroom : n + 3 ≤ o.room) :
    Ensures (loadTarget env tok target target.under) b fun _ =>
      At o own s (n + target.type.size) := by
  cases target with
  | var v =>
    unfold Gen.loadTarget
    dsimp only
    split
    · exact h.loadVar tok ht (by omega) hroom
    · exact h.dupGetfield ht (by omega) hroom
  | field st f => exact h.dupGetfield ht hn hroom

theorem At.storeTarget (ht : target.Sound)
    (hn : target.under + target.type.size ≤ n) (hroom : n ≤ o.room) :
    Ensures (storeTarget target) b fun _ =>
      At o own s (n - target.under - target.type.size) := by
  cases target with
  | var v => exact h.storeVar ht hn hroom
  | field st f => exact h.putfield (Var.Sound.tight ht) hn hroom

/-! ### Assignments -/

/-- The value of an expression whose type has been found before. -/
theorem At.typed
    (hx : Pushes o.base k s (expr env x .value) (fun t => t.size) (env.Types s x))
    (ht : env.typeOf s x = .ok t) (hroom : n + k ≤ o.room) :
    Ensures (Functor.discard (expr env x .value)) b fun _ => At o own s (n + t.size) :=
  .discard ((h.run hx hroom).mono fun _ _ h' => h'.1.congr (by rw [h'.2.2 t ht]))

/-- The value on top is kept if it is asked for, and stored. -/
theorem At.keep {target : Target} (ht : target.Sound) (keep : Bool)
    (hn : target.under + target.type.size ≤ n) (hroom : n + 2 ≤ o.room) :
    Ensures (do
      if keep then edit (·.dup target.type target.under)
      Gen.storeTarget target
      return target.type) b fun t b' =>
        At o own s (n - target.under - target.type.size + if keep then (t.size : Int) else 0) b' ∧
          t = target.type := by
  have hsize := target.type.size_le_two
  cases keep with
  | false =>
    refine (h.storeTarget ht hn (by omega)).andThen fun _ b₁ h₁ => .pure ⟨?_, rfl⟩
    exact h₁.congr (Int.add_zero _).symm
  | true =>
    refine (h.dup ht.isVoid target.under_le_one (by omega) (by omega)).andThen fun _ b₁ h₁ => ?_
    refine (h₁.storeTarget ht (by omega) (by omega)).andThen fun _ b₂ h₂ => .pure ⟨?_, rfl⟩
    refine h₂.congr ?_
    rw [if_pos rfl]
    omega

theorem At.assignTo (tok targetTok : Token) (op : AssignOp) (target : Target)
    (ht : target.Sound)
    (hx : Pushes o.base k s (expr env x .value) (fun t => t.size) (env.Types s x)) (keep : Bool)
    (hn : target.under ≤ n) (hk : 0 ≤ k) (hroom : n + k + 6 ≤ o.room) :
    Ensures (assignTo env tok targetTok op target target.under (typeOf env x) (expr env x .value)
      keep) b fun t b' =>
        At o own s (n - target.under + if keep then (t.size : Int) else 0) b' ∧ t = target.type := by
  have hsize := target.type.size_le_two
  -- the value of the type is there and has to be stored
  have hstore : ∀ b', At o own s (n + target.type.size) b' → Ensures (do
      if keep then edit (·.dup target.type target.under)
      Gen.storeTarget target
      return target.type) b' fun t b' =>
        At o own s (n - target.under + if keep then (t.size : Int) else 0) b' ∧ t = target.type := by
    intro b' h'
    refine (h'.keep ht keep (by omega) (by omega)).mono fun t b'' h'' => ⟨h''.1.congr ?_, h''.2⟩
    omega
  unfold Gen.assignTo
  dsimp only
  split
  · next op' hop =>
    have harith : op'.isArithmetic = true := by
      cases op <;> cases hop <;> rfl
    refine (ensures_typeOf h.scopes x).andThen ?_
    rintro vt _ ⟨rfl, hvt⟩
    refine (ensures_arith tok harith (h.loadTarget targetTok ht hn (by omega))
      (fun m b' _ _ h' => h'.typed hx hvt (by omega)) (by omega) (by omega)).andThen ?_
    rintro rt b₁ ⟨h₁, -, hrvoid, hrtight⟩
    have hrsize := rt.size_le_two
    split
    · exact .bind (.refuse _ _)
    · next hcheck =>
      have hfit : rt.isPrim = true → target.type.isPrim = true ∨ target.type.assignable rt = true := by
        intro hprim
        simp only [hprim, Bool.true_and, Bool.and_eq_true, Bool.not_eq_true', not_and] at hcheck
        cases ha : target.type.assignable rt with
        | true => exact .inr rfl
        | false =>
          have := hcheck ha
          simp only [Bool.and_eq_false_imp, not_forall] at this
          exact .inl this.1
      refine (h₁.conv hrvoid ht.isVoid ht.tight hfit true (by omega) (by omega)).andThen
        fun _ b₂ h₂ => hstore b₂ (h₂.congr ?_)
      omega
  · refine (h.run hx (by omega)).andThen ?_
    rintro vt b₁ ⟨h₁, -⟩
    have hvsize := vt.size_le_two
    split
    · exact .bind (.refuse _ _)
    · next hcheck =>
      have hassign : target.type.assignable vt = true := by simpa using hcheck
      refine (h₁.convert (Ty.isVoid_of_assignable hassign).2 ht.isVoid ht.tight
        (fun _ => .inr hassign) (by omega) (by omega)).andThen fun _ b₂ h₂ => hstore b₂ (h₂.congr ?_)
      omega

/-- Adding one to a target, or minus one, leaves the value before if it is asked for. -/
theorem At.stepTarget (tok targetTok : Token) (op : StepOp) (target : Target)
    (ht : target.Sound) {receiver : Gen Nat} (keep : Bool)
    (hreceiver : Ensures receiver b fun k b' => At o own s (n + k) b' ∧ k = target.under)
    (hn : 0 ≤ n) (hroom : n + 10 ≤ o.room) :
    Ensures (stepTarget env tok targetTok op target receiver keep) b fun t b' =>
      At o own s (n + if keep then (t.size : Int) else 0) b' ∧ t = target.type := by
  have hunder := target.under_le_one
  have hsize := target.type.size_le_two
  unfold Gen.stepTarget
  dsimp only
  split
  · exact .refuse _ _
  · next p hp =>
    obtain ⟨q, q', hq, hq', hpromote⟩ := Ty.eq_prim_of_promote? hp
    have hpvoid := (Ty.isVoid_of_promote hpromote).2.2
    have hpsize : p.size ≤ 2 := Ty.size_le_two (.prim p)
    split
    · next name type const slot owner tok hint =>
      change type = .prim .int at hint
      subst hint
      have hinc : ∀ delta m b', At o own s m b' → 0 ≤ m → m ≤ o.room → m = n + (if keep then (1 : Int) else 0) →
          Ensures (do
            edit fun x => x.inc slot delta
            pure (Ty.prim Prim.int)) b' fun t b' =>
              At o own s (n + if keep then (t.size : Int) else 0) b' ∧ t = .prim .int := by
        intro delta m b' h' hm hroom' heq
        refine (h'.inc _ _ hm hroom').andThen fun _ b₁ h₁ => .pure ⟨h₁.congr ?_, rfl⟩
        rw [heq]
        cases keep <;> rfl
      cases keep with
      | false => exact hinc _ n b h hn (by omega) (Int.add_zero n).symm
      | true =>
        refine (h.load (t := .prim .int) rfl _ hn ?_).andThen fun _ b₁ h₁ => ?_
        · change n + 1 ≤ o.room
          omega
        · change At o own s (n + 1) b₁ at h₁
          exact hinc _ (n + 1) b₁ h₁ (by omega) (by omega) rfl
    · rename_i target _ _ _
      refine hreceiver.andThen ?_
      rintro _ b₁ ⟨h₁, rfl⟩
      refine (h₁.loadTarget targetTok ht (by omega) (by omega)).andThen fun _ b₂ h₂ => ?_
      -- the value is there, above the object and the copy that is kept
      have hadd : ∀ delta m b', At o own s (m + target.under + target.type.size) b' → 0 ≤ m → m ≤ n + 2 →
          m = n + (if keep then (target.type.size : Int) else 0) →
          Ensures (do
            Gen.convert target.type (.prim p)
            edit (·.const (.prim p) (.int (Int64.ofInt delta)))
            Gen.op (Opcode.iadd.forNumber (.prim p))
            Gen.conv (.prim p) target.type true
            Gen.storeTarget target
            pure target.type) b' fun t b' =>
              At o own s (n + if keep then (t.size : Int) else 0) b' ∧ t = target.type := by
        intro delta m b' h' hm hle heq
        have hopcode : (Opcode.iadd.forNumber (.prim p)).Computes p := by
          rcases Prim.promote_cases hpromote with rfl | rfl | rfl | rfl <;> decide
        refine (h'.convert ht.isVoid hpvoid rfl (fun _ => .inl rfl) (by omega) (by omega)).andThen
          fun _ b₃ h₃ => ?_
        have h₃ : At o own s (m + target.under + p.size) b₃ := h₃.congr (by
          change _ + (p.size : Int) = _
          omega)
        refine (h₃.const (t := .prim p) (v := .int _) hpvoid (by omega) ?_).andThen fun _ b₄ h₄ => ?_
        · change _ + (p.size : Int) ≤ _
          omega
        have h₄ : At o own s (m + target.under + 2 * p.size) b₄ := h₄.congr (by
          change _ + (p.size : Int) = _
          omega)
        refine (h₄.op hopcode (by omega) (by omega)).andThen fun _ b₅ h₅ => ?_
        have h₅ : At o own s (m + target.under + p.size) b₅ := h₅.congr (by omega)
        refine (h₅.conv hpvoid ht.isVoid ht.tight (fun _ => .inl (by rw [hq]; rfl)) true ?_
          (by omega)).andThen fun _ b₆ h₆ => ?_
        · change (p.size : Int) ≤ _
          omega
        have h₆ : At o own s (m + target.under + target.type.size) b₆ := h₆.congr (by
          change _ - (p.size : Int) + _ = _
          omega)
        refine (h₆.storeTarget ht (by omega) (by omega)).andThen fun _ b₇ h₇ => .pure ⟨?_, rfl⟩
        exact h₇.congr (by omega)
      cases keep with
      | false => exact hadd _ n b₂ h₂ hn (by omega) (Int.add_zero n).symm
      | true =>
        refine (h₂.dup ht.isVoid hunder (by omega) (by omega)).andThen fun _ b₃ h₃ => ?_
        refine hadd _ (n + target.type.size) b₃ (h₃.congr (by omega)) (by omega) (by omega) ?_
        rw [if_pos rfl]

end Gen

end Classwright
