import Classwright.Proofs.Body.Growth
import Classwright.Proofs.Body.Effects
import Classwright.Proofs.Machine.Run

/-!
What written code does to the values on top of the stack (`Gen.Turns`), while local variables stay as
they are and the heap only grows. One thing after another does what the two do (`Gen.Turns.bind`).
-/

namespace Classwright

open Machine

/-! ### Plain code -/

namespace Gen

/-- Writing code that goes on from the code before it, in the same scope. -/
def Plain (m : Gen α) : Prop :=
  ∀ b, After m b fun _ b' => b.code.Grows b.code.marks.size b'.code ∧ b'.scopes = b.scopes

section
variable {α β : Type} {m : Gen α} {f : α → Gen β}

theorem Plain.bind (h : Plain m) (hf : ∀ a, Plain (f a)) : Plain (m >>= f) := by
  refine fun b => .bind ((h b).mono fun a b₁ h₁ => (hf a b₁).mono fun _ b₂ h₂ => ?_)
  exact ⟨h₁.1.trans (h₂.1.mono h₁.1.marks), h₂.2.trans h₁.2⟩

theorem Quiet.plain (h : Quiet (fun _ _ => True) m) : Plain m := by
  refine fun b a b' hm => ⟨Grown.grows (fun _ => h.extending) hm, ?_⟩
  obtain ⟨c, -, rfl⟩ := h.after b a b' hm
  rfl

/-- What is looked up in the scopes. -/
theorem plain_lookup (f : Body → Compiled α) : Plain (get >>= fun b => liftM (f b)) :=
  fun _ => .bind (.of_eq rfl (.lift fun _ _ => ⟨.refl _ _, rfl⟩))

theorem plain_refuse (tok : Token) (fault : CompileFault) : Plain (refuse tok fault : Gen α) :=
  fun _ => .of_error rfl

theorem plain_edit {f : Code → Code} (h : ∀ n c, Code.Grows n c (f c)) : Plain (edit f) :=
  fun _ => .of_eq rfl ⟨h _ _, rfl⟩

theorem plain_emit (hi : i.IsModest) : Plain (edit (·.emit i)) :=
  plain_edit fun n c => Code.grows_emit hi n c

theorem plain_jump {op : Opcode} (h : op.isJump = true) (l : Label) : Plain (jump op l) := by
  refine plain_edit fun n c => ?_
  rw [Code.jump, Instr.ofParts_jump h]
  exact Code.grows_emit (Instr.isModest_of_effect rfl rfl) n c

theorem composes_plain (env : Env) : Composes (fun _ _ => True) env fun m => Plain m where
  quiet := Quiet.plain
  bind := Plain.bind
  lift _ h b := .bind (.lift fun a ha => h a ha b)
  self _ := plain_emit (Instr.isModest_of_effect rfl rfl)

/-- Writing code in the same scope that keeps the first labels. -/
def Steady (n : Nat) (m : Gen α) : Prop :=
  ∀ b, n ≤ b.code.marks.size → After m b fun _ b' => b.code.Grows n b'.code ∧ b'.scopes = b.scopes

theorem Plain.steady (h : Plain m) : Steady n m :=
  fun b hb => (h b).mono fun _ _ h' => ⟨h'.1.mono hb, h'.2⟩

theorem plain_of_steady (h : ∀ n, Steady n m) : Plain m := fun b => h _ b (Nat.le_refl _)

theorem Steady.bind (h : Steady n m) (hf : ∀ a, Steady n (f a)) : Steady n (m >>= f) := by
  refine fun b hb => .bind ((h b hb).mono fun a b₁ h₁ => ?_)
  refine (hf a b₁ (Nat.le_trans hb h₁.1.marks)).mono fun _ b₂ h₂ => ?_
  exact ⟨h₁.1.trans h₂.1, h₂.2.trans h₁.2⟩

theorem steady_field (op : Opcode) (owner : Text) (v : Var) : Steady n (field op owner v) := by
  refine fun b hb => ?_
  intro a b' hm
  refine ⟨extending_field op owner v b hb a b' hm, ?_⟩
  obtain ⟨pop, push, -, rfl⟩ := after_field op owner v b a b' hm
  rfl

end

/-- Writing code in the same scope passes through expressions that assign to no name. -/
def steadyPass (env : Env) (n : Nat) : ExprPass env Unit where
  Holds _ _ _ m := Steady n m
  Taken _ _ _ := True
  Seen _ _ := True
  Own _ l := n ≤ l
  Target _ := False
  Unnamed _ _ := False
  Place _ _ := True
  taken_mono _ h := h
  taken_of_seen _ _ := trivial
  own_mono _ h := h
  composes _ _ := {
    quiet h := h.plain.steady
    bind := Steady.bind
    lift _ h b hb := .bind (.lift fun a ha => h a ha b hb)
    self _ := (plain_emit (Instr.isModest_of_effect rfl rfl)).steady }
  newLabel h b hb := .bind (.of_eq rfl
    ((h () b.code.marks.size le_rfl hb _ (hb.trans (Code.grows_newLabel n b.code).marks)).mono fun _ _ h' =>
      ⟨(Code.grows_newLabel n b.code).trans h'.1, h'.2⟩))
  bindLabel h _ _ := .of_eq rfl ⟨Code.grows_bind h _, rfl⟩
  jump h l := (plain_jump h l).steady
  loadSlot _ := (plain_emit (Instr.isModest_of_effect rfl rfl)).steady
  storeSlot _ := (plain_emit (Instr.isModest_of_effect rfl rfl)).steady
  incSlot _ _ := (plain_emit (Instr.isModest_of_effect rfl rfl)).steady
  put _ _ _ := steady_field _ _ _
  get h b hb := .bind (.of_eq rfl (h () b le_rfl (fun _ _ _ => trivial) (fun _ h _ => h.elim) b hb))
  declareStore _ _ _ h _ := h.elim

theorem plain_expr (hx : x.targets = []) (mode : Mode) :
    Plain (expr env x mode) := by
  refine plain_of_steady fun n => (steadyPass env n).expr (d := 0) (i := ()) x.at_true mode
    fun name hname => ?_
  rw [hx] at hname
  cases hname

end Gen

/-! ### What code leaves -/

namespace Machine

/-- What code is known to leave on top of the stack, and where to. -/
inductive Yield where
  | unknown
  /-- The method ends with a division by zero. -/
  | fails
  | leaves (e : Exit) (vs : List Val)

namespace Yield

/-- What is left by one thing after another, the second of which is done unless the first one jumps. -/
def andThen : Yield → Yield → Yield
  | leaves .next _, y => y
  | y, _ => y

/-- What is left on top of other values. -/
def above (us : List Val) : Yield → Yield
  | leaves e vs => leaves e (vs ++ us)
  | y => y

end Yield

end Machine

/-- What is written from `c` to `c'` turns the values `vs` on top of the stack into others. -/
def Code.Yields (locals : Locals) (vs : List Val) (c c' : Code) : Yield → Prop
  | .unknown => True
  | .fails => ∀ st heap, c.Finishes c' ⟨0, vs ++ st, locals, heap⟩ .zeroDivision
  | .leaves e ws => ∀ st heap, ∃ heap', heap <+: heap' ∧
      c.Goes c' ⟨0, vs ++ st, locals, heap⟩ e ⟨0, ws ++ st, locals, heap'⟩

namespace Code

variable {locals : Locals} {vs us : List Val} {c c₁ c₂ : Code} {y y' : Yield} {n : Nat}

theorem Yields.above (h : c.Yields locals vs c₁ y) (us : List Val) :
    c.Yields locals (vs ++ us) c₁ (y.above us) := by
  cases y with
  | unknown => trivial
  | fails =>
    intro st heap
    rw [List.append_assoc]
    exact h _ heap
  | leaves e ws =>
    intro st heap
    rw [List.append_assoc, List.append_assoc]
    exact h _ heap

theorem Yields.trans (h : c.Yields locals vs c₁ y)
    (h' : ∀ ws, y = .leaves .next ws → c₁.Yields locals ws c₂ y') (hgrow : c.Grows n c₁)
    (hgrow' : c₁.Grows n c₂) : c.Yields locals vs c₂ (y.andThen y') := by
  cases y with
  | unknown => trivial
  | fails => exact fun st heap => (h st heap).mono hgrow'
  | leaves e ws =>
    cases e with
    | label l =>
      intro st heap
      obtain ⟨heap', hheap, hgoes⟩ := h st heap
      exact ⟨heap', hheap, hgoes.skip hgrow hgrow'⟩
    | next =>
      have h' := h' ws rfl
      cases y' with
      | unknown => trivial
      | fails =>
        intro st heap
        obtain ⟨heap', -, hgoes⟩ := h st heap
        exact hgoes.finishes (h' st heap') hgrow'
      | leaves e us =>
        intro st heap
        obtain ⟨heap', hheap, hgoes⟩ := h st heap
        obtain ⟨heap'', hheap', hgoes'⟩ := h' st heap'
        exact ⟨heap'', hheap.trans hheap', hgoes.trans hgoes' hgrow hgrow'⟩

theorem yields_refl (locals : Locals) (vs : List Val) (c : Code) :
    c.Yields locals vs c (.leaves .next vs) :=
  fun _ heap => ⟨heap, List.prefix_refl heap, goes_refl c _⟩

end Code

namespace Gen

/-- Writing code that turns the values `vs` on top of the stack into others; `n` labels are there. -/
structure Turns (n : Nat) (s : Scopes) (locals : Locals) (vs : List Val) (m : Gen α) (y : Yield) :
    Prop where
  plain : Plain m
  yields (b : Body) : b.scopes = s → n ≤ b.code.marks.size →
    After m b fun _ b' => b.code.Yields locals vs b'.code y

/-- Looking something up, which writes nothing. -/
structure Reads (s : Scopes) (m : Gen α) (P : α → Prop) : Prop where
  plain : Plain m
  after (b : Body) : b.scopes = s → After m b fun a b' => b' = b ∧ P a

section
variable {α β : Type} {n : Nat} {s : Scopes} {locals : Locals} {vs ws us : List Val} {m : Gen α}
  {f : α → Gen β} {y z : Yield} {P : α → Prop}

theorem Plain.turns (h : Plain m) : Turns n s locals vs m .unknown :=
  ⟨h, fun _ _ _ _ _ _ => trivial⟩

theorem Turns.bind (h : Turns n s locals vs m y) (hplain : ∀ a, Plain (f a))
    (hf : ∀ ws, y = .leaves .next ws → ∀ a, Turns n s locals ws (f a) z) :
    Turns n s locals vs (m >>= f) (y.andThen z) := by
  refine ⟨h.plain.bind hplain, fun b hs hn => .bind fun a b₁ hm => ?_⟩
  obtain ⟨hgrow, hs₁⟩ := h.plain b a b₁ hm
  intro a' b₂ hm'
  obtain ⟨hgrow', -⟩ := hplain a b₁ a' b₂ hm'
  refine (h.yields b hs hn a b₁ hm).trans (fun ws hy => ?_) hgrow (hgrow'.mono hgrow.marks)
  exact (hf ws hy a).yields b₁ (hs₁.trans hs) (Nat.le_trans hn hgrow.marks) a' b₂ hm'

/-- One thing after another. -/
theorem Turns.next (h : Turns n s locals vs m (.leaves .next ws))
    (hf : ∀ a, Turns n s locals ws (f a) y) : Turns n s locals vs (m >>= f) y := by
  refine h.bind (fun a => (hf a).plain) fun ws' hws => ?_
  cases hws
  exact hf

theorem Turns.above (h : Turns n s locals vs m y) (us : List Val) :
    Turns n s locals (vs ++ us) m (y.above us) :=
  ⟨h.plain, fun b hs hn a b' hm => (h.yields b hs hn a b' hm).above us⟩

theorem Turns.discard (h : Turns n s locals vs m y) : Turns n s locals vs (Functor.discard m) y :=
  ⟨h.plain.bind fun _ => (quiet_pure _).plain, fun b hs hn => .discard (h.yields b hs hn)⟩

/-- What is left does not depend on what is given back. -/
theorem Turns.returns (h : Turns n s locals vs m y) (x : β) :
    Turns n s locals vs (m >>= fun _ => Pure.pure x) y where
  plain := h.plain.bind fun _ => (quiet_pure _).plain
  yields b hs hn := .bind ((h.yields b hs hn).mono fun _ _ h' => .of_eq rfl h')

theorem turns_pure (a : α) : Turns n s locals vs (Pure.pure a) (.leaves .next vs) :=
  ⟨(quiet_pure a).plain, fun b _ _ => .of_eq rfl (b.code.yields_refl locals vs)⟩

theorem Turns.read (hread : Reads s m P) (hplain : ∀ a, Plain (f a))
    (hf : ∀ a, P a → Turns n s locals vs (f a) y) : Turns n s locals vs (m >>= f) y := by
  refine ⟨hread.plain.bind hplain, fun b hs hn => .bind fun a b₁ hm => ?_⟩
  obtain ⟨rfl, ha⟩ := hread.after b hs a b₁ hm
  exact (hf a ha).yields b₁ hs hn

theorem Turns.lift {x : Compiled α} (hf : ∀ a, x = .ok a → Turns n s locals vs (f a) y) :
    Turns n s locals vs (liftM x >>= f) y where
  plain b := .bind (.lift fun a ha => (hf a ha).plain b)
  yields b hs hn := .bind (.lift fun a ha => (hf a ha).yields b hs hn)

theorem Reads.mono (h : Reads s m P) (hPQ : ∀ a, P a → Q a) : Reads s m Q :=
  ⟨h.plain, fun b hb => (h.after b hb).mono fun a _ h' => ⟨h'.1, hPQ a h'.2⟩⟩

theorem reads_typeOf (env : Env) (x : Expr) : Reads s (typeOf env x) fun t => env.typeOf s x = .ok t := by
  refine ⟨plain_lookup _, fun b hs => .bind (.of_eq rfl (.lift fun t ht => ⟨rfl, ?_⟩))⟩
  rw [← hs]
  exact ht

/-! ### Instructions -/

end

end Gen

/-- An instruction turns the values on top of the stack into others. -/
structure Instr.Turns (locals : Locals) (i : Instr) (vs ws : List Val) : Prop where
  isModest : i.IsModest
  isTerminal : i.op.isTerminal = false
  exec (C : Code) (k : Nat) (st : List Val) (heap : List (List Nat)) :
    exec C i ⟨k, vs ++ st, locals, heap⟩ = some (.next ⟨k + 1, ws ++ st, locals, heap⟩)

namespace Gen

section
variable {n : Nat} {s : Scopes} {locals : Locals} {vs ws : List Val} {f : Code → Code} {i : Instr}

theorem turns_emit (hi : i.Turns locals vs ws) (hf : ∀ c, f c = c.emit i) :
    Turns n s locals vs (edit f) (.leaves .next ws) := by
  have hf : f = (·.emit i) := funext hf
  subst hf
  refine ⟨plain_emit hi.isModest, fun b _ _ => .of_eq rfl fun st heap => ?_⟩
  refine ⟨heap, List.prefix_refl heap, Code.goes_emit hi.isTerminal fun C k => ?_⟩
  exact hi.exec C k st heap

theorem turns_op {op : Opcode} (hshape : op.shape = .plain)
    (hterm : op.isTerminal = false) (haction : actions.lookup op = some a)
    (hrun : ∀ k st heap, a.run ⟨k, vs ++ st, locals, heap⟩ =
      some (.next ⟨k + 1, ws ++ st, locals, heap⟩)) :
    Turns n s locals vs (Gen.op op) (.leaves .next ws) := by
  refine turns_emit (i := ⟨op, .plain⟩) ⟨Instr.isModest_of_effect rfl rfl, hterm, ?_⟩ fun c =>
    c.op_eq hshape
  intro C k st heap
  rw [exec]
  dsimp only
  rw [haction]
  exact hrun k st heap

theorem turns_op_fails {op : Opcode} (hshape : op.shape = .plain)
    (haction : actions.lookup op = some a)
    (hrun : ∀ k st heap, a.run ⟨k, vs ++ st, locals, heap⟩ = some (.done .zeroDivision)) :
    Turns n s locals vs (Gen.op op) .fails := by
  refine ⟨(quiet_op hshape).plain, fun b _ _ => .of_eq rfl fun st heap => ?_⟩
  change b.code.Finishes (b.code.op op) _ _
  rw [Code.op_eq _ hshape]
  refine Code.finishes_emit fun C k => ?_
  rw [exec]
  dsimp only
  rw [haction]
  exact hrun k st heap

/-! ### From one state to another -/

end

/-- Writing code that takes the machine from a state to another. -/
structure Takes (s : Scopes) (m : Gen α) (S S' : State) : Prop where
  plain : Plain m
  goes (b : Body) : b.scopes = s → After m b fun _ b' => b.code.Goes b'.code S .next S'

section
variable {α β : Type} {s : Scopes} {m : Gen α} {f : α → Gen β} {S S₁ S' : State}

theorem Takes.bind (h : Takes s m S S₁) (hf : ∀ a, Takes s (f a) S₁ S') : Takes s (m >>= f) S S' := by
  refine ⟨h.plain.bind fun a => (hf a).plain, fun b hs => .bind fun a b₁ hm => ?_⟩
  obtain ⟨hgrow, hs₁⟩ := h.plain b a b₁ hm
  intro a' b₂ hm'
  obtain ⟨hgrow', -⟩ := (hf a).plain b₁ a' b₂ hm'
  exact (h.goes b hs a b₁ hm).trans ((hf a).goes b₁ (hs₁.trans hs) a' b₂ hm') hgrow
    (hgrow'.mono hgrow.marks)

theorem takes_emit {f : Code → Code} (hi : i.IsModest) (hterm : i.op.isTerminal = false)
    (hexec : ∀ C k, exec C i (S.move k) = some (.next (S'.move (k + 1)))) (hf : ∀ c, f c = c.emit i) :
    Takes s (edit f) S S' := by
  have hf : f = (·.emit i) := funext hf
  subst hf
  exact ⟨plain_emit hi, fun b _ => .of_eq rfl (Code.goes_emit hterm hexec)⟩

theorem takes_op {op : Opcode} {a : Machine.Action} (hshape : op.shape = .plain)
    (hterm : op.isTerminal = false) (haction : actions.lookup op = some a)
    (hrun : ∀ k, a.run (S.move k) = some (.next (S'.move (k + 1)))) : Takes s (Gen.op op) S S' := by
  refine takes_emit (i := ⟨op, .plain⟩) (Instr.isModest_of_effect rfl rfl) hterm (fun C k => ?_)
    fun c => c.op_eq hshape
  rw [exec]
  dsimp only
  rw [haction]
  exact hrun k

/-- A call of the library. -/
theorem takes_invoke {op : Opcode}
    (hop : op ≠ .invokeinterface) (hterm : op.isTerminal = false)
    (hcall : calls.lookup (op, { cls := cls, name := name, desc := desc }) = some c)
    (hrun : c.run S.stack S.heap = some (st, heap)) :
    Takes s (invoke op cls name desc) S { S with stack := st, heap := heap } := by
  refine ⟨(quiet_invoke op cls name desc).plain, fun b _ a b' hm => ?_⟩
  unfold invoke access at hm
  dsimp only at hm
  split at hm
  · next code hc =>
    cases hm
    obtain ⟨r', pop, push, -, -, hr, rfl⟩ := Code.invoke_eq_ok hc
    cases hr hop
    refine Code.goes_emit hterm fun C k => ?_
    rw [exec]
    dsimp only
    rw [hcall]
    dsimp only [Option.bind_eq_bind, Option.bind_some]
    rw [show (S.move k).stack = S.stack from rfl, show (S.move k).heap = S.heap from rfl, hrun]
    rfl
  · cases hm

/-- Code that takes the machine from states to others whose heaps go on from theirs. -/
theorem Takes.turns
    (h : ∀ st heap, ∃ heap', heap <+: heap' ∧
      Takes s m ⟨0, vs ++ st, locals, heap⟩ ⟨0, ws ++ st, locals, heap'⟩) :
    Turns n s locals vs m (.leaves .next ws) := by
  obtain ⟨_, -, h₀⟩ := h [] []
  refine ⟨h₀.plain, fun b hs _ a b' hm st heap => ?_⟩
  obtain ⟨heap', hheap, h⟩ := h st heap
  exact ⟨heap', hheap, h.goes b hs a b' hm⟩

end

end Gen

end Classwright
