import Classwright.Proofs.Code.Tracking
import Classwright.Proofs.Failure
import Classwright.Proofs.Ty.Erasure

/-!
What writing code does to the stack. `Gen.Ensures` is what holds of the outcome if writing succeeds,
and that it does not fail for the stack; `Gen.At` follows the depth from some origin on, where each
instruction takes only what has been pushed since. `Gen.Pushes` says that an action leaves some slots
more wherever it starts.
-/

namespace Classwright

/-- A jump that takes some slots. -/
def Opcode.Branches (op : Opcode) (k : Nat) : Prop :=
  op.isJump = true ∧ op.effect = (k, 0) ∧ op.isReturn = false

instance (op : Opcode) (k : Nat) : Decidable (op.Branches k) := by
  unfold Opcode.Branches
  infer_instance

namespace Gen

/-! ### Outcomes -/

/-- Writing code does not fail for the stack, and its outcome satisfies a condition if there is
one. -/
def Ensures (m : Gen α) (b : Body) (Q : α → Body → Prop) : Prop :=
  StackSafe (m b) ∧ ∀ a b', m b = .ok (a, b') → Q a b'

section
variable {α β : Type} {b : Body} {Q : β → Body → Prop}

theorem Ensures.mono (h : Ensures m b P)
    (hPR : ∀ a b', P a b' → R a b') : Ensures m b R :=
  ⟨h.1, fun a b' hm => hPR a b' (h.2 a b' hm)⟩

/-- Writing code that cannot fail. -/
theorem Ensures.of_eq (hm : m b = .ok (a, b')) (h : Q a b') :
    Ensures m b Q := by
  refine ⟨hm ▸ .ok _, fun a' b'' hm' => ?_⟩
  cases hm.symm.trans hm'
  exact h

theorem Ensures.of_error (hm : m b = .error e) (he : e.isStack = false) :
    Ensures m b Q := by
  refine ⟨hm ▸ .error he, fun a' b'' hm' => ?_⟩
  cases hm.symm.trans hm'

theorem Ensures.pure (h : Q a b) : Ensures (Pure.pure a) b Q := .of_eq rfl h

theorem Ensures.bind
    (h : Ensures m b fun a b' => Ensures (f a) b' Q) : Ensures (m >>= f) b Q := by
  refine ⟨.bind h.1 fun r hr => (h.2 _ _ hr).1, fun y b'' hm => ?_⟩
  obtain ⟨⟨a, b'⟩, ha, hf⟩ := bind_eq_ok hm
  exact (h.2 a b' ha).2 y b'' hf

theorem Ensures.andThen (h : Ensures m b P)
    (hf : ∀ a b', P a b' → Ensures (f a) b' Q) : Ensures (m >>= f) b Q := .bind (h.mono hf)

theorem Ensures.discard {Q : PUnit → Body → Prop}
    (h : Ensures m b fun _ b' => Q ⟨⟩ b') : Ensures (Functor.discard m) b Q :=
  .bind (m := m) (h.mono fun _ _ => .pure)

theorem Ensures.lift (hx : StackSafe x) (h : ∀ a, x = .ok a → Q a b) :
    Ensures (liftM x) b Q := by
  refine ⟨.bind hx fun _ _ => .ok _, fun a b' hm => ?_⟩
  obtain ⟨y, hy, hf⟩ := bind_eq_ok hm
  cases hf
  exact h a hy

theorem Ensures.throw (he : e.isStack = false) :
    Ensures (MonadExcept.throw e) b Q := .of_error rfl he

theorem Ensures.refuse (tok : Token) (fault : CompileFault) : Ensures (Gen.refuse tok fault) b Q :=
  .of_error rfl rfl

theorem Ensures.get {Q : Body → Body → Prop} (h : Q b b) : Ensures MonadState.get b Q := .of_eq rfl h

theorem Ensures.edit {Q : PUnit → Body → Prop}
    (h : Q ⟨⟩ { b with code := f b.code }) : Ensures (Gen.edit f) b Q := .of_eq rfl h

theorem Ensures.access {Q : PUnit → Body → Prop}
    (h : ∀ c, f b.code = .ok c → Q ⟨⟩ { b with code := c }) : Ensures (Gen.access f) b Q := by
  cases hf : f b.code with
  | ok c => exact .of_eq (by unfold Gen.access; rw [hf]) (h c hf)
  | error e => exact .of_error (by unfold Gen.access; rw [hf]) rfl

theorem Ensures.newLabel {Q : Label → Body → Prop}
    (h : Q b.code.marks.size { b with code := b.code.newLabel.2 }) : Ensures Gen.newLabel b Q :=
  .of_eq rfl h

theorem Ensures.isReachable {Q : Bool → Body → Prop} (h : Q b.code.pos.isSome b) :
    Ensures Gen.isReachable b Q := by
  refine .of_eq rfl ?_
  rw [Code.pos] at h
  cases hd : b.code.dead <;> rw [hd] at h <;> exact h

end

/-! ### Depths -/

/-- Where a stretch of code starts, how many slots it may use from there on, which depths it may give
to labels from before, and how many slots its returns leave. -/
structure Origin where
  base : Option Int
  room : Int
  touch : Label → Int → Prop
  code : Code

/-- A stretch of code from where a body has got to, which leaves the labels from before alone. -/
abbrev Origin.of (base : Option Int) (room : Int) (b : Body) : Origin :=
  ⟨base, room, Code.untouched, b.code⟩

/-- The stack may grow by some slots. -/
def HasRoom (c : Code) (room : Int) : Prop := ∀ d, c.pos = some d → d + room < Code.limit

/-- A stretch of code has got to a place with `n` slots more than where it started, in the scopes
`s`; some labels of its own are not bound yet. -/
structure At (o : Origin) (own : List Label) (s : Scopes) (n : Int) (b : Body) : Prop where
  scopes : b.scopes = s
  start : ∀ d, o.code.pos = some d → 0 ≤ d ∧ d + o.room < Code.limit
  step : Code.Step o.base o.touch own o.code b.code
  pos : b.code.pos = o.code.pos.map (· + n)

theorem At.refl (touch : Label → Int → Prop)
    (hsound : b.code.Sound base) (hroom : HasRoom b.code room) :
    At ⟨base, room, touch, b.code⟩ [] b.scopes 0 b where
  scopes := rfl
  start d hd := ⟨hsound.pos_nonneg hd, hroom d hd⟩
  step := .refl hsound
  pos := by simp

theorem map_add_add (p : Option Int) (m k : Int) :
    (p.map (· + m)).map (· + k) = p.map (· + (m + k)) := by
  cases p with
  | none => rfl
  | some d => exact congrArg some (Int.add_assoc d m k)

theorem isReturn_of_isTerminal {op : Opcode} (h : op.isTerminal = false) : op.isReturn = false := by
  rw [Opcode.isTerminal, Bool.or_eq_false_iff] at h
  exact h.2

theorem effect_load (h : t.isVoid = false) :
    (Opcode.iload.forType t).effect = (0, t.size) ∧ (Opcode.iload.forType t).isTerminal = false := by
  cases t with
  | prim p => cases p <;> first | decide | cases h
  | _ => exact ⟨rfl, rfl⟩

theorem effect_store (h : t.isVoid = false) :
    (Opcode.istore.forType t).effect = (t.size, 0) ∧ (Opcode.istore.forType t).isTerminal = false := by
  cases t with
  | prim p => cases p <;> first | decide | cases h
  | _ => exact ⟨rfl, rfl⟩

section
variable {o : Origin} {own : List Label} {s : Scopes} {n : Int} {b : Body} (h : At o own s n b)
include h

theorem At.congr (e : n = m) : At o own s m b := e ▸ h

theorem At.pos_eq_some (hd : b.code.pos = some d) :
    ∃ e, o.code.pos = some e ∧ d = e + n := by
  rw [h.pos] at hd
  obtain ⟨e, he, rfl⟩ := Option.map_eq_some_iff.1 hd
  exact ⟨e, he, rfl⟩

theorem At.hasRoom (hroom : n + room ≤ o.room) :
    HasRoom b.code room := by
  intro d hd
  obtain ⟨e, he, rfl⟩ := h.pos_eq_some hd
  have := (h.start e he).2
  omega

/-- An instruction that takes no more than has been pushed. -/
theorem At.emit (hpop : i.pop ≤ n) (hpush : 0 ≤ i.push)
    (hroom : n + i.push - i.pop ≤ o.room) (htarget : i.target? = none)
    (hterm : i.op.isTerminal = false) :
    At o own s (n + i.push - i.pop) { b with code := b.code.emit i } := by
  have hi : ∀ d, b.code.pos = some d → b.code.Ready o.base i d := by
    intro d hd
    obtain ⟨e, he, rfl⟩ := h.pos_eq_some hd
    obtain ⟨hnonneg, hlimit⟩ := h.start e he
    refine ⟨by omega, by omega, by omega, ?_, ?_⟩
    · rw [isReturn_of_isTerminal hterm]
      exact fun _ h => absurd h Bool.false_ne_true
    · rw [htarget]
      exact nofun
  refine ⟨h.scopes, h.start, h.step.emit hi (by rw [htarget]; exact nofun), ?_⟩
  dsimp only
  rw [Code.pos_emit hi, hterm, if_neg Bool.false_ne_true, h.pos, map_add_add,
    show n + (i.push - i.pop) = n + i.push - i.pop by omega]

/-- A jump, which takes some slots and leaves the stack as it is otherwise. -/
structure Jumped (o : Origin) (own : List Label) (s : Scopes) (n : Int) (l : Label) (final : Bool)
    (b : Body) : Prop where
  scopes : b.scopes = s
  step : Code.Step o.base o.touch own o.code b.code
  pos : b.code.pos = if final then none else o.code.pos.map (· + n)
  mark : ∀ d, o.code.pos = some d → b.code.mark? l = some (d + n)

theorem At.jump {op : Opcode} (hop : op.Branches k) (hk : k ≤ n)
    (hroom : n - k ≤ o.room)
    (hl : ∀ d, o.code.pos = some d → b.code.Takes l (d + (n - k)))
    (htouch : l < o.code.marks.size → ∀ d, o.code.pos = some d → o.touch l (d + (n - k))) :
    Ensures (Gen.jump op l) b fun _ => Jumped o own s (n - k) l op.isTerminal := by
  obtain ⟨hop, heffect, hret⟩ := hop
  have hinstr : Instr.ofParts op { label := l } = ⟨op, .label l⟩ := by
    rw [Instr.ofParts, (op.info_of_isJump hop).2]
  have hpop : (⟨op, .label l⟩ : Instr).pop = k := congrArg (fun e => (e.1 : Int)) heffect
  have hpush : (⟨op, .label l⟩ : Instr).push = 0 := congrArg (fun e => (e.2 : Int)) heffect
  have hi : ∀ d, b.code.pos = some d → b.code.Ready o.base ⟨op, .label l⟩ d := by
    intro d hd
    obtain ⟨e, he, rfl⟩ := h.pos_eq_some hd
    obtain ⟨hnonneg, hlimit⟩ := h.start e he
    refine ⟨by omega, by omega, by omega, ?_, ?_⟩
    · rw [hret]
      exact fun _ h => absurd h Bool.false_ne_true
    · rintro _ ⟨⟩
      rw [hpop, hpush, show e + n + 0 - (k : Int) = e + (n - k) by omega]
      exact hl e he
  refine .edit ?_
  rw [Code.jump, hinstr]
  refine ⟨h.scopes, h.step.emit hi ?_, ?_, ?_⟩
  · rintro l' d hlt ⟨⟩ hd
    obtain ⟨e, he, rfl⟩ := h.pos_eq_some hd
    rw [hpop, hpush, show e + n + 0 - (k : Int) = e + (n - k) by omega]
    exact htouch hlt e he
  · dsimp only
    rw [Code.pos_emit hi, hpop, hpush, h.pos, map_add_add,
      show n + (0 - (k : Int)) = n - k by omega]
  · intro d hd
    have hd' : b.code.pos = some (d + n) := by rw [h.pos, hd]; rfl
    dsimp only
    rw [Code.mark?_emit hi hd' rfl, hpop, hpush]
    exact congrArg some (by omega)

/-! ### Instructions -/

/-- An instruction that takes `p` slots, leaves `q` and does not jump. -/
theorem At.editEmit {op : Opcode} {q : Nat}
    (hx : (⟨op, x⟩ : Instr).target? = none) (hpop : (⟨op, x⟩ : Instr).pop = p)
    (hpush : (⟨op, x⟩ : Instr).push = q) (hterm : op.isTerminal = false) (hp : p ≤ n)
    (hroom : n + q - p ≤ o.room) :
    At o own s (n + q - p) { b with code := b.code.emit ⟨op, x⟩ } := by
  rw [← hpop, ← hpush]
  rw [← hpop] at hp hroom
  rw [← hpush] at hroom
  exact h.emit hp (by omega) hroom hx hterm

theorem At.code_op {op : Opcode} (hop : op.Moves .plain p q) (hp : p ≤ n)
    (hroom : n + q - p ≤ o.room) : At o own s (n + q - p) { b with code := b.code.op op } := by
  rw [Code.op_eq _ hop.2.2]
  exact h.editEmit rfl (congrArg (fun e => (e.1 : Int)) hop.1)
    (congrArg (fun e => (e.2 : Int)) hop.1) hop.2.1 hp hroom

theorem At.op {op : Opcode} (hop : op.Moves .plain p q) (hp : p ≤ n)
    (hroom : n + q - p ≤ o.room) : Ensures (Gen.op op) b fun _ => At o own s (n + q - p) :=
  .edit (h.code_op hop hp hroom)

theorem At.load {t : Ty} (ht : t.isVoid = false) (slot : Int) (hn : 0 ≤ n)
    (hroom : n + t.size ≤ o.room) :
    Ensures (edit (·.load t slot)) b fun _ => At o own s (n + t.size) := by
  obtain ⟨heffect, hterm⟩ := effect_load ht
  exact .edit ((h.editEmit (x := .slot slot) rfl (congrArg (fun e => (e.1 : Int)) heffect)
    (congrArg (fun e => (e.2 : Int)) heffect) hterm hn (by omega)).congr (Int.sub_zero _))

theorem At.store {t : Ty} (ht : t.isVoid = false) (slot : Int)
    (hn : t.size ≤ n) (hroom : n ≤ o.room) :
    Ensures (edit (·.store t slot)) b fun _ => At o own s (n - t.size) := by
  obtain ⟨heffect, hterm⟩ := effect_store ht
  exact .edit ((h.editEmit (x := .slot slot) rfl (congrArg (fun e => (e.1 : Int)) heffect)
    (congrArg (fun e => (e.2 : Int)) heffect) hterm hn (by omega)).congr (by omega))

theorem At.inc (slot by_ : Int) (hn : 0 ≤ n) (hroom : n ≤ o.room) :
    Ensures (edit (·.inc slot by_)) b fun _ => At o own s n :=
  .edit ((h.editEmit (p := 0) (q := 0) (x := .increment slot by_) rfl rfl rfl (by decide) hn
    (by omega)).congr (by omega))

/-- An instruction on a class: making an object, a test or a cast. -/
theorem At.type {op : Opcode} (hop : op.Moves .cls p q) (name : Text) (hp : p ≤ n)
    (hroom : n + q - p ≤ o.room) :
    Ensures (edit (·.type op name)) b fun _ => At o own s (n + q - p) := by
  have hinstr : Instr.ofParts op { ref := { cls := name } } = ⟨op, .cls name⟩ := by
    rw [Instr.ofParts, hop.2.2]
  refine .edit ?_
  rw [Code.type, hinstr]
  exact h.editEmit rfl (congrArg (fun e => (e.1 : Int)) hop.1)
    (congrArg (fun e => (e.2 : Int)) hop.1) hop.2.1 hp hroom

theorem At.drop (t : Ty) (hn : t.size ≤ n) (hroom : n ≤ o.room) :
    Ensures (edit (·.drop t)) b fun _ => At o own s (n - t.size) := by
  refine .edit ?_
  unfold Code.drop
  have := t.size_le_two
  have hcases : t.size = 0 ∨ t.size = 1 ∨ t.size = 2 := by omega
  rcases hcases with ht | ht | ht <;> rw [ht] at hn ⊢
  · exact h.congr (Int.sub_zero _).symm
  · exact (h.code_op (p := 1) (q := 0) (by decide) hn (by omega)).congr (by omega)
  · exact (h.code_op (p := 2) (q := 0) (by decide) hn (by omega)).congr (by omega)

/-- A copy of the value on top, under no slot or one. -/
theorem At.dup {t : Ty} (ht : t.isVoid = false) {under : Nat} (hu : under ≤ 1)
    (hn : t.size + under ≤ n) (hroom : n + t.size ≤ o.room) :
    Ensures (edit (·.dup t under)) b fun _ => At o own s (n + t.size) := by
  have hsize := t.size_le_two
  have hpos := Ty.size_pos ht
  have hcases : t.size = 1 ∨ t.size = 2 := by omega
  have hunder : under = 0 ∨ under = 1 := by omega
  refine .edit ?_
  unfold Code.dup
  dsimp only
  rcases hcases with ht | ht <;> rcases hunder with rfl | rfl <;> rw [ht] at hn hroom ⊢
  · exact (h.code_op (p := 1) (q := 2) (by decide) (by omega) (by omega)).congr (by omega)
  · exact (h.code_op (p := 2) (q := 3) (by decide) (by omega) (by omega)).congr (by omega)
  · exact (h.code_op (p := 2) (q := 4) (by decide) (by omega) (by omega)).congr (by omega)
  · exact (h.code_op (p := 3) (q := 5) (by decide) (by omega) (by omega)).congr (by omega)

theorem At.push {q : Nat} (hi : i.Loads q) (hn : 0 ≤ n)
    (hroom : n + q ≤ o.room) : At o own s (n + q) { b with code := b.code.emit i } := by
  obtain ⟨hpop, hpush, htarget⟩ := hi.stack
  have := h.emit (i := i) (by rw [hpop]; exact hn) (by rw [hpush]; omega)
    (by rw [hpop, hpush]; omega) htarget hi.term
  rwa [hpop, hpush, Int.sub_zero] at this

/-! ### Members -/

section
variable {owner : Text} {v : Var} (hv : v.type.isTight = true)
include hv

/-- Access to a field of a type that takes the slots of its descriptor. -/
theorem At.access_field {op : Opcode} (owner : Text)
    (hop : op = .getstatic ∧ p = 0 ∧ q = v.type.size ∨ op = .putstatic ∧ p = v.type.size ∧ q = 0 ∨
      op = .getfield ∧ p = 1 ∧ q = v.type.size ∨ op = .putfield ∧ p = 1 + v.type.size ∧ q = 0)
    (hp : p ≤ n) (hroom : n + q - p ≤ o.room) :
    Ensures (field op owner v) b fun _ => At o own s (n + q - p) := by
  refine .access fun c hc => ?_
  unfold Code.field at hc
  split at hc
  · cases hc
  · next u hu =>
    rw [Ty.size_of_ofDescriptor hv hu] at hc
    rcases hop with ⟨rfl, rfl, rfl⟩ | ⟨rfl, rfl, rfl⟩ | ⟨rfl, rfl, rfl⟩ | ⟨rfl, rfl, rfl⟩ <;>
      cases hc <;> exact h.editEmit rfl rfl rfl (by decide) hp hroom

theorem At.getstatic (hn : 0 ≤ n) (hroom : n + v.type.size ≤ o.room) :
    Ensures (field .getstatic owner v) b fun _ => At o own s (n + v.type.size) := by
  have := h.access_field hv owner (.inl ⟨rfl, rfl, rfl⟩) hn (by omega)
  rwa [Int.natCast_zero, Int.sub_zero] at this

theorem At.putstatic (hn : v.type.size ≤ n) (hroom : n ≤ o.room) :
    Ensures (field .putstatic owner v) b fun _ => At o own s (n - v.type.size) := by
  have := h.access_field hv owner (.inr (.inl ⟨rfl, rfl, rfl⟩)) hn (by omega)
  rwa [Int.natCast_zero, Int.add_zero] at this

theorem At.getfield (hn : 1 ≤ n) (hroom : n + v.type.size ≤ o.room) :
    Ensures (field .getfield owner v) b fun _ => At o own s (n - 1 + v.type.size) := by
  have := h.access_field hv owner (.inr (.inr (.inl ⟨rfl, rfl, rfl⟩))) hn (by omega)
  rwa [show n + (v.type.size : Int) - (1 : Nat) = n - 1 + v.type.size by omega] at this

theorem At.putfield (hn : 1 + v.type.size ≤ n) (hroom : n ≤ o.room) :
    Ensures (field .putfield owner v) b fun _ => At o own s (n - 1 - v.type.size) := by
  have := h.access_field hv owner (.inr (.inr (.inr ⟨rfl, rfl, rfl⟩))) (by omega) (by omega)
  rwa [show n + ((0 : Nat) : Int) - (1 + v.type.size : Nat) = n - 1 - v.type.size by omega] at this

end

/-- A call of a method whose types take the slots of their descriptors. -/
theorem At.invoke {op : Opcode} (sig : Signature)
    (hsig : sig.isProper = true) (hdesc : desc = sig.descriptor)
    (hop : op = .invokestatic ∧ p = sig.argSize ∨
      (op = .invokevirtual ∨ op = .invokespecial ∨ op = .invokeinterface) ∧ p = sig.argSize + 1)
    (hq : sig.result.size = q) (hp : p ≤ n) (hroom : n + q - p ≤ o.room) :
    Ensures (Gen.invoke op cls name desc) b fun _ => At o own s (n + q - p) := by
  refine .access fun c hc => ?_
  unfold Code.invoke at hc
  rw [hdesc] at hc
  split at hc
  · cases hc
  · next r hr =>
    obtain ⟨hargs, hresult⟩ := Signature.slots_of_ofDescriptor hsig hr
    rw [hargs, hresult, hq] at hc
    rcases hop with ⟨rfl, rfl⟩ | ⟨rfl | rfl | rfl, rfl⟩ <;>
      cases hc <;> exact h.editEmit rfl rfl rfl (by decide) hp hroom

/-! ### Constants -/

/-- Pushing a value as one of a type takes the slots of the type. -/
theorem At.const (hv : v.Fills t) (hn : 0 ≤ n)
    (hroom : n + t.size ≤ o.room) :
    Ensures (edit (·.const t v)) b fun _ => At o own s (n + t.size) := by
  obtain ⟨i, q, hi, hload, hq⟩ := b.code.const_eq t v
  obtain rfl := hq hv
  refine .edit ?_
  rw [hi]
  exact h.push hload hn hroom

theorem At.int (v : Int32) (hn : 0 ≤ n) (hroom : n + 1 ≤ o.room) :
    Ensures (edit (·.int v)) b fun _ => At o own s (n + 1) := by
  obtain ⟨i, hi, hload⟩ := b.code.int_eq v
  refine .edit ?_
  rw [hi]
  exact h.push hload hn hroom

/-! ### Actions -/

/-- An action touches no label from before, and leaves some slots more than there were; what it gives
satisfies a condition. -/
def Pushes (base : Option Int) (room : Int) (s : Scopes) (m : Gen α) (size : α → Int) (P : α → Prop) : Prop :=
  ∀ b, b.scopes = s → b.code.Sound base → HasRoom b.code room →
    Ensures m b fun a b' => At (.of base room b) [] s (size a) b' ∧ P a

theorem At.trans
    (h' : At ⟨o.base, room, Code.untouched, b.code⟩ [] s k b') : At o own s (n + k) b' where
  scopes := h'.scopes
  start := h.start
  step := h.step.trans h'.step fun _ _ _ => False.elim
  pos := by rw [h'.pos, h.pos, map_add_add]

theorem At.run
    (hm : Pushes o.base room s m size P) (hroom : n + room ≤ o.room) :
    Ensures m b fun a b' => At o own s (n + size a) b' ∧ P a :=
  (hm b h.scopes h.step.sound (h.hasRoom hroom)).mono fun _ _ h' => ⟨h.trans h'.1, h'.2⟩

/-- A stretch may be allowed to give more depths to labels. -/
theorem At.imp
    (ht : ∀ l d, o.touch l d → touch l d) : At { o with touch := touch } own s n b where
  scopes := h.scopes
  start := h.start
  step := h.step.imp ht
  pos := h.pos

end

end Gen

end Classwright
