import Classwright.Proofs.Code.Writing
import Classwright.Proofs.Ty.Slots

/-!
Code that comes from the emitters (`Code.Emitted`). Each of its instructions has an opcode with a name
and an operand of the opcode's shape, in the range that the operand's bytes can hold (`Instr.Fits`).
-/

namespace Classwright

/-- An instruction with an operand of some shape takes `p` slots, leaves `q` and goes on to the next. -/
abbrev Opcode.Moves (op : Opcode) (shape : Opcode.Shape) (p q : Nat) : Prop :=
  op.effect = (p, q) ∧ op.isTerminal = false ∧ op.shape = shape

/-- An operand is of the shape of an opcode, and in the range of the bytes for it. -/
def Operand.Fits (op : Opcode) : Operand → Prop
  | .plain => op.shape = .plain
  | .slot n => op.shape = .slot ∧ 0 ≤ n ∧ n ≤ 65535
  | .increment n by_ => op = .iinc ∧ 0 ≤ n ∧ n ≤ 65535 ∧ -32768 ≤ by_ ∧ by_ ≤ 32767
  | .immediate v => op = .bipush ∧ -128 ≤ v ∧ v ≤ 127 ∨ op = .sipush ∧ -32768 ≤ v ∧ v ≤ 32767
  | .const v => (op = .ldc ∨ op = .ldc2W) ∧ v.isSome = true
  | .member .. => op.shape = .member
  | .cls _ => op.shape = .cls
  | .label _ => op.shape = .label

/-- The opcode of an instruction has a name, and its operand fits. -/
structure Instr.Fits (i : Instr) : Prop where
  info : i.op.info?.isSome = true
  operand : i.operand.Fits i.op

/-- An instruction pushes a constant of some slots, and does nothing else. -/
structure Instr.Loads (i : Instr) (q : Nat) : Prop where
  fits : i.Fits
  effect : i.op.effect = (0, q)
  term : i.op.isTerminal = false
  operand : i.operand = .plain ∨ (∃ n, i.operand = .immediate n) ∨ ∃ v, i.operand = .const v

theorem Instr.Loads.stack {i : Instr} (h : i.Loads q) :
    i.pop = 0 ∧ i.push = q ∧ i.target? = none := by
  have hpop : (i.op.effect.1 : Int) = 0 := congrArg (fun e => (e.1 : Int)) h.effect
  have hpush : (i.op.effect.2 : Int) = q := congrArg (fun e => (e.2 : Int)) h.effect
  obtain ⟨op, x⟩ := i
  rcases h.operand with hx | ⟨n, hx⟩ | ⟨v, hx⟩ <;> cases hx <;> exact ⟨hpop, hpush, rfl⟩

/-- A value takes the slots of a type if it is pushed as one of that type. -/
def Value.Fills (t : Ty) : Value → Prop
  | .null | .bool _ | .str _ => t.size = 1
  | .int _ => t.isVoid = false
  | .float _ => t = .float ∨ t = .double

namespace Opcode

/-- An opcode with a name stands alone. -/
def IsPlain (op : Opcode) : Prop := op.info?.isSome = true ∧ op.shape = .plain

/-- What holds of all numbers of one byte holds of all opcodes. -/
theorem forall_of_lt {P : Opcode → Prop} (h : ∀ n < 256, P ⟨UInt8.ofNat n⟩) (op : Opcode) : P op := by
  have := h op.code.toNat op.code.toNat_lt
  rwa [UInt8.ofNat_toNat] at this

theorem info_of_isJump (op : Opcode) : op.isJump = true → op.info?.isSome = true ∧ op.shape = .label :=
  forall_of_lt (P := fun op => op.isJump = true → op.info?.isSome = true ∧ op.shape = .label)
    (by decide +kernel) op

/-- A family has a member for each kind of value. -/
theorem forType_cases (op : Opcode) (t : Ty) :
    op.forType t = op ∨ op.forType t = ⟨op.code + 1⟩ ∨ op.forType t = ⟨op.code + 2⟩ ∨
      op.forType t = ⟨op.code + 3⟩ ∨ op.forType t = ⟨op.code + 4⟩ := by
  unfold forType
  split
  · exact .inr (.inl rfl)
  · exact .inr (.inr (.inl rfl))
  · exact .inr (.inr (.inr (.inl rfl)))
  · split
    · exact .inr (.inr (.inr (.inr rfl)))
    · exact .inl rfl

end Opcode

namespace Code

/-- Code that the emitters make, with local variables and increments in sixteen bits. -/
inductive Emitted : Code → Prop
  | empty : Emitted .empty
  | newLabel : Emitted c → Emitted c.newLabel.2
  | bind (l : Label) : Emitted c → Emitted (c.bind l)
  | int (v : Int32) : Emitted c → Emitted (c.int v)
  | long (v : Int64) : Emitted c → Emitted (c.long v)
  | float (v : Single) : Emitted c → Emitted (c.float v)
  | double (v : Double) : Emitted c → Emitted (c.double v)
  | string (s : Text) : Emitted c → Emitted (c.string s)
  | load (t : Ty) : 0 ≤ slot → slot ≤ 65535 → Emitted c → Emitted (c.load t slot)
  | store (t : Ty) : 0 ≤ slot → slot ≤ 65535 → Emitted c → Emitted (c.store t slot)
  | inc : 0 ≤ slot → slot ≤ 65535 → -32768 ≤ by_ → by_ ≤ 32767 → Emitted c →
    Emitted (c.inc slot by_)
  | jump {o : Opcode} (l : Label) : o.isJump = true → Emitted c → Emitted (c.jump o l)
  | field {o : Opcode} : c.field o r = .ok c' → Emitted c → Emitted c'
  | invoke {o : Opcode} : c.invoke o r = .ok c' → Emitted c → Emitted c'
  | type {o : Opcode} (name : Text) : o = .new ∨ o = .checkcast ∨ o = .instanceof → Emitted c →
    Emitted (c.type o name)
  | ret (t : Ty) : Emitted c → Emitted (c.ret t)
  | drop (t : Ty) : Emitted c → Emitted (c.drop t)
  | dup (t : Ty) (under : Int) : Emitted c → Emitted (c.dup t under)
  | op {o : Opcode} : o.info?.isSome = true → o.shape = .plain → Emitted c → Emitted (c.op o)

/-! ### Constants -/

theorem op_eq (c : Code) {op : Opcode} (h : op.shape = .plain) : c.op op = c.emit ⟨op, .plain⟩ := by
  rw [Code.op, Instr.ofParts, h]

theorem loads_op (c : Code) {op : Opcode}
    (h : op.info?.isSome = true ∧ op.Moves .plain 0 q) : ∃ i, c.op op = c.emit i ∧ i.Loads q :=
  ⟨_, c.op_eq h.2.2.2, ⟨h.1, h.2.2.2⟩, h.2.1, h.2.2.1, .inl rfl⟩

theorem int_eq (c : Code) (v : Int32) : ∃ i, c.int v = c.emit i ∧ i.Loads 1 := by
  unfold Code.int
  dsimp only
  split
  · next hv =>
    obtain ⟨k, hk⟩ : ∃ k : Nat, 3 + v.toInt = k := ⟨(3 + v.toInt).toNat, by omega⟩
    have hcases : k = 2 ∨ k = 3 ∨ k = 4 ∨ k = 5 ∨ k = 6 ∨ k = 7 ∨ k = 8 := by omega
    rw [hk, Int.toNat_natCast]
    rcases hcases with rfl | rfl | rfl | rfl | rfl | rfl | rfl <;> exact c.loads_op (by decide)
  · split
    · next hv => exact ⟨_, rfl, ⟨rfl, .inl ⟨rfl, hv⟩⟩, rfl, rfl, .inr (.inl ⟨_, rfl⟩)⟩
    · split
      · next hv =>
        exact ⟨_, rfl, ⟨rfl, .inr ⟨rfl, hv⟩⟩, rfl, rfl, .inr (.inl ⟨_, rfl⟩)⟩
      · exact ⟨_, rfl, ⟨rfl, .inl rfl, rfl⟩, rfl, rfl, .inr (.inr ⟨_, rfl⟩)⟩

theorem long_eq (c : Code) (v : Int64) : ∃ i, c.long v = c.emit i ∧ i.Loads 2 := by
  unfold Code.long
  split
  · exact c.loads_op (by decide)
  · split
    · exact c.loads_op (by decide)
    · exact ⟨_, rfl, ⟨rfl, .inr rfl, rfl⟩, rfl, rfl, .inr (.inr ⟨_, rfl⟩)⟩

theorem float_eq (c : Code) (v : Single) : ∃ i, c.float v = c.emit i ∧ i.Loads 1 := by
  unfold Code.float
  split
  · next n hn =>
    have hsmall : n = 0 ∨ n = 1 ∨ n = 2 := by
      unfold Single.small? at hn
      grind
    rcases hsmall with rfl | rfl | rfl <;> exact c.loads_op (by decide)
  · exact ⟨_, rfl, ⟨rfl, .inl rfl, rfl⟩, rfl, rfl, .inr (.inr ⟨_, rfl⟩)⟩

theorem double_eq (c : Code) (v : Double) : ∃ i, c.double v = c.emit i ∧ i.Loads 2 := by
  unfold Code.double
  split
  · next n hn =>
    have hsmall : n = 0 ∨ n = 1 := by
      unfold Double.small? at hn
      grind
    rcases hsmall with rfl | rfl <;> exact c.loads_op (by decide)
  · exact ⟨_, rfl, ⟨rfl, .inr rfl, rfl⟩, rfl, rfl, .inr (.inr ⟨_, rfl⟩)⟩

theorem string_eq (c : Code) (s : Text) : ∃ i, c.string s = c.emit i ∧ i.Loads 1 :=
  ⟨_, rfl, ⟨rfl, .inl rfl, rfl⟩, rfl, rfl, .inr (.inr ⟨_, rfl⟩)⟩

theorem const_eq (c : Code) (t : Ty) (v : Value) :
    ∃ i q, c.const t v = c.emit i ∧ i.Loads q ∧ (v.Fills t → q = t.size) := by
  have hloads {c' : Code} {q : Nat} (h : ∃ i, c' = c.emit i ∧ i.Loads q) (hq : v.Fills t → q = t.size) :
      ∃ i q, c' = c.emit i ∧ i.Loads q ∧ (v.Fills t → q = t.size) :=
    let ⟨i, heq, hi⟩ := h
    ⟨i, q, heq, hi, hq⟩
  cases v with
  | null => exact hloads (c.loads_op (q := 1) (by decide)) Eq.symm
  | bool x =>
    cases x <;> exact hloads (c.loads_op (q := 1) (by decide)) Eq.symm
  | str x => exact hloads (c.string_eq x) Eq.symm
  | int x =>
    cases t with
    | prim p =>
      cases p with
      | void => exact hloads (c.int_eq _) nofun
      | long => exact hloads (c.long_eq x) fun _ => rfl
      | float => exact hloads (c.float_eq _) fun _ => rfl
      | double => exact hloads (c.double_eq _) fun _ => rfl
      | _ => exact hloads (c.int_eq _) fun _ => rfl
    | _ => exact hloads (c.int_eq _) fun _ => rfl
  | float x =>
    unfold Code.const
    dsimp only
    split
    · exact hloads (c.float_eq _) fun _ => rfl
    · next hne => exact hloads (c.double_eq _) fun h => h.elim (fun h => absurd h hne) fun h => h ▸ rfl

/-! ### Opcodes alone -/

theorem ret_eq (c : Code) (t : Ty) : ∃ op : Opcode, op.IsPlain ∧ c.ret t = c.op op := by
  refine ⟨_, ?_, rfl⟩
  split
  · exact ⟨by decide, by decide⟩
  · rcases Opcode.forType_cases .ireturn t with h | h | h | h | h <;> rw [h] <;>
      exact ⟨by decide, by decide⟩

theorem drop_eq (c : Code) (t : Ty) : c.drop t = c ∨ ∃ op : Opcode, op.IsPlain ∧ c.drop t = c.op op := by
  unfold Code.drop
  split
  · exact .inl rfl
  · exact .inr ⟨_, ⟨by decide, by decide⟩, rfl⟩
  · exact .inr ⟨_, ⟨by decide, by decide⟩, rfl⟩

theorem dup_eq (c : Code) (t : Ty) (under : Int) :
    ∃ op : Opcode, op.IsPlain ∧ c.dup t under = c.op op := by
  refine ⟨_, ?_, rfl⟩
  split <;> split <;> first | exact ⟨by decide, by decide⟩ | (split <;> exact ⟨by decide, by decide⟩)

/-! ### Fitting code -/

/-- All instructions of code fit. -/
def AllFit (c : Code) : Prop := ∀ i ∈ c.instrs.toList, i.Fits

theorem AllFit.emit {c : Code} (h : c.AllFit) (hi : i.Fits) : (c.emit i).AllFit := by
  intro j hj
  rw [instrs_emit, Array.toList_push] at hj
  rcases List.mem_append.1 hj with hj | hj
  · exact h j hj
  · cases List.mem_singleton.1 hj
    exact hi

theorem AllFit.op {c : Code} (h : c.AllFit) {op : Opcode} (hop : op.IsPlain) : (c.op op).AllFit := by
  rw [c.op_eq hop.2]
  exact h.emit ⟨hop.1, hop.2⟩

theorem AllFit.loads {c : Code} (h : c.AllFit) (hc : ∃ i, c' = c.emit i ∧ i.Loads q) :
    c'.AllFit := by
  obtain ⟨i, rfl, hi⟩ := hc
  exact h.emit hi.fits

/-- The members of the families of loads and stores have names and a shape in common. -/
theorem forType_info (t : Ty) :
    ((Opcode.iload.forType t).info?.isSome = true ∧ (Opcode.iload.forType t).shape = .slot) ∧
    ((Opcode.istore.forType t).info?.isSome = true ∧ (Opcode.istore.forType t).shape = .slot) := by
  refine ⟨?_, ?_⟩
  · rcases Opcode.forType_cases .iload t with h | h | h | h | h <;> rw [h] <;> decide
  · rcases Opcode.forType_cases .istore t with h | h | h | h | h <;> rw [h] <;> decide

/-- A member takes an operand of its shape. -/
theorem field_eq_ok {c : Code} {op : Opcode} (h : c.field op r = .ok c') :
    ∃ pop push : Nat, (op = .getstatic ∨ op = .putstatic ∨ op = .getfield ∨ op = .putfield) ∧
      push ≤ 2 ∧ c' = c.emit ⟨op, .member r pop push⟩ := by
  unfold Code.field at h
  split at h
  · cases h
  · next t _ =>
    have hsize := t.size_le_two
    split at h
    · cases h
      exact ⟨0, t.size, by grind, hsize, rfl⟩
    · split at h
      · cases h
        exact ⟨t.size, 0, by grind, Nat.zero_le _, rfl⟩
      · split at h
        · cases h
          exact ⟨1, t.size, by grind, hsize, rfl⟩
        · split at h
          · cases h
            exact ⟨1 + t.size, 0, by grind, Nat.zero_le _, by rw [Int.natCast_add]; rfl⟩
          · cases h

theorem invoke_eq_ok {c : Code} {op : Opcode} (h : c.invoke op r = .ok c') :
    ∃ (r' : MemberRef) (pop push : Nat), (op = .invokestatic ∨ op = .invokevirtual ∨
      op = .invokespecial ∨ op = .invokeinterface) ∧ push ≤ 2 ∧ (op ≠ .invokeinterface → r' = r) ∧
      c' = c.emit ⟨op, .member r' pop push⟩ := by
  unfold Code.invoke at h
  split at h
  · cases h
  · next s _ =>
    have hsize := s.result.size_le_two
    split at h
    · cases h
      exact ⟨r, s.argSize, s.result.size, by grind, hsize, fun _ => rfl, rfl⟩
    · split at h
      · cases h
        exact ⟨r, s.argSize + 1, s.result.size, by grind, hsize, fun _ => rfl, rfl⟩
      · split at h
        · next hop =>
          cases h
          exact ⟨_, s.argSize + 1, s.result.size, by grind, hsize, fun h => absurd hop h, rfl⟩
        · cases h

theorem Emitted.allFit {c : Code} (h : c.Emitted) : c.AllFit := by
  induction h with
  | empty => exact nofun
  | newLabel _ ih => exact ih
  | bind l _ ih =>
    intro i hi
    rw [instrs_bind] at hi
    exact ih i hi
  | int v _ ih => exact ih.loads (int_eq _ v)
  | long v _ ih => exact ih.loads (long_eq _ v)
  | float v _ ih => exact ih.loads (float_eq _ v)
  | double v _ ih => exact ih.loads (double_eq _ v)
  | string s _ ih => exact ih.loads (string_eq _ s)
  | load t hlo hhi _ ih => exact ih.emit ⟨(forType_info t).1.1, (forType_info t).1.2, hlo, hhi⟩
  | store t hlo hhi _ ih => exact ih.emit ⟨(forType_info t).2.1, (forType_info t).2.2, hlo, hhi⟩
  | inc hlo hhi hlo' hhi' _ ih => exact ih.emit ⟨rfl, rfl, hlo, hhi, hlo', hhi'⟩
  | @jump c o l hop _ ih =>
    obtain ⟨hinfo, hshape⟩ := o.info_of_isJump hop
    rw [Code.jump, Instr.ofParts, hshape]
    exact ih.emit ⟨hinfo, hshape⟩
  | @field c r c' o hf _ ih =>
    obtain ⟨pop, push, hop, -, rfl⟩ := field_eq_ok hf
    rcases hop with rfl | rfl | rfl | rfl <;> exact ih.emit ⟨rfl, rfl⟩
  | @invoke c r c' o hf _ ih =>
    obtain ⟨r', pop, push, hop, -, -, rfl⟩ := invoke_eq_ok hf
    rcases hop with rfl | rfl | rfl | rfl <;> exact ih.emit ⟨rfl, rfl⟩
  | @type c o name hop _ ih =>
    have : o.info?.isSome = true ∧ o.shape = .cls := by
      rcases hop with rfl | rfl | rfl <;> decide
    rw [Code.type, Instr.ofParts, this.2]
    exact ih.emit ⟨this.1, this.2⟩
  | @ret c t _ ih =>
    obtain ⟨op, hop, heq⟩ := c.ret_eq t
    rw [heq]
    exact ih.op hop
  | @drop c t _ ih =>
    rcases c.drop_eq t with heq | ⟨op, hop, heq⟩ <;> rw [heq]
    · exact ih
    · exact ih.op hop
  | @dup c t under _ ih =>
    obtain ⟨op, hop, heq⟩ := c.dup_eq t under
    rw [heq]
    exact ih.op hop
  | op hinfo hshape _ ih => exact ih.op ⟨hinfo, hshape⟩

end Code

end Classwright
