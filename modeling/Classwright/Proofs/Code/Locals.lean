import Classwright.Proofs.Code.Emitted

/-!
The local variables that instructions use. A slot holds a value of one of five families
(`Family`), and an instruction reads or writes one (`Instr.local?`). All but loads, stores,
increments, jumps and writes to static fields leave local variables, labels and static fields alone
(`Code.Quiet`).
-/

namespace Classwright

/-- The kinds of values that a slot of a frame can hold. -/
inductive Family where
  | int | long | float | double | ref
  deriving DecidableEq, Repr

namespace Family

/-- The number of slots that a value takes. -/
def width : Family → Nat
  | long | double => 2
  | _ => 1

/-- The family of the values of a type. -/
def ofTy : Ty → Family
  | .prim .long => .long
  | .prim .float => .float
  | .prim .double => .double
  | t => if t.isReference then .ref else .int

@[simp] theorem width_ofTy (t : Ty) : (ofTy t).width = Frame.width t := by
  cases t with
  | prim p => cases p <;> rfl
  | _ => rfl

end Family

/-- The family that a load or a store is for. -/
def Opcode.family (op : Opcode) : Family :=
  if op = .lload ∨ op = .lstore then .long
  else if op = .fload ∨ op = .fstore then .float
  else if op = .dload ∨ op = .dstore then .double
  else if op = .aload ∨ op = .astore then .ref
  else .int

theorem Opcode.effect_le (op : Opcode) : op.effect.2 ≤ 6 := by
  have htable : ∀ e ∈ Opcode.table, e.push ≤ 6 := by decide +kernel
  unfold effect
  split
  · next e he => exact htable e (List.mem_of_find?_eq_some he)
  · exact Nat.zero_le _

/-- The use of a local variable: its first slot, what it holds, and whether it is written to. -/
structure LocalUse where
  slot : Int
  family : Family
  isStore : Bool
  deriving DecidableEq, Repr

/-- The local variable that an instruction uses. An increment is one that reads. -/
def Instr.local? (i : Instr) : Option LocalUse :=
  match i.operand with
  | .slot n => some ⟨n, i.op.family, Opcode.between .istore .astore i.op⟩
  | .increment n _ => some ⟨n, .int, false⟩
  | _ => none

/-- The static field that an instruction writes to. -/
def Instr.static? (i : Instr) : Option MemberRef :=
  match i.operand with
  | .member r _ _ => if i.op = .putstatic then some r else none
  | _ => none

namespace Instr

@[simp] theorem local?_load (t : Ty) (slot : Int) :
    (⟨Opcode.iload.forType t, .slot slot⟩ : Instr).local? = some ⟨slot, .ofTy t, false⟩ := by
  cases t with
  | prim p => cases p <;> rfl
  | _ => rfl

@[simp] theorem local?_store (t : Ty) (slot : Int) :
    (⟨Opcode.istore.forType t, .slot slot⟩ : Instr).local? = some ⟨slot, .ofTy t, true⟩ := by
  cases t with
  | prim p => cases p <;> rfl
  | _ => rfl

@[simp] theorem local?_inc (slot by_ : Int) :
    (⟨.iinc, .increment slot by_⟩ : Instr).local? = some ⟨slot, .int, false⟩ := rfl

theorem ofParts_jump {op : Opcode} (h : op.isJump = true) (l : Label) :
    ofParts op { label := l } = ⟨op, .label l⟩ := by
  rw [ofParts, (op.info_of_isJump h).2]

/-- The stack grows by a few slots at most. -/
def IsModest (i : Instr) : Prop := 0 ≤ i.pop ∧ 0 ≤ i.push ∧ i.push ≤ 6

theorem isModest_of_effect {i : Instr} (hpop : i.pop = i.op.effect.1) (hpush : i.push = i.op.effect.2) :
    i.IsModest := by
  have heffect := i.op.effect_le
  rw [IsModest, hpop, hpush]
  omega

theorem isModest_member (op : Opcode) (r : MemberRef) (pop : Nat) {push : Nat} (h : push ≤ 2) :
    (⟨op, .member r pop push⟩ : Instr).IsModest := by
  change 0 ≤ (pop : Int) ∧ 0 ≤ (push : Int) ∧ (push : Int) ≤ 6
  omega

end Instr

namespace Code

/-- Code that goes on by at most one instruction, which neither uses a local variable nor writes to a
static field nor jumps. -/
def Quiet (c c' : Code) : Prop :=
  c' = c ∨ ∃ i, c' = c.emit i ∧ i.local? = none ∧ i.target? = none ∧ i.static? = none ∧ i.IsModest

section
variable (c : Code)

theorem quiet_op {op : Opcode} (h : op.shape = .plain) : c.Quiet (c.op op) :=
  .inr ⟨_, by rw [Code.op, Instr.ofParts, h], rfl, rfl, rfl, Instr.isModest_of_effect rfl rfl⟩

variable {c} in
theorem quiet_loads (h : i.Loads q) : c.Quiet (c.emit i) := by
  refine .inr ⟨i, rfl, ?_⟩
  obtain ⟨op, x⟩ := i
  rcases h.operand with hx | ⟨n, hx⟩ | ⟨v, hx⟩ <;> cases hx <;>
    exact ⟨rfl, rfl, rfl, Instr.isModest_of_effect rfl rfl⟩

theorem quiet_int (v : Int32) : c.Quiet (c.int v) := by
  obtain ⟨i, heq, hi⟩ := c.int_eq v
  exact heq ▸ quiet_loads hi

theorem quiet_const (t : Ty) (v : Value) : c.Quiet (c.const t v) := by
  obtain ⟨i, q, heq, hi, -⟩ := c.const_eq t v
  exact heq ▸ quiet_loads hi

theorem quiet_ret (t : Ty) : c.Quiet (c.ret t) := by
  obtain ⟨op, hop, heq⟩ := c.ret_eq t
  exact heq ▸ c.quiet_op hop.2

theorem quiet_drop (t : Ty) : c.Quiet (c.drop t) := by
  rcases c.drop_eq t with heq | ⟨op, hop, heq⟩
  · exact .inl heq
  · exact heq ▸ c.quiet_op hop.2

theorem quiet_dup (t : Ty) (under : Int) : c.Quiet (c.dup t under) := by
  obtain ⟨op, hop, heq⟩ := c.dup_eq t under
  exact heq ▸ c.quiet_op hop.2

theorem quiet_type {op : Opcode} (h : op.shape = .cls) (name : Text) : c.Quiet (c.type op name) :=
  .inr ⟨_, by rw [Code.type, Instr.ofParts, h], rfl, rfl, rfl, Instr.isModest_of_effect rfl rfl⟩

variable {c} {c' : Code} {op : Opcode} {r : MemberRef}

theorem quiet_field (hop : op ≠ .putstatic) (h : c.field op r = .ok c') : c.Quiet c' := by
  obtain ⟨pop, push, -, hpush, rfl⟩ := field_eq_ok h
  exact .inr ⟨_, rfl, rfl, rfl, if_neg hop, Instr.isModest_member _ _ _ hpush⟩

theorem quiet_invoke (h : c.invoke op r = .ok c') : c.Quiet c' := by
  obtain ⟨r', pop, push, hop, hpush, -, rfl⟩ := invoke_eq_ok h
  have hne : op ≠ .putstatic := by rcases hop with rfl | rfl | rfl | rfl <;> decide
  exact .inr ⟨_, rfl, rfl, rfl, if_neg hne, Instr.isModest_member _ _ _ hpush⟩

end

end Code

end Classwright
