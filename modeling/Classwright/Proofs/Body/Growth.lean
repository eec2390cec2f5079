import Classwright.Proofs.Body.Frames
import Classwright.Proofs.Body.Pass
import Classwright.Proofs.Code.Extension
import Mathlib

/-!
All code that is written for expressions and statements goes on from the code before it and binds no
label but its own (`Gen.Grown`).
-/

namespace Classwright.Gen

/-- What is written keeps the labels that there were before. -/
def Extending (n : Nat) (m : Gen α) : Prop :=
  ∀ b, n ≤ b.code.marks.size → After m b fun _ b' => b.code.Grows n b'.code

section
variable {n : Nat} {α β : Type} {m : Gen α} {f : α → Gen β}

theorem Quiet.extending (h : Quiet (fun _ _ => True) m) : Extending n m := by
  refine fun b _ => (h.after b).mono fun _ b' hc => ?_
  obtain ⟨c, hc, rfl⟩ := hc
  induction hc with
  | refl => exact .refl n _
  | tail _ hstep ih =>
    rcases hstep with rfl | ⟨i, rfl, -, -, -, hi⟩
    · exact ih
    · exact ih.trans (Code.grows_emit hi n _)

theorem extending_field (op : Opcode) (owner : Text) (v : Var) : Extending n (field op owner v) := by
  refine fun b _ => (after_field op owner v b).mono fun _ b' h => ?_
  obtain ⟨pop, push, hpush, rfl⟩ := h
  exact Code.grows_emit (Instr.isModest_member _ _ _ hpush) n _

theorem extending_edit {f : Code → Code} (h : ∀ c, Code.Grows n c (f c)) : Extending n (edit f) :=
  fun b _ => .of_eq rfl (h b.code)

theorem extending_emit {i : Instr} (hi : i.IsModest) : Extending n (edit (·.emit i)) :=
  extending_edit fun c => Code.grows_emit hi n c

theorem extending_jump {op : Opcode} (h : op.isJump = true) (l : Label) : Extending n (jump op l) := by
  refine extending_edit fun c => ?_
  rw [Code.jump, Instr.ofParts_jump h]
  exact Code.grows_emit (Instr.isModest_of_effect rfl rfl) n c

theorem Extending.bind (h : Extending n m) (hf : ∀ a, Extending n (f a)) : Extending n (m >>= f) := by
  refine fun b hb => .bind ((h b hb).mono fun a b₁ h₁ => ?_)
  exact (hf a b₁ (Nat.le_trans hb h₁.marks)).mono fun _ _ h₂ => h₁.trans h₂

theorem code_alloc (t : Ty) (b : Body) : After (alloc t) b fun _ b' => b'.code = b.code := by
  refine .of_eq (modifyGet_eq _ b) ?_
  obtain ⟨code, ⟨vars, frame⟩, globals⟩ := b
  cases frame <;> rfl

theorem extending_alloc (t : Ty) : Extending n (alloc t) := by
  refine fun b _ => (code_alloc t b).mono fun _ b' hcode => ?_
  rw [hcode]
  exact .refl _ _

theorem extending_declare (env : Env) (tok : Token) (name : Text) (t : Ty) (isConst : Bool) :
    Extending n (declare env tok name t isConst) := by
  refine fun b _ => (after_declare tok name t isConst).mono fun v b' h => ?_
  have hcode : b'.code = b.code := by cases h <;> assumption
  rw [hcode]
  exact .refl _ _

theorem Extending.inScope (h : Extending n m) : Extending n (inScope m) :=
  fun b hb => .bind (.of_eq rfl (.bind (.mono (h { b with scopes := b.scopes.push } hb) fun _ _ h' =>
    .bind (.of_eq rfl (.of_eq rfl h')))))

theorem composes_extending (env : Env) : Composes (fun _ _ => True) env fun m => Extending n m where
  quiet h := h.extending
  bind := Extending.bind
  lift _ h b hb := .bind (.lift fun a ha => h a ha b hb)
  self _ := extending_emit (Instr.isModest_of_effect rfl rfl)

theorem uses_extending (v : Var) : Uses (fun m => Extending n m) v where
  load _ := extending_emit (Instr.isModest_of_effect rfl rfl)
  store _ := extending_emit (Instr.isModest_of_effect rfl rfl)
  inc _ _ _ := extending_emit (Instr.isModest_of_effect rfl rfl)
  put _ := extending_field _ _ _

end

/-- Keeping the labels that there were passes through statements. -/
def extendingPass (env : Env) (n : Nat) : Pass env Unit where
  Holds _ _ _ m := Extending n m
  Taken _ _ _ := True
  Seen _ _ := True
  Own _ l := n ≤ l
  Target _ := True
  Unnamed _ _ := True
  Place _ _ := True
  taken_mono _ h := h
  taken_of_seen _ _ := trivial
  own_mono _ h := h
  composes _ _ := composes_extending env
  newLabel h b hb := .bind (.of_eq rfl
    ((h () b.code.marks.size le_rfl hb _ (hb.trans (Code.grows_newLabel n b.code).marks)).mono fun _ _ h' =>
      (Code.grows_newLabel n b.code).trans h'))
  bindLabel h := extending_edit fun c => Code.grows_bind h c
  jump := extending_jump
  loadSlot _ := extending_emit (Instr.isModest_of_effect rfl rfl)
  storeSlot _ := extending_emit (Instr.isModest_of_effect rfl rfl)
  incSlot _ _ := extending_emit (Instr.isModest_of_effect rfl rfl)
  put _ _ _ := extending_field _ _ _
  get h b hb := .bind (.of_eq rfl (h () b le_rfl (fun _ _ _ => trivial) (fun _ _ _ => trivial) b hb))
  alloc h := (extending_alloc _).bind fun slot => h () slot le_rfl trivial
  declareLocal name isConst _ _ h :=
    (extending_declare env _ name _ isConst).bind fun v => h () v le_rfl trivial
  target _ := trivial
  unnamed _ _ := trivial
  declareStore isConst _ _ _ h :=
    (extending_declare env _ _ _ isConst).bind fun v =>
      (composes_extending env).optional (Quiet.extending (quiet_edit fun c => c.quiet_dup _ _)) fun _ =>
        ((composes_extending env).store (uses_extending v)).bind fun _ => h () le_rfl
  inScope := Extending.inScope

/-- What is written goes on from the code before it, and keeps all labels that there were. -/
def Grown (m : Gen α) : Prop := ∀ n, Extending n m

theorem Grown.grows (h : Grown m) (hm : m b = .ok (a, b')) :
    b.code.Grows b.code.marks.size b'.code :=
  h _ b (Nat.le_refl _) a b' hm

end Classwright.Gen
