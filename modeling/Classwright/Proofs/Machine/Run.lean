import Classwright.Proofs.Code.Extension
import Classwright.Proofs.Machine.Step

/-!
Runs of code that is being written. What is written between two points takes the machine from one
state to another in all code that goes on from there (`Code.Goes`), or ends the method
(`Code.Finishes`). Code is left to what is written next or to a label, and an exit that is taken is
one that the code knows of.
-/

namespace Classwright

namespace Machine

/-- Where code is left to: what is written next, or a label. -/
inductive Exit where
  | next
  | label (l : Label)
  deriving DecidableEq, Repr

/-- The state at another place of the code. -/
def State.move (s : State) (k : Nat) : State := { s with pc := k }

end Machine

open Machine

namespace Code

/-- Code can be left to an exit. -/
def CanExit (c : Code) : Exit → Prop
  | .next => c.dead = false
  | .label l => (c.mark? l).isSome = true

/-- The place of an exit of `c` in the code `C`. -/
def place? (c C : Code) : Exit → Option Nat
  | .next => some c.instrs.size
  | .label l => C.labelIndex? l

/-- What is written from `c` to `c'` takes the machine from a state to another. -/
structure Goes (c c' : Code) (s : State) (e : Exit) (s' : State) : Prop where
  canExit : c'.IsProper → c.IsLevel → c.dead = false → c'.CanExit e
  steps {C : Code} {k : Nat} : c'.Extends C → c'.place? C e = some k →
    Steps C (s.move c.instrs.size) (s'.move k)

/-- What is written from `c` to `c'` ends the method. -/
def Finishes (c c' : Code) (s : State) (o : Outcome) : Prop :=
  ∀ C : Code, c'.Extends C → Ends C (s.move c.instrs.size) o

variable {c c₁ c₂ c' : Code} {s s₁ s₂ s' : State} {e : Exit} {l : Label} {i : Instr} {n : Nat}

theorem goes_refl (c : Code) (s : State) : c.Goes c s .next s where
  canExit _ _ := id
  steps _ hk := by
    cases hk
    exact .refl

theorem Goes.trans (h : c.Goes c₁ s .next s₁) (h' : c₁.Goes c₂ s₁ e s₂) (hgrow : c.Grows n c₁)
    (hgrow' : c₁.Grows n c₂) : c.Goes c₂ s e s₂ where
  canExit hc hlevel hdead :=
    have hc₁ := hgrow'.proper hc
    h'.canExit hc (hgrow.level hc₁ hlevel) (h.canExit hc₁ hlevel hdead)
  steps hC hk := (h.steps (hgrow'.toExtends.trans hC) rfl).trans (h'.steps hC hk)

theorem Goes.finishes (h : c.Goes c₁ s .next s₁) (h' : c₁.Finishes c₂ s₁ o)
    (hgrow' : c₁.Grows n c₂) : c.Finishes c₂ s o := by
  intro C hC
  obtain ⟨s', hsteps, hend⟩ := h' C hC
  exact ⟨s', (h.steps (hgrow'.toExtends.trans hC) rfl).trans hsteps, hend⟩

theorem Finishes.mono (h : c.Finishes c₁ s o) (hgrow : c₁.Grows n c₂) :
    c.Finishes c₂ s o :=
  fun C hC => h C (hgrow.toExtends.trans hC)

/-- What is written after a jump does not matter to it. -/
theorem Goes.skip (h : c.Goes c₁ s (.label l) s₁) (hgrow : c.Grows n c₁) (hgrow' : c₁.Grows n c₂) :
    c.Goes c₂ s (.label l) s₁ where
  canExit hc hlevel hdead :=
    have hc₁ := hgrow'.proper hc
    hgrow'.reached hc (hgrow.level hc₁ hlevel) (h.canExit hc₁ hlevel hdead)
  steps hC hk := h.steps (hgrow'.toExtends.trans hC) hk

/-! ### Single instructions -/

theorem steps_of_exec (hC : (c.emit i).Extends C)
    (h : exec C i (s.move c.instrs.size) = some (.next s')) : Steps C (s.move c.instrs.size) s' := by
  refine .single ?_
  rw [step, State.move, hC.instrs (c.instrs_emit_self i)]
  exact h

theorem goes_emit (hterm : i.op.isTerminal = false)
    (h : ∀ C k, exec C i (s.move k) = some (.next (s'.move (k + 1)))) :
    c.Goes (c.emit i) s .next s' where
  canExit _ _ hdead := by rw [CanExit, dead_emit, hdead, hterm]; rfl
  steps hC hk := by
    cases hk
    rw [size_emit]
    exact steps_of_exec hC (h _ _)

theorem finishes_emit (h : ∀ C k, exec C i (s.move k) = some (.done o)) :
    c.Finishes (c.emit i) s o := by
  intro C hC
  refine ⟨_, .refl, ?_⟩
  rw [step, State.move, hC.instrs (c.instrs_emit_self i)]
  exact h _ _

section
variable {op : Opcode} {t : Test} {st : List Val}

theorem exec_jump (htest : tests.lookup op = some t)
    (hrun : t.run s.stack = some (jumps, st)) (C : Code) (k : Nat) :
    exec C ⟨op, .label l⟩ (s.move k) = if jumps then
      (C.labelIndex? l).map fun k => .next ({ s with stack := st }.move k)
    else some (.next ({ s with stack := st }.move (k + 1))) := by
  rw [exec]
  dsimp only
  rw [htest]
  dsimp only [Option.bind_eq_bind, Option.bind_some]
  rw [show (s.move k).stack = s.stack from rfl, hrun]
  rfl

/-- A jump that is taken. -/
theorem goes_jump (hl : l < c.marks.size) (htest : tests.lookup op = some t)
    (hrun : t.run s.stack = some (true, st)) :
    c.Goes (c.emit ⟨op, .label l⟩) s (.label l) { s with stack := st } where
  canExit hc hlevel hdead :=
    isSome_mark?_emit hlevel (Instr.isModest_of_effect rfl rfl) hdead hc rfl hl
  steps hC hk := by
    refine steps_of_exec hC ?_
    rw [exec_jump htest hrun, if_pos rfl]
    rw [place?] at hk
    rw [hk]
    rfl

/-- A jump that is not taken. -/
theorem goes_pass (hterm : op.isTerminal = false) (htest : tests.lookup op = some t)
    (hrun : t.run s.stack = some (false, st)) :
    c.Goes (c.emit ⟨op, .label l⟩) s .next { s with stack := st } :=
  goes_emit hterm fun C k => exec_jump htest hrun C k

end

/-! ### Labels -/

theorem labelIndex?_of_size_le (h : c.marks.size ≤ l) : c.labelIndex? l = none := by
  rw [labelIndex?, Array.getElem?_eq_none_iff.2 h]
  rfl

theorem Goes.newLabel (h : c.newLabel.2.Goes c' s e s') : c.Goes c' s e s' where
  canExit hc hlevel hdead := h.canExit hc hlevel.newLabel hdead
  steps := h.steps

theorem Goes.bind_next (h : c.Goes c₁ s .next s₁) (l : Label) : c.Goes (c₁.bind l) s .next s₁ where
  canExit hc hlevel hdead :=
    dead_bind_of_live (h.canExit ((grows_bind (Nat.zero_le l) c₁).proper hc) hlevel hdead) l hc.fault
  steps hC hk := by
    cases hk
    rw [instrs_bind]
    exact h.steps ((grows_bind (Nat.zero_le l) c₁).toExtends.trans hC) rfl

/-- A jump to a label leads to what is written after it. -/
theorem Goes.bind_label (h : c.Goes c₁ s (.label l) s₁) (hl : l < c₁.marks.size)
    (hnone : c₁.labelIndex? l = none) : c.Goes (c₁.bind l) s .next s₁ where
  canExit hc hlevel hdead :=
    dead_bind_of_mark (h.canExit ((grows_bind (Nat.zero_le l) c₁).proper hc) hlevel hdead) hc.fault
  steps hC hk := by
    cases hk
    rw [instrs_bind]
    refine h.steps ((grows_bind (Nat.zero_le l) c₁).toExtends.trans hC) ?_
    exact hC.labels (labelIndex?_bind_self hl hnone)

end Code

end Classwright
