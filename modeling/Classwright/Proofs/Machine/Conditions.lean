import Classwright.Proofs.Machine.Operators
import Classwright.Proofs.Meaning.Expression

/-!
Conditions and their values. A jump is made into a value at two labels (`Gen.turns_boolValue`), two
conditions are joined by jumping over the second one (`Gen.turns_junction`), and a value becomes a
jump by a test (`Gen.turns_test`).
-/

namespace Classwright

open Machine

namespace Code

variable {c c₁ c₂ : Code} {s s' : State}

theorem lt_size_marks_newLabel (c : Code) : c.marks.size < c.newLabel.2.marks.size := by
  rw [size_marks_newLabel]
  exact Nat.lt_succ_self _

theorem lt_size_marks_newLabel₂ (c : Code) : c.marks.size < c.newLabel.2.newLabel.2.marks.size :=
  Nat.lt_trans c.lt_size_marks_newLabel (lt_size_marks_newLabel _)

theorem goes_int (c : Code) (v : Int32) (s : State) :
    c.Goes (c.int v) s .next { s with stack := .int v :: s.stack } := by
  obtain ⟨i, hi, hturns⟩ := int_turns v
  rw [hi]
  exact goes_emit (hturns s.locals).isTerminal fun C k => (hturns s.locals).exec C k s.stack s.heap

theorem grows_int (n : Nat) (c : Code) (v : Int32) : c.Grows n (c.int v) := by
  obtain ⟨i, hi, hturns⟩ := int_turns v
  rw [hi]
  exact grows_emit (hturns fun _ => none).isModest n c

theorem jump_eq {op : Opcode} (h : op.isJump = true) (c : Code) (l : Label) :
    c.jump op l = c.emit ⟨op, .label l⟩ := by
  rw [Code.jump, Instr.ofParts_jump h]

theorem grows_jump {op : Opcode} (h : op.isJump = true) (n : Nat) (c : Code) (l : Label) :
    c.Grows n (c.jump op l) := by
  rw [jump_eq h]
  exact grows_emit (Instr.isModest_of_effect rfl rfl) n c

theorem goes_goto (hl : l < c.marks.size) (s : State) :
    c.Goes (c.jump .goto l) s (.label l) s := by
  rw [jump_eq rfl]
  exact goes_jump hl rfl rfl

/-- The value of a condition, after the code that jumps to `l` if it is false. -/
def boolEnd (c : Code) (l : Label) : Code :=
  ((((c.int 1).jump .goto (l + 1)).bind l).int 0).bind (l + 1)

theorem grows_boolEnd (h : n ≤ l) (c : Code) : c.Grows n (c.boolEnd l) :=
  (grows_int _ _ _).trans ((grows_jump rfl _ _ _).trans ((grows_bind h _).trans
    ((grows_int _ _ _).trans (grows_bind (Nat.le_succ_of_le h) _))))

/-- Two new labels have no place yet. -/
theorem labelIndex?_new (hk : k = c.marks.size)
    (hgrow : c.newLabel.2.newLabel.2.Grows (k + 2) c₁) (hl : l = k ∨ l = k + 1) :
    c₁.labelIndex? l = none := by
  have hlt : l < k + 2 := by rcases hl with rfl | rfl <;> simp
  have hle : c.marks.size ≤ l := by rcases hl with rfl | rfl <;> simp [hk]
  rw [hgrow.old hlt, labelIndex?_newLabel, labelIndex?_newLabel]
  exact labelIndex?_of_size_le hle

theorem goes_boolEnd (hl : l = c.marks.size)
    (hgrow : c.newLabel.2.newLabel.2.Grows (l + 2) c₁)
    (h : c.newLabel.2.newLabel.2.Goes c₁ s (if x = false then .label l else .next) s') :
    c.Goes (c₁.boolEnd l) s .next { s' with stack := (Datum.bool x).val :: s'.stack } := by
  have hmarks : l + 2 ≤ c₁.marks.size := by
    have := hgrow.marks
    rw [size_marks_newLabel, size_marks_newLabel, ← hl] at this
    exact this
  have hint := grows_int (l + 2) c₁ 1
  have hgoto : (c₁.int 1).Grows (l + 2) ((c₁.int 1).jump .goto (l + 1)) := grows_jump rfl _ _ _
  have hgrow₂ := hint.trans hgoto
  have hmarks₁ : l + 2 ≤ (c₁.int 1).marks.size := Nat.le_trans hmarks hint.marks
  have hmarks₂ : l + 2 ≤ ((c₁.int 1).jump .goto (l + 1)).marks.size := Nat.le_trans hmarks hgrow₂.marks
  have hnone {k : Label} (hk : k = l ∨ k = l + 1) :
      ((c₁.int 1).jump .goto (l + 1)).labelIndex? k = none :=
    labelIndex?_new hl (hgrow.trans hgrow₂) hk
  refine .newLabel (.newLabel ?_)
  cases x with
  | false =>
    have h₂ := (h.skip hgrow hgrow₂).bind_label (Nat.lt_of_succ_lt hmarks₂) (hnone (.inl rfl))
    have hgrow₃ := (hgrow.trans hgrow₂).mono (Nat.zero_le _)
    exact (h₂.trans (goes_int _ 0 _) (hgrow₃.trans (grows_bind (Nat.zero_le _) _))
      (grows_int _ _ _)).bind_next _
  | true =>
    have h₂ := h.trans (goes_int c₁ 1 s') hgrow hint
    have h₃ := h₂.trans (goes_goto hmarks₁ _) (hgrow.trans hint) hgoto
    have hbind : ((c₁.int 1).jump .goto (l + 1)).Grows 0
        ((((c₁.int 1).jump .goto (l + 1)).bind l).int 0) :=
      (grows_bind (Nat.zero_le _) _).trans (grows_int _ _ _)
    have h₄ := h₃.skip ((hgrow.trans hgrow₂).mono (Nat.zero_le _)) hbind
    refine h₄.bind_label (Nat.le_trans hmarks₂ hbind.marks) ?_
    rw [(grows_int (l + 2) _ 0).old (Nat.lt_succ_self _), labelIndex?_bind,
      if_neg fun hne => Nat.succ_ne_self l hne.1]
    exact hnone (.inr rfl)

end Code

namespace Machine.Yield

/-- What is left once a label has been bound. -/
def land (l : Label) : Yield → Yield
  | leaves e vs => leaves (if e = .label l then .next else e) vs
  | y => y

end Machine.Yield

namespace Machine.Yield

/-- A condition leaves nothing on the stack. -/
theorem eq_nil_of_ofTest
    (h : ofTest l jumpIf r = .leaves e ws) : ws = [] := by
  rcases r with - | v | -
  · cases h
  · cases v <;> cases h
    rfl
  · cases h

/-- A jump to another label stays one. -/
theorem land_ofTest (h : l ≠ k) (jumpIf : Bool) (r : Option Result) :
    (ofTest l jumpIf r).land k = ofTest l jumpIf r := by
  rcases r with - | v | -
  · rfl
  · cases v with
    | bool x =>
      change leaves (if (if x = jumpIf then Exit.label l else .next) = .label k then .next else _) [] = _
      by_cases hx : x = jumpIf
      · rw [if_pos hx, if_neg fun he => h (Exit.label.inj he)]
        change _ = leaves (if x = jumpIf then Exit.label l else .next) []
        rw [if_pos hx]
      · rw [if_neg hx, if_neg nofun]
        change _ = leaves (if x = jumpIf then Exit.label l else .next) []
        rw [if_neg hx]
    | _ => rfl
  · rfl

end Machine.Yield

theorem Machine.Yield.ofTest_junction (l : Label) (jumpIf isAnd b : Bool) (w : Option Result) :
    ofTest l jumpIf (Result.junction isAnd (some (.value (.bool b))) w) =
      if b = isAnd then ofTest l jumpIf w else .leaves (if b = jumpIf then .label l else .next) [] := by
  change ofTest l jumpIf (if b = isAnd then _ else _) = _
  split
  · rcases w with - | v | -
    · rfl
    · cases v <;> rfl
    · rfl
  · rfl

namespace Gen

section
variable {α : Type} {n : Nat} {s : Scopes} {locals : Locals} {vs : List Val}

/-! ### Labels -/

theorem after_landing {m : Label → Gen Unit}
    (h : After (m b.code.marks.size) { b with code := b.code.newLabel.2 }
      fun _ b' => Q () { b' with code := b'.code.bind b.code.marks.size }) :
    After (do
      let l ← newLabel
      m l
      bind l) b Q :=
  .bind (.of_eq rfl (.bind (h.mono fun _ _ h' => .of_eq rfl h')))

/-- A jump to a new label that is bound at the end leads to what is written next. -/
theorem turns_landing {m : Label → Gen Unit} {y : Label → Yield}
    (hplain : ∀ l, Plain (m l)) (h : ∀ l, n ≤ l → Turns (l + 1) s locals vs (m l) (y l))
    (hz : ∀ l, n ≤ l → (y l).land l = z) :
    Turns n s locals vs (do
      let l ← newLabel
      m l
      bind l) z := by
  refine ⟨fun b => after_landing ((hplain _ _).mono ?_), fun b hs hn => after_landing fun a b' hm => ?_⟩
  · rintro _ b' ⟨hgrow, hs⟩
    have hgrow' := hgrow.mono (Nat.le_of_lt (Code.lt_size_marks_newLabel b.code))
    exact ⟨(Code.grows_newLabel _ _).trans (hgrow'.trans (Code.grows_bind (Nat.le_refl _) _)), hs⟩
  · have hlt := Code.lt_size_marks_newLabel b.code
    obtain ⟨hgrow, -⟩ := hplain _ _ a b' hm
    have hnone : b'.code.labelIndex? b.code.marks.size = none := by
      rw [hgrow.old hlt, Code.labelIndex?_newLabel]
      exact Code.labelIndex?_of_size_le (Nat.le_refl _)
    have hyields := (h _ hn).yields { b with code := b.code.newLabel.2 } hs hlt a b' hm
    have hbind := Code.grows_bind (Nat.le_refl b.code.marks.size) b'.code
    have hgrow := hgrow.mono (Nat.le_of_lt hlt)
    rw [← hz _ hn]
    generalize y b.code.marks.size = y at hyields
    cases y with
    | unknown => trivial
    | fails => exact fun st heap => (hyields st heap).mono hbind
    | leaves e ws =>
      intro st heap
      obtain ⟨heap', hheap, hgoes⟩ := hyields st heap
      refine ⟨heap', hheap, .newLabel ?_⟩
      cases e with
      | next => exact hgoes.bind_next _
      | label k =>
        by_cases hk : k = b.code.marks.size
        · subst hk
          rw [if_pos rfl]
          exact hgoes.bind_label (Nat.lt_of_lt_of_le hlt hgrow.marks) hnone
        · rw [if_neg fun he => hk (Exit.label.inj he)]
          exact hgoes.skip hgrow hbind

/-! ### Values of conditions -/

theorem after_boolValue
    (h : After (jumpFalse b.code.marks.size) { b with code := b.code.newLabel.2.newLabel.2 }
      fun _ b' => Q () { b' with code := b'.code.boolEnd b.code.marks.size }) :
    After (boolValue jumpFalse) b Q :=
  .bind (.of_eq rfl (.bind (.of_eq (congrArg (fun l => Except.ok (l, _)) (Code.size_marks_newLabel _))
    (.bind (h.mono fun _ _ h' => .of_eq rfl h')))))

theorem turns_boolValue
    (hplain : ∀ l, Plain (jumpFalse l))
    (h : ∀ l, n ≤ l → Turns (l + 1) s locals [] (jumpFalse l) (.ofTest l false r))
    (hbool : ∀ v, r = some (.value v) → ∃ x, v = .bool x) :
    Turns n s locals [] (boolValue jumpFalse) (.ofResult r) := by
  refine ⟨fun b => after_boolValue ((hplain _ _).mono ?_), fun b hs hn => after_boolValue fun a b' hm => ?_⟩
  · rintro _ b' ⟨hgrow, hs⟩
    have hgrow' := hgrow.mono (Nat.le_of_lt (Code.lt_size_marks_newLabel₂ b.code))
    have hlabels := (Code.grows_newLabel b.code.marks.size b.code).trans (Code.grows_newLabel _ _)
    exact ⟨hlabels.trans (hgrow'.trans (Code.grows_boolEnd (Nat.le_refl _) _)), hs⟩
  · have hlt := Code.lt_size_marks_newLabel₂ b.code
    obtain ⟨hgrow, -⟩ := hplain _ _ a b' hm
    have hyields := (h _ hn).yields { b with code := b.code.newLabel.2.newLabel.2 } hs hlt a b' hm
    rcases r with - | v | -
    · trivial
    · obtain ⟨x, rfl⟩ := hbool v rfl
      intro st heap
      obtain ⟨heap', hheap, hgoes⟩ := hyields st heap
      refine ⟨heap', hheap, Code.goes_boolEnd rfl ?_ hgoes⟩
      rw [Code.size_marks_newLabel, Code.size_marks_newLabel] at hgrow
      exact hgrow
    · exact fun st heap => (hyields st heap).mono
        (Code.grows_boolEnd (Nat.le_refl b.code.marks.size) b'.code)

/-! ### Joined conditions -/

theorem turns_junction {left : Label → Bool → Gen Unit}
    (hleftPlain : ∀ l jumpIf, Plain (left l jumpIf)) (hrightPlain : ∀ l jumpIf, Plain (right l jumpIf))
    (hleft : ∀ n l jumpIf, l < n → Turns n s locals [] (left l jumpIf) (.ofTest l jumpIf u))
    (hright : ∀ n l jumpIf, l < n → Turns n s locals [] (right l jumpIf) (.ofTest l jumpIf w))
    (isAnd : Bool) (htarget : target < n) (jumpIf : Bool) :
    Turns n s locals [] (junction isAnd left right target jumpIf)
      (.ofTest target jumpIf (Result.junction isAnd u w)) := by
  unfold junction
  split
  · next h =>
    subst h
    have hassoc : (do
        let skip ← newLabel
        left skip !isAnd
        right target isAnd
        bind skip) = (do
        let skip ← newLabel
        (left skip !isAnd) >>= fun _ => right target isAnd
        bind skip) := by simp only [bind_assoc]
    rw [hassoc]
    refine turns_landing (y := fun skip => (Yield.ofTest skip (!isAnd) u).andThen
      (.ofTest target isAnd w)) (fun skip => ?_) (fun skip hskip => ?_) fun skip hskip => ?_
    · exact (hleftPlain _ _).bind fun _ => hrightPlain _ _
    · refine (hleft _ skip _ (Nat.lt_succ_self _)).bind (fun _ => hrightPlain _ _) fun ws hws _ => ?_
      rw [Yield.eq_nil_of_ofTest hws]
      exact hright _ _ _ (Nat.lt_of_lt_of_le htarget (Nat.le_succ_of_le hskip))
    · have hne : target ≠ skip := Nat.ne_of_lt (Nat.lt_of_lt_of_le htarget hskip)
      rcases u with - | v | -
      · rfl
      · cases v with
        | bool b =>
          rw [Yield.ofTest_junction]
          cases b <;> cases isAnd <;>
            first | exact Yield.land_ofTest hne _ w | exact congrArg (Yield.leaves · []) (if_pos rfl)
        | _ => rfl
      · rfl
  · next h =>
    have hjoin : (Yield.ofTest target jumpIf u).andThen (.ofTest target jumpIf w) =
        .ofTest target jumpIf (Result.junction isAnd u w) := by
      rcases u with - | v | -
      · rfl
      · cases v with
        | bool b =>
          rw [Yield.ofTest_junction]
          cases b <;> cases isAnd <;> cases jumpIf <;> first | rfl | exact absurd rfl h
        | _ => rfl
      · rfl
    rw [← hjoin]
    refine (hleft _ _ _ htarget).bind (fun _ => hrightPlain _ _) fun ws hws _ => ?_
    rw [Yield.eq_nil_of_ofTest hws]
    exact hright _ _ _ htarget

/-! ### Modes -/

theorem plain_test (tok : Token) (t : Ty) (target : Label) (jumpIf : Bool) :
    Plain (test tok t target jumpIf) := by
  have hjump : Plain (jump (if jumpIf then .ifne else .ifeq) target) :=
    plain_jump (by cases jumpIf <;> rfl) target
  unfold test
  dsimp only
  split
  · exact (plain_refuse _ _).bind fun _ => hjump
  · exact hjump

/-- A condition on the stack is tested; nothing else can be. -/
theorem turns_test (htarget : target < n) (tok : Token) (t : Ty) (x jumpIf : Bool) :
    Turns n s locals [(Datum.bool x).val] (test tok t target jumpIf)
      (.leaves (if x = jumpIf then .label target else .next) []) := by
  have hjump : Turns n s locals [(Datum.bool x).val] (jump (if jumpIf then .ifne else .ifeq) target)
      (.leaves (if x = jumpIf then .label target else .next) []) := by
    cases jumpIf with
    | true =>
      have h : Turns n s locals [(Datum.bool x).val] (jump .ifne target)
          (.leaves (if x then .label target else .next) []) :=
        turns_jump htarget rfl rfl rfl fun _ => by cases x <;> rfl
      exact h
    | false =>
      have h : Turns n s locals [(Datum.bool x).val] (jump .ifeq target)
          (.leaves (if !x then .label target else .next) []) :=
        turns_jump htarget rfl rfl rfl fun _ => by cases x <;> rfl
      cases x <;> exact h
  unfold test
  dsimp only
  split
  · exact ⟨(plain_refuse _ _).bind fun _ => hjump.plain, fun _ _ _ => .of_error rfl⟩
  · exact hjump

theorem pushed_true (m : Gen Ty) : pushed m true = m := by
  change (m >>= fun t => pure t) = m
  exact bind_pure m

/-- A value that is used as a condition. -/
theorem turns_finish
    (h : Turns n s locals [] m (.ofResult r)) (htarget : target < n) (tok : Token) (jumpIf : Bool) :
    Turns n s locals [] (finish tok (.jump target jumpIf) (pushed m)) (.ofTest target jumpIf r) := by
  have htest (t : Ty) : Plain (test tok t target jumpIf >>= fun _ => pure t) :=
    (plain_test tok t target jumpIf).bind fun _ => (quiet_pure t).plain
  change Turns n s locals [] (pushed m true >>= fun t => test tok t target jumpIf >>= fun _ => pure t) _
  rw [pushed_true]
  refine h.value htest fun v _ t => ?_
  cases v with
  | bool x => exact (turns_test htarget tok t x jumpIf).returns t
  | _ => exact (htest t).turns

theorem turns_goto (htarget : target < n) :
    Turns n s locals vs (jump .goto target) (.leaves (.label target) vs) := by
  refine ⟨plain_jump rfl target, fun b _ hn => .of_eq rfl fun st heap => ⟨heap, List.prefix_refl _, ?_⟩⟩
  exact Code.goes_goto (Nat.lt_of_lt_of_le htarget hn) _

theorem turns_constant (h : c.Stands v) (tok : Token) :
    Turns n s locals [] (constant tok c .value) (.leaves .next [v.val]) := by
  obtain ⟨i, hi, hturns⟩ := Code.const_turns h
  exact (turns_emit (hturns locals) hi).returns c.type

theorem turns_constantJump (h : c.Stands v)
    (htarget : target < n) (tok : Token) (jumpIf : Bool) :
    Turns n s locals [] (constant tok c (.jump target jumpIf))
      (.ofTest target jumpIf (some (.value v))) := by
  have hplain (t : Ty) : Plain ((refuse tok (.condition t) : Gen Unit) >>= fun _ => pure t) :=
    (plain_refuse _ _).bind fun _ => (quiet_pure t).plain
  cases h with
  | bool x =>
    change Turns n s locals [] (if x = jumpIf then (do
        jump .goto target
        pure Ty.bool) else pure Ty.bool)
      (.leaves (if x = jumpIf then .label target else .next) [])
    split
    · exact (turns_goto htarget).returns _
    · exact turns_pure _
  | _ => exact (hplain _).turns

end

end Gen

end Classwright
