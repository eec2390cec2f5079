import Classwright.Proofs.Body.Control

/-!
What the parts of expressions do to the stack: a value takes the slots of its type, and a condition
leaves the stack as it was, both where it jumps to and where it goes on.
-/

namespace Classwright

/-- A value of a type takes its slots. -/
theorem Constant.IsTyped.fills {c : Constant} (h : c.IsTyped) : c.value.Fills c.type := by
  obtain ⟨t, v⟩ := c
  cases v with
  | null | bool b | str x => exact congrArg Ty.size h
  | int i => rcases h with ⟨h, -⟩ | ⟨h, -⟩ | h <;> exact congrArg Ty.isVoid h
  | float x => exact h

theorem Constant.IsTyped.isTight {c : Constant} (h : c.IsTyped) : c.type.isTight = true := by
  obtain ⟨t, v⟩ := c
  cases v with
  | null | bool b | str x => exact congrArg Ty.isTight h
  | int i => rcases h with ⟨h, -⟩ | ⟨h, -⟩ | h <;> exact congrArg Ty.isTight h
  | float x => rcases h with h | h <;> exact congrArg Ty.isTight h

namespace Gen

variable {base : Option Int} {room : Int} {s : Scopes} {l : Label} {b b' : Body}

/-! ### Modes -/

/-- What an expression does, as its mode says: it leaves a value of its type, which satisfies a
condition, or nothing, or it is a condition that jumps. -/
def Does (base : Option Int) (room : Int) (s : Scopes) (P : Ty → Prop) (m : Gen Ty) : Mode → Prop
  | .value => Pushes base room s m (fun t => t.size) P
  | .drop => Pushes base room s m (fun _ => 0) fun _ => True
  | .jump target _ => JumpsTo base room s target m

variable {P : Ty → Prop}

/-- The value of an expression is used as the mode says. -/
theorem does_finish (tok : Token) (hroom : 0 ≤ room)
    (h : ∀ keep, Pushes base room s (value keep) (fun t => if keep then t.size else 0) P) :
    Does base room s P (finish tok mode value) mode := by
  cases mode with
  | value => exact h true
  | drop => exact fun b hs hsound hb => (h false b hs hsound hb).mono fun _ _ h' => ⟨h'.1, trivial⟩
  | jump target jumpIf =>
    intro b hs hsound hb _ hl
    refine (h true b hs hsound hb).andThen ?_
    rintro t b₁ ⟨h₁, -⟩
    unfold Gen.test
    dsimp only
    split
    · exact .bind (.bind (.refuse _ _))
    · next hbool =>
      have hbool : t.isBool = true := by simpa using hbool
      dsimp only at h₁
      rw [if_pos rfl, Ty.size_of_isBool hbool] at h₁
      refine Ensures.andThen ?_ fun _ _ h₂ => .pure h₂
      cases jumpIf <;> exact h₁.branch (by decide) hroom hl

theorem pushes_pushed (h : Pushes base room s m (fun t => t.size) P)
    (hroom : 2 ≤ room) (keep : Bool) :
    Pushes base room s (pushed m keep) (fun t => if keep then t.size else 0) P := by
  intro b hs hsound hb
  refine (h b hs hsound hb).andThen ?_
  rintro t b₁ ⟨h₁, hP⟩
  have := t.size_le_two
  cases keep with
  | true => exact .pure ⟨h₁, hP⟩
  | false =>
    refine (h₁.drop t (Int.le_refl _) (by dsimp only; omega)).andThen fun _ b₂ h₂ => .pure ⟨?_, hP⟩
    rwa [Int.sub_self] at h₂

/-- A constant is pushed, left out, or decides a jump once and for all. -/
theorem does_constant (tok : Token) {c : Constant} (hc : c.IsTyped) (hroom : 2 ≤ room) (mode : Mode)
    (hP : P c.type) : Does base room s P (constant tok c mode) mode := by
  have hsize := c.type.size_le_two
  cases mode with
  | value =>
    rintro b rfl hsound hb
    refine (At.const (.refl Code.untouched hsound hb) hc.fills (Int.le_refl 0) (by dsimp only; omega)).andThen
      fun _ b₁ h₁ => .pure ⟨?_, hP⟩
    rwa [Int.zero_add] at h₁
  | drop =>
    rintro b rfl hsound hb
    exact .bind (.pure (.pure ⟨.refl _ hsound hb, trivial⟩))
  | jump target jumpIf =>
    rintro b rfl hsound hb - hl
    have hstay : Branched base b.scopes target b b :=
      ⟨rfl, .refl hsound, .inl rfl, fun d hd => .inl hd⟩
    unfold Gen.constant
    dsimp only
    split
    · split
      · refine Ensures.andThen ?_ fun _ _ h => .pure h
        exact At.branch (k := 0) (.refl _ hsound hb) (by decide) (by omega) hl
      · exact .pure hstay
    · exact .bind (.refuse _ _)

/-! ### Conditions -/

theorem pushes_int (v : Int32) : Pushes base 1 s (edit (·.int v)) (fun _ => 1) fun _ => True := by
  rintro b rfl hsound hb
  exact (At.int (.refl Code.untouched hsound hb) v (Int.le_refl 0) (Int.le_refl 1)).mono
    fun _ _ h => ⟨h, trivial⟩

/-- The value of a condition takes one slot, whichever way it is reached. -/
theorem pushes_boolValue (hroom : 1 ≤ room)
    (h : ∀ l, JumpsTo base room s l (jumpFalse l)) :
    Pushes base room s (boolValue jumpFalse) (fun _ => 1) fun _ => True := by
  rintro b rfl hsound hb
  have hlimit : ∀ p d, (p = b.code.pos ∨ p = none) → p = some d → d + 1 < Code.limit := by
    rintro p d (rfl | rfl) hd
    · have := hb d hd
      omega
    · cases hd
  unfold Gen.boolValue
  refine .bind ((Here.refl Code.untouched hsound).newLabel.mono ?_)
  rintro isFalse b₁ ⟨h₁, -, hfalse₁, -⟩
  refine h₁.newLabel.andThen ?_
  rintro done b₂ ⟨h₂, hne, hdone₂, hmarks₂⟩
  have hne : isFalse ≠ done := fun e => hne (e ▸ List.mem_singleton.2 rfl)
  have hfalse₂ : b₂.code.mark? isFalse = none := (hmarks₂ _).trans hfalse₁
  refine (h isFalse b₂ h₂.scopes h₂.step.sound ?_ (h₂.lt_size (.tail _ (.head _))) ?_).andThen
    fun _ b₃ hbr => ?_
  · exact fun d hd => hb d (h₂.pos.symm.trans hd)
  · exact fun d _ => h₂.takes (.tail _ (.head _)) fun e he => by cases hfalse₂.symm.trans he
  obtain ⟨p₃, h₃, hp₃, hlive, hfalse₃, hmarks₃⟩ := h₂.cond hbr
    (fun hlt => absurd hlt (h₂.not_lt (.tail _ (.head _)))) (h₂.lt_size (.tail _ (.head _)))
  rw [hfalse₂] at hfalse₃
  have hdone₃ := (hmarks₃ done (h₂.lt_size (.head _)) (Ne.symm hne)).trans hdone₂
  -- where the condition goes on, one is pushed, and the other push is jumped over
  refine (h₃.run (pushes_int 1) (hlimit p₃ · hp₃)).andThen ?_
  rintro _ b₄ ⟨h₄, -, hmarks₄⟩
  have hfalse₄ := hmarks₄ isFalse (h₃.lt_size (.tail _ (.head _)))
  have hdone₄ := (hmarks₄ done (h₃.lt_size (.head _))).trans hdone₃
  refine (h₄.goto (h₄.lt_size (.head _)) ?_ ?_ ?_).andThen ?_
  · intro d hd
    obtain ⟨e, he, rfl⟩ := Option.map_eq_some_iff.1 hd
    exact hlimit p₃ e hp₃ he
  · exact fun d _ => h₄.takes (.head _) fun e he => by cases hdone₄.symm.trans he
  · exact fun hlt => absurd hlt (h₄.not_lt (.head _))
  rintro _ b₅ ⟨h₅, hdone₅, hmarks₅⟩
  rw [hdone₄, Option.or_none] at hdone₅
  have hfalse₅ := (hmarks₅ isFalse (h₄.lt_size (.tail _ (.head _))) hne).trans hfalse₄
  -- where it jumps to, zero is pushed
  refine (h₅.bind (.tail _ (.head _)) fun d e hd => by cases hd).andThen ?_
  rintro _ b₆ ⟨h₆, hmarks₆, -⟩
  have hdone₆ := (hmarks₆ done (Ne.symm hne)).trans hdone₅
  rw [Option.none_or, hfalse₅] at h₆
  have hmem : done ∈ [done, isFalse].filter (· ≠ isFalse) := by simp [Ne.symm hne]
  refine (h₆.run (pushes_int 0) (hlimit _ · hfalse₃.symm)).andThen ?_
  rintro _ b₇ ⟨h₇, -, hmarks₇⟩
  have hdone₇ := (hmarks₇ done (h₆.lt_size hmem)).trans hdone₆
  refine (h₇.bind hmem ?_).mono ?_
  · intro d e hd he
    rw [hdone₇] at he
    rcases hp₃ with rfl | rfl <;> rcases hfalse₃ with hf | hf <;> simp_all
  rintro _ b₈ ⟨h₈, -⟩
  have hown : ([done, isFalse].filter (· ≠ isFalse)).filter (· ≠ done) = [] := by
    simp [Ne.symm hne]
  rw [hdone₇, hown] at h₈
  refine ⟨⟨h₈.scopes, fun d hd => ⟨hsound.pos_nonneg hd, hb d hd⟩, h₈.step, h₈.pos.trans ?_⟩, trivial⟩
  dsimp only
  cases hpos : b.code.pos with
  | none =>
    rw [hpos] at hp₃ hfalse₃
    simp_all
  | some d =>
    rw [hpos] at hp₃ hfalse₃
    rcases hlive d hpos with h | h <;> rcases hp₃ with rfl | rfl <;> rcases hfalse₃ with hf | hf <;>
      simp_all

/-- Two conditions joined by "and", or by "or". -/
theorem jumpsTo_junction
    (hleft : ∀ l j, JumpsTo base room s l (left l j))
    (hright : ∀ l j, JumpsTo base room s l (right l j)) :
    JumpsTo base room s l (junction isAnd left right l jumpIf) := by
  rintro b rfl hsound hb hlt htakes
  have hstart := Here.refl (fun k d => k = l ∧ b.code.pos = some d) hsound
  -- the label takes the depth as long as only conditions jump to it
  have htakes' : ∀ {own s p b'}, Here base (fun k d => k = l ∧ b.code.pos = some d) b.code own s p b' →
      p = b.code.pos ∨ p = none → ∀ d, b'.code.pos = some d → b'.code.Takes l d := by
    intro own s p b' h hp d hd
    have hd : b.code.pos = some d := by
      rcases hp with rfl | rfl
      · exact h.pos.symm.trans hd
      · cases h.pos.symm.trans hd
    exact h.step.takes (htakes d hd) fun e he => by cases hd.symm.trans he.2; rfl
  have hroom' : ∀ {own s p b'}, Here base (fun k d => k = l ∧ b.code.pos = some d) b.code own s p b' →
      p = b.code.pos ∨ p = none → HasRoom b'.code room := by
    rintro own s p b' h (rfl | rfl) d hd
    · exact hb d (h.pos.symm.trans hd)
    · cases h.pos.symm.trans hd
  unfold Gen.junction
  split
  · refine hstart.newLabel.andThen ?_
    rintro skip b₁ ⟨h₁, -, hskip₁, hmarks₁⟩
    have hne : skip ≠ l := fun e => h₁.not_lt (.head _) (e ▸ hlt)
    refine (hleft skip _ b₁ h₁.scopes h₁.step.sound (hroom' h₁ (.inl rfl))
      (h₁.lt_size (.head _)) ?_).andThen fun _ b₂ hbr => ?_
    · exact fun d _ => h₁.takes (.head _) fun e he => by cases hskip₁.symm.trans he
    obtain ⟨p₂, h₂, hp₂, hlive₂, hskip₂, -⟩ :=
      h₁.cond hbr (fun hlt => absurd hlt (h₁.not_lt (.head _))) (h₁.lt_size (.head _))
    rw [hskip₁] at hskip₂
    have hlt₂ : l < b₂.code.marks.size := Nat.lt_of_lt_of_le hlt h₂.step.size_le
    refine (hright l _ b₂ h₂.scopes h₂.step.sound (hroom' h₂ hp₂) hlt₂
      (htakes' h₂ hp₂)).andThen fun _ b₃ hbr' => ?_
    obtain ⟨p₃, h₃, hp₃, hlive₃, -, hmarks₃⟩ := h₂.cond hbr' (fun _ d hd => ⟨rfl, by
      rcases hp₂ with rfl | rfl
      · exact hd
      · cases hd⟩) hlt₂
    have hskip₃ := hmarks₃ skip (h₂.lt_size (.head _)) hne
    refine (h₃.bind (.head _) ?_).mono ?_
    · intro d e hd he
      rw [hskip₃] at he
      rcases hskip₂ with h | h
      · cases h.symm.trans he
      · rw [h] at he
        rcases hp₃ with rfl | rfl
        · rcases hp₂ with rfl | rfl
          · exact Option.some.inj (he.symm.trans hd)
          · cases hd
        · cases hd
    · rintro _ b₄ ⟨h₄, hmarks₄, -⟩
      have hown : [skip].filter (· ≠ skip) = [] := by simp
      rw [hskip₃, hown] at h₄
      refine ⟨h₄.scopes, h₄.step, ?_, ?_⟩
      · rw [h₄.pos]
        rcases hp₃ with rfl | rfl <;> rcases hp₂ with rfl | rfl <;> rcases hskip₂ with h | h <;>
          rw [h] <;> simp
      · intro d hd
        rw [h₄.pos]
        rcases hlive₂ d hd with h | h
        · rcases hlive₃ d h with h | h
          · exact .inl (by rw [h]; rfl)
          · exact .inr ((hmarks₄ l (Ne.symm hne)).trans h)
        · left
          rw [h]
          rcases hp₃ with rfl | rfl
          · rcases hp₂ with rfl | rfl
            · rw [hd]; rfl
            · rfl
          · rfl
  · refine (hleft l _ b rfl hsound hb hlt htakes).andThen fun _ b₁ hbr => ?_
    obtain ⟨p₁, h₁, hp₁, hlive₁, -⟩ := hstart.cond hbr (fun _ d hd => ⟨rfl, hd⟩) hlt
    have hlt₁ : l < b₁.code.marks.size := Nat.lt_of_lt_of_le hlt h₁.step.size_le
    refine (hright l _ b₁ h₁.scopes h₁.step.sound (hroom' h₁ hp₁) hlt₁
      (htakes' h₁ hp₁)).mono fun _ b₂ hbr' => ?_
    obtain ⟨p₂, h₂, hp₂, hlive₂, -⟩ := h₁.cond hbr' (fun _ d hd => ⟨rfl, by
      rcases hp₁ with rfl | rfl
      · exact hd
      · cases hd⟩) hlt₁
    refine ⟨h₂.scopes, h₂.step, ?_, ?_⟩
    · rw [h₂.pos]
      rcases hp₂ with rfl | rfl
      · exact hp₁
      · exact .inr rfl
    · intro d hd
      rw [h₂.pos]
      rcases hlive₁ d hd with h | h
      · exact hlive₂ d h
      · exact .inr (hbr'.step.mark?_of_eq_some h)

/-! ### Operands -/

section
variable {o : Origin} {own : List Label} {n : Int} {l r : Ty} {left right : Gen Unit}

/-- Two operands, each converted to a type. -/
theorem ensures_operands (hl : l.isVoid = false) (hr : r.isVoid = false)
    (ht : t.isVoid = false) (htight : t.isTight = true)
    (hlfit : l.isPrim = true → t.isPrim = true ∨ t.assignable l = true)
    (hrfit : r.isPrim = true → t.isPrim = true ∨ t.assignable r = true)
    (hleft : Ensures left b fun _ => At o own s (n + l.size))
    (hright : ∀ b', At o own s (n + t.size) b' →
      Ensures right b' fun _ => At o own s (n + t.size + r.size))
    (hn : 0 ≤ n) (hroom : n + 6 ≤ o.room) :
    Ensures (operands l r t left right) b fun _ => At o own s (n + 2 * t.size) := by
  have hlsize := l.size_le_two
  have hrsize := r.size_le_two
  have htsize := t.size_le_two
  refine hleft.andThen fun _ b₁ h₁ => ?_
  refine (h₁.convert hl ht htight hlfit (by omega) (by omega)).andThen fun _ b₂ h₂ => ?_
  rw [Int.add_sub_cancel] at h₂
  refine (hright b₂ h₂).andThen fun _ b₃ h₃ => ?_
  refine (h₃.convert hr ht htight hrfit (by omega) (by omega)).mono fun _ b₄ h₄ => ?_
  rwa [Int.add_sub_cancel, Int.add_assoc, ← Int.two_mul] at h₄

end

end Gen

/-! ### Comparisons -/

namespace Gen

variable {base : Option Int} {room : Int} {s : Scopes} {l : Label} {b b' : Body}

theorem branches_comparisonJump (op : BinaryOp) :
    (comparisonJump op).Branches 1 ∧ (comparisonJump op).negate.Branches 1 ∧
      (comparisonJump op).negate.negate.Branches 1 ∧ (onPair (comparisonJump op)).Branches 2 ∧
      (onPair (comparisonJump op)).negate.Branches 2 := by
  cases op <;> decide

theorem moves_floatComparison (op : BinaryOp) (hp : p = .float ∨ p = .double) :
    (floatComparison op p).Moves .plain (2 * p.size) 1 := by
  rcases hp with rfl | rfl <;> cases op <;> decide

end Gen

namespace Ty

theorem eq_prim_of_promote? {l : Ty} (h : l.promote? r = some p) :
    ∃ q q', l = .prim q ∧ r = .prim q' ∧ q.promote q' = some p := by
  unfold promote? at h
  split at h
  · exact ⟨_, _, rfl, rfl, h⟩
  · cases h

theorem isVoid_of_promote (h : p.promote q = some r) :
    (prim p).isVoid = false ∧ (prim q).isVoid = false ∧ (prim r).isVoid = false := by
  cases p <;> cases q <;> cases h <;> decide

theorem isVoid_of_isReference {t : Ty} (h : t.isReference = true) : t.isVoid = false := by
  cases t with
  | prim p => cases h
  | _ => rfl

end Ty

def BinaryOp.isComparison : BinaryOp → Bool
  | eq | ne | lt | le | gt | ge => true
  | _ => false

/-- What is compared are numbers, two conditions or two references. -/
theorem BinaryOp.references_of_type? {op : BinaryOp} (hop : op.isComparison = true)
    (h : op.type? l r = some t) (hnum : l.promote? r = none)
    (hbool : ¬ ((op == .eq || op == .ne) && l.isBool && r.isBool) = true) :
    l.isReference = true ∧ r.isReference = true := by
  unfold BinaryOp.type? at h
  rw [hnum] at h
  cases op with
  | eq | ne =>
    dsimp only at h
    split at h
    · next hc =>
      simp only [Option.isSome_none, Bool.false_or, Bool.or_eq_true, Bool.and_eq_true] at hc
      rcases hc with hc | hc
      · exact absurd (by simp [hc.1, hc.2]) hbool
      · exact hc
    · cases h
  | lt | le | gt | ge => cases h
  | _ => cases hop

namespace Gen

/-- A comparison takes both operands off the stack and jumps or goes on. -/
theorem jumpsTo_comparison (tok : Token) {op : BinaryOp} (hop : op.isComparison = true)
    (hleft : Pushes base k s left (fun _ => x.size) fun _ => True)
    (hright : Pushes base k s right (fun _ => y.size) fun _ => True) (hk : 0 ≤ k)
    (hroom : k + 8 ≤ room) :
    JumpsTo base room s l (comparison tok op x y left right l jumpIf) := by
  rintro b rfl hsound hb - htakes
  have hstart : At (.of base room b) [] b.scopes 0 b := .refl _ hsound hb
  have hjump : ∀ (final : Opcode) (n : Nat) b', final.Branches n → final.negate.Branches n →
      At (.of base room b) [] b.scopes n b' →
      Ensures (jump (if jumpIf then final else final.negate) l) b'
        fun _ => Branched base b.scopes l b := by
    intro final n b' hf hneg h'
    cases jumpIf
    · exact h'.branch hneg (by omega) htakes
    · exact h'.branch hf (by omega) htakes
  have hoperands : ∀ t : Ty, x.isVoid = false → y.isVoid = false → t.isVoid = false →
      t.isTight = true → (x.isPrim = true → t.isPrim = true) → (y.isPrim = true → t.isPrim = true) →
      Ensures (operands x y t left right) b fun _ =>
        At (.of base room b) [] b.scopes (2 * t.size) := by
    intro t hx hy ht htight hxfit hyfit
    have htsize := t.size_le_two
    refine (ensures_operands hx hy ht htight (fun h => .inl (hxfit h)) (fun h => .inl (hyfit h))
      ((hstart.run hleft (by dsimp only; omega)).mono fun _ _ h => h.1)
      (fun b' h' => (h'.run hright (by dsimp only; omega)).mono fun _ _ h => h.1)
      (Int.le_refl 0) (by dsimp only; omega)).mono fun _ _ h => ?_
    rwa [Int.zero_add] at h
  obtain ⟨hone, hnegate, hdouble, hpair, hpairneg⟩ := branches_comparisonJump op
  unfold Gen.comparison
  refine .bind (.lift (Env.stackSafe_binaryType _ _ _ _) fun t ht => ?_)
  have ht := Env.type?_of_binaryType ht
  dsimp only
  split
  · next p hp =>
    obtain ⟨q, q', rfl, rfl, hq⟩ := Ty.eq_prim_of_promote? hp
    obtain ⟨hx, hy, hpvoid⟩ := Ty.isVoid_of_promote hq
    refine (hoperands (.prim p) hx hy hpvoid rfl (fun _ => rfl) (fun _ => rfl)).andThen
      fun _ b₁ h₁ => ?_
    change At _ [] _ (2 * p.size) b₁ at h₁
    rcases Prim.promote_cases hq with rfl | rfl | hfloat
    · exact hjump _ 2 b₁ hpair hpairneg h₁
    · refine (h₁.op (p := 4) (q := 1) (by decide) (by decide)
        (by change (4 : Int) + 1 - 4 ≤ room; omega)).andThen fun _ b₂ h₂ => ?_
      exact hjump _ 1 b₂ hone hnegate h₂
    · have hsize : p.size ≤ 2 := Ty.size_le_two (.prim p)
      have hcmp : Ensures (Gen.op (floatComparison op p)) b₁ fun _ =>
          At (.of base room b) [] b.scopes (1 : Nat) := by
        refine (h₁.op (moves_floatComparison op hfloat) (by omega) (by dsimp only; omega)).mono
          fun _ b₂ h₂ => h₂.congr (by omega)
      rcases hfloat with rfl | rfl <;>
        exact hcmp.andThen fun _ b₂ h₂ => hjump _ 1 b₂ hone hnegate h₂
  · next hnone =>
    split
    · next hbools =>
      rw [Bool.and_eq_true, Bool.and_eq_true] at hbools
      cases Ty.eq_bool_of_isBool hbools.1.2
      cases Ty.eq_bool_of_isBool hbools.2
      refine (hoperands .bool rfl rfl rfl rfl (fun _ => rfl) (fun _ => rfl)).andThen fun _ b₁ h₁ => ?_
      exact hjump _ 2 b₁ hpair hpairneg h₁
    · next hbools =>
      obtain ⟨hx, hy⟩ := BinaryOp.references_of_type? hop ht hnone hbools
      have hprim : ∀ t : Ty, t.isReference = true → t.isPrim = true → Ty.object.isPrim = true := by
        intro t ht hprim
        cases t <;> first | cases ht; done | cases hprim
      refine (hoperands .object (Ty.isVoid_of_isReference hx) (Ty.isVoid_of_isReference hy)
        rfl rfl (hprim x hx) (hprim y hy)).andThen fun _ b₁ h₁ => ?_
      refine (h₁.invoke (p := 2) (q := 1) ⟨[.object, .object], some .bool⟩ (by decide) (by decide)
        (.inl ⟨rfl, rfl⟩) rfl (by decide) (by change (2 : Int) + 1 - 2 ≤ room; omega)).andThen
        fun _ b₂ h₂ => ?_
      exact hjump _ 1 b₂ hnegate hdouble h₂

end Gen

/-! ### Arithmetic -/

namespace Ty

/-- The type of the argument that text is made from a value of a type through. -/
def textType : Ty → Ty
  | prim .byte | prim .short | prim .int => int
  | prim .void => object
  | prim p => prim p
  | t => if t.isString then string else object

theorem eq_string_of_isString (h : t.isString = true) : t = string := by
  unfold isString string at h
  cases t with
  | cls name =>
    rw [same, beq_iff_eq] at h
    rw [h]
    rfl
  | _ => simp [same] at h

theorem textDescriptor_eq (t : Ty) : t.textDescriptor = t.textType.descriptor := by
  have hrest : ∀ t : Ty, (if t.isString then t.descriptor else object.descriptor) =
      (if t.isString then string else object).descriptor := by
    intro t
    split
    · next h => rw [eq_string_of_isString h]
    · rfl
  cases t with
  | prim p => cases p <;> simp [textDescriptor, textType, descriptor, int]
  | _ => exact hrest _

theorem isProper_textType (t : Ty) : t.textType.isProper = true := by
  have hrest : ∀ t : Ty, (if t.isString then string else object).isProper = true := by
    intro t
    split <;> decide
  cases t with
  | prim p => cases p <;> decide
  | _ => exact hrest _

theorem size_textType {t : Ty} (h : t.isVoid = false) : t.textType.size = t.size := by
  have hrest : ∀ t : Ty, (if t.isString then string else object).size = 1 := by
    intro t
    split <;> rfl
  cases t with
  | prim p => cases p <;> first | rfl | cases h
  | _ => exact hrest _

end Ty

namespace Gen

section
variable {o : Origin} {own : List Label} {n : Int} {x y : Ty} {left right : Gen Unit}

/-- The joined texts of two operands. -/
theorem ensures_concat (hx : x.isVoid = false) (hy : y.isVoid = false)
    (hleft : Ensures left b fun _ => At o own s (n + x.size))
    (hright : ∀ b', At o own s (n + 1) b' → Ensures right b' fun _ => At o own s (n + 1 + y.size))
    (hn : 0 ≤ n) (hroom : n + 3 ≤ o.room) :
    Ensures (concat x y left right) b fun _ => At o own s (n + 1) := by
  have hxsize := x.size_le_two
  have hysize := y.size_le_two
  have hdesc : ∀ t u : Ty, ("(" ++ t.descriptor ++ ")" ++ u.descriptor : Text) =
      (Signature.mk [t] (some u)).descriptor := by
    intro t u
    simp [Signature.descriptor, Ty.descriptor, Ty.descriptors, Ty.resultDescriptor]
  -- the text of the left operand
  obtain ⟨t, ht, htproper, htsize⟩ : ∃ t : Ty,
      (if x.isString then Ty.object.descriptor else x.textDescriptor) = t.descriptor ∧
        t.isProper = true ∧ t.size = x.size := by
    split
    · next h =>
      rw [Ty.eq_string_of_isString h]
      exact ⟨.object, rfl, by decide, rfl⟩
    · exact ⟨_, x.textDescriptor_eq, x.isProper_textType, Ty.size_textType hx⟩
  have hsig : ∀ {t u : Ty}, t.isProper = true → u.isProper = true →
      (Signature.mk [t] (some u)).isProper = true := by
    intro t u ht hu
    rw [Signature.isProper_iff]
    exact ⟨fun v hv => by cases List.mem_singleton.1 hv; exact ht, hu⟩
  unfold Gen.concat
  dsimp only
  refine hleft.andThen fun _ b₁ h₁ => ?_
  rw [ht]
  refine (h₁.invoke (p := x.size) (q := 1) _ (hsig htproper (by decide)) (hdesc t .string)
    (.inl ⟨rfl, htsize.symm⟩) rfl (by omega) (by omega)).andThen fun _ b₂ h₂ => ?_
  -- the builder goes under it
  refine (h₂.type (p := 0) (q := 1) (by decide) _ (by omega) (by omega)).andThen fun _ b₃ h₃ => ?_
  refine (h₃.op (p := 2) (q := 3) (by decide) (by omega) (by omega)).andThen fun _ b₄ h₄ => ?_
  refine (h₄.op (p := 2) (q := 2) (by decide) (by omega) (by omega)).andThen fun _ b₅ h₅ => ?_
  refine (h₅.invoke (p := 2) (q := 0) ⟨[.string], none⟩ (by decide) (by decide)
    (.inr ⟨.inr (.inl rfl), rfl⟩) rfl (by omega) (by omega)).andThen fun _ b₆ h₆ => ?_
  refine (hright b₆ (h₆.congr (by omega))).andThen fun _ b₇ h₇ => ?_
  rw [y.textDescriptor_eq]
  have hargs : y.size + 1 = (Signature.mk [y.textType] (some (.cls stringBuilder))).argSize + 1 :=
    congrArg (· + 1) (Ty.size_textType hy).symm
  refine (h₇.invoke (q := 1) _ (hsig y.isProper_textType (by decide)) (hdesc _ (.cls stringBuilder))
    (.inr ⟨.inl rfl, hargs⟩) rfl (by omega) (by omega)).andThen fun _ b₈ h₈ => ?_
  exact (h₈.invoke (p := 1) (q := 1) ⟨[], some .string⟩ (by decide) (by decide)
    (.inr ⟨.inl rfl, rfl⟩) rfl (by omega) (by omega)).mono fun _ b₉ h₉ => h₉.congr (by omega)

end

end Gen

/-- An instruction for two operands of a type that leaves a value of the type. -/
def Opcode.Computes (op : Opcode) (p : Prim) : Prop :=
  op.effect = (2 * p.size, p.size) ∧ op.isTerminal = false ∧ op.shape = .plain

instance (op : Opcode) (p : Prim) : Decidable (op.Computes p) := by
  unfold Opcode.Computes
  infer_instance

namespace BinaryOp

def isArithmetic : BinaryOp → Bool
  | add | sub | mul | div | mod | pow | xor => true
  | _ => false

/-- An operator on primitives with the types of its operands and of its result, which are computed
with by an instruction or, for powers, by a call. -/
inductive Computes (op : BinaryOp) : Ty → Ty → Ty → Prop
  | mk {p q u : Prim} (hp : (Ty.prim p).isVoid = false) (hq : (Ty.prim q).isVoid = false)
    (hu : (Ty.prim u).isVoid = false) (hpow : op = .pow → u = .double)
    (hop : op ≠ .pow → ((Gen.arithOpcode op).forNumber (.prim u)).Computes u) :
    Computes op (.prim p) (.prim q) (.prim u)

theorem computes_of_promote {op : BinaryOp} (hop : op.isArithmetic = true)
    (hxor : op = .xor → Constant.isIntegral p = true) (h : x.promote? y = some p) :
    op.Computes x y (.prim (if op = .pow then .double else p)) := by
  obtain ⟨q, q', rfl, rfl, hq⟩ := Ty.eq_prim_of_promote? h
  obtain ⟨hx, hy, hp⟩ := Ty.isVoid_of_promote hq
  by_cases hpow : op = .pow
  · rw [if_pos hpow]
    exact .mk hx hy rfl (fun _ => rfl) (absurd hpow)
  · rw [if_neg hpow]
    refine .mk hx hy hp (absurd · hpow) fun _ => ?_
    rcases Prim.promote_cases hq with rfl | rfl | rfl | rfl <;>
      cases op <;> first | cases hop; done | exact absurd rfl hpow | decide | cases hxor rfl

/-- An operator joins texts, or it computes with primitives. -/
theorem cases_of_type? {op : BinaryOp} (hop : op.isArithmetic = true)
    (h : op.type? x y = some t) :
    op = .add ∧ t = .string ∧ x.isVoid = false ∧ y.isVoid = false ∨ op.Computes x y t := by
  have hnum : ∀ {p}, op.isArithmetic = true → op ≠ .pow → op ≠ .xor → x.promote? y = some p →
      op.Computes x y (.prim p) := by
    intro p hop hpow hxor hp
    have := computes_of_promote hop (absurd · hxor) hp
    rwa [if_neg hpow] at this
  unfold BinaryOp.type? at h
  cases op with
  | add =>
    dsimp only at h
    split at h
    · next hc =>
      cases h
      simp only [Bool.and_eq_true, Bool.not_eq_true'] at hc
      exact .inl ⟨rfl, rfl, hc.1.1, hc.1.2⟩
    · obtain ⟨p, hp, rfl⟩ := Option.map_eq_some_iff.1 h
      exact .inr (hnum rfl nofun nofun hp)
  | sub | mul | div | mod =>
    obtain ⟨p, hp, rfl⟩ := Option.map_eq_some_iff.1 h
    exact .inr (hnum rfl nofun nofun hp)
  | pow =>
    obtain ⟨p, hp, rfl⟩ := Option.map_eq_some_iff.1 h
    exact .inr (computes_of_promote rfl nofun hp)
  | xor =>
    dsimp only at h
    split at h
    · next hc =>
      cases h
      rw [Bool.and_eq_true] at hc
      cases Ty.eq_bool_of_isBool hc.1
      cases Ty.eq_bool_of_isBool hc.2
      exact .inr (.mk rfl rfl rfl nofun fun _ => by decide)
    · obtain ⟨p, hp, rfl⟩ := Option.map_eq_some_iff.1 h
      obtain ⟨hp, hint⟩ := Option.filter_eq_some_iff.1 hp
      exact .inr (computes_of_promote rfl (fun _ => hint) hp)
  | _ => cases hop

end BinaryOp

namespace Gen

section
variable {o : Origin} {own : List Label} {n : Int} {x y : Ty} {left right : Gen Unit}

/-- An operator applied to two operands leaves a value of the type of its result. -/
theorem ensures_arith (tok : Token) {op : BinaryOp} (hop : op.isArithmetic = true)
    (hleft : Ensures left b fun _ => At o own s (n + x.size))
    (hright : ∀ m b', n + 1 ≤ m → m ≤ n + 2 → At o own s m b' →
      Ensures right b' fun _ => At o own s (m + y.size))
    (hn : 0 ≤ n) (hroom : n + 6 ≤ o.room) :
    Ensures (arith tok op x y left right) b fun t b' => At o own s (n + t.size) b' ∧
      Env.binaryType tok op x y = .ok t ∧ t.isVoid = false ∧ t.isTight = true := by
  unfold Gen.arith
  refine .bind (.lift (Env.stackSafe_binaryType _ _ _ _) fun t ht => ?_)
  rcases BinaryOp.cases_of_type? hop (Env.type?_of_binaryType ht) with ⟨rfl, rfl, hx, hy⟩ | hprim
  · rw [if_pos (by simp [Ty.isString, Ty.string, Ty.same])]
    refine (ensures_concat hx hy hleft (fun b' => hright _ b' (by omega) (by omega)) hn (by omega)).andThen
      fun _ b₁ h₁ => .pure ⟨h₁, ht, rfl, rfl⟩
  · cases hprim with
    | @mk p q u hp hq hu hpow hcode =>
      have hpos : 0 < u.size := Ty.size_pos hu
      have hsize : u.size ≤ 2 := Ty.size_le_two (.prim u)
      rw [if_neg (by simp [Ty.isString, Ty.string, Ty.same])]
      refine (ensures_operands (t := .prim u) hp hq hu rfl (fun _ => .inl rfl)
        (fun _ => .inl rfl) hleft (fun b' => hright _ b' ?_ ?_) hn hroom).andThen fun _ b₁ h₁ => ?_
      · change n + 1 ≤ n + (u.size : Int)
        omega
      · change n + (u.size : Int) ≤ n + 2
        omega
      change At o own s (n + 2 * (u.size : Int)) b₁ at h₁
      split
      · next hop =>
        cases hpow hop
        change At o own s (n + 2 * 2) b₁ at h₁
        refine (h₁.invoke (p := 4) (q := 2) ⟨[.double, .double], some .double⟩ (by decide) (by decide)
          (.inl ⟨rfl, rfl⟩) rfl (by omega) (by omega)).andThen
          fun _ b₂ h₂ => .pure ⟨h₂.congr ?_, ht, rfl, rfl⟩
        change _ = n + 2
        omega
      · next hop =>
        refine (h₁.op (hcode hop) (by omega) (by omega)).andThen
          fun _ b₂ h₂ => .pure ⟨?_, ht, hu, rfl⟩
        exact h₂.congr (by change _ = n + (u.size : Int); omega)

end

end Gen

end Classwright
