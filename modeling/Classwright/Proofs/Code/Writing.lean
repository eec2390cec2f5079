import Classwright.Code.Flow

/-!
What writing code does, call by call: a new label, the place of a label, and an instruction. Each call
is described in all cases, by the marks of all labels, the depth where the next instruction goes
(`Code.pos`), and what it takes for nothing to go wrong.
-/

namespace Classwright

/-- The depth that an instruction leaves. -/
def Instr.after (i : Instr) (d : Int) : Int := Word.wrap (d + i.push - i.pop)

namespace Code

/-- The depth where the next instruction goes, if that can be reached. -/
def pos (c : Code) : Option Int := if c.dead then none else some c.depth

/-- The depth that a label has been given. -/
def mark? (c : Code) (l : Label) : Option Int :=
  c.marks[l]?.bind fun m => if 0 ≤ m.depth then some m.depth else none

variable {c c' : Code} {i : Instr} {l k : Label} {d : Int} {m : Mark}

theorem pos_eq_some : c.pos = some d ↔ c.dead = false ∧ c.depth = d := by
  unfold pos
  cases c.dead <;> simp

theorem pos_eq_none : c.pos = none ↔ c.dead = true := by
  unfold pos
  cases c.dead <;> simp

theorem mark?_eq (h : c.marks[l]? = some m) :
    c.mark? l = if 0 ≤ m.depth then some m.depth else none := by
  rw [mark?, h]
  rfl

theorem mark?_eq_some : c.mark? l = some d ↔ ∃ m, c.marks[l]? = some m ∧ m.depth = d ∧ 0 ≤ d := by
  constructor
  · intro h
    cases hm : c.marks[l]? with
    | none => simp [mark?, hm] at h
    | some m =>
      rw [mark?_eq hm] at h
      split at h
      · cases h
        exact ⟨m, rfl, rfl, ‹_›⟩
      · cases h
  · rintro ⟨m, hm, rfl, hd⟩
    rw [mark?_eq hm, if_pos hd]

theorem mark?_congr (h : c'.marks[l]? = c.marks[l]?) : c'.mark? l = c.mark? l := by
  rw [mark?, mark?, h]

theorem fail_ne_none (c : Code) (e : CodeError) : (c.fail e).fault ≠ none := by
  unfold fail
  cases c.fault <;> nofun

/-! ### New labels -/

theorem marks_newLabel (l : Label) :
    c.newLabel.2.marks[l]? = if l = c.marks.size then some {} else c.marks[l]? :=
  Array.getElem?_push

theorem mark?_newLabel (l : Label) : c.newLabel.2.mark? l = c.mark? l := by
  rw [mark?, mark?, marks_newLabel]
  split
  · subst l
    simp
  · rfl

theorem labelIndex?_newLabel (c : Code) (l : Label) :
    c.newLabel.2.labelIndex? l = c.labelIndex? l := by
  rw [labelIndex?, labelIndex?, marks_newLabel]
  split
  · subst l
    simp
  · rfl

@[simp] theorem size_marks_newLabel (c : Code) : c.newLabel.2.marks.size = c.marks.size + 1 :=
  Array.size_push _

/-! ### Places of labels -/

/-- Placing a label changes only marks, the depth and what is wrong. -/
theorem bind_frame (c : Code) (l : Label) :
    (c.bind l).instrs = c.instrs ∧ (c.bind l).maxDepth = c.maxDepth ∧
      (c.bind l).marks.size = c.marks.size := by
  unfold bind
  split
  · exact ⟨rfl, rfl, rfl⟩
  · split
    · exact ⟨rfl, rfl, rfl⟩
    · dsimp only
      split <;> split <;> exact ⟨rfl, rfl, Array.size_setIfInBounds⟩

@[simp] theorem instrs_bind (c : Code) (l : Label) : (c.bind l).instrs = c.instrs := (bind_frame c l).1

@[simp] theorem size_marks_bind (c : Code) (l : Label) : (c.bind l).marks.size = c.marks.size :=
  (bind_frame c l).2.2

/-- A label that has no place gets that of the next instruction, and the depth there if it can be
reached; elsewhere the code goes on with the depth of the label. -/
theorem bind_of_open (hm : c.marks[l]? = some m) (hopen : m.index = none) :
    (c.bind l).marks = c.marks.setIfInBounds l ⟨some c.instrs.size, c.pos.getD m.depth⟩ ∧
      (c.bind l).pos = c.pos.or (c.mark? l) := by
  unfold bind
  rw [hm, mark?_eq hm]
  dsimp only
  rw [hopen, if_neg (by exact Bool.false_ne_true)]
  cases hdead : c.dead with
  | true =>
    rw [if_pos rfl, pos_eq_none.2 hdead]
    split <;> exact ⟨rfl, rfl⟩
  | false =>
    rw [if_neg Bool.false_ne_true, pos_eq_some.2 ⟨hdead, rfl⟩]
    split <;> exact ⟨rfl, rfl⟩

theorem bind_of_not_open (h : ∀ m, c.marks[l]? = some m → m.index ≠ none) :
    (c.bind l).marks = c.marks ∧ (c.bind l).pos = c.pos := by
  unfold bind
  split
  · exact ⟨rfl, rfl⟩
  · next m hm =>
    rw [if_pos (Option.isSome_iff_ne_none.2 (h m hm))]
    exact ⟨rfl, rfl⟩

/-- Nothing goes wrong where the label has no place yet and no other depth. -/
theorem fault_bind_iff (hm : c.marks[l]? = some m) : (c.bind l).fault = none ↔
    c.fault = none ∧ m.index = none ∧ ∀ d, c.pos = some d → m.depth < 0 ∨ m.depth = d := by
  unfold bind
  rw [hm]
  dsimp only
  split
  · next hindex =>
    refine iff_of_false (fail_ne_none _ _) fun h => ?_
    rw [h.2.1] at hindex
    cases hindex
  · next hindex =>
    have hopen : m.index = none := by simpa using hindex
    split
    · next hdead =>
      rw [pos_eq_none.2 hdead]
      split <;> exact ⟨fun h => ⟨h, hopen, nofun⟩, And.left⟩
    · next hdead =>
      have hpos : c.pos = some c.depth := pos_eq_some.2 ⟨by simpa using hdead, rfl⟩
      rw [hpos]
      split
      · next hd =>
        refine iff_of_false (fail_ne_none _ _) fun h => ?_
        have := h.2.2 _ rfl
        omega
      · next hd =>
        refine ⟨fun h => ⟨h, hopen, ?_⟩, And.left⟩
        rintro _ ⟨⟩
        omega

theorem bind_of_size_le (h : c.marks.size ≤ l) : c.bind l = c := by
  rw [bind, Array.getElem?_eq_none_iff.2 h]

/-- A label without a place gets that of the next instruction, and no other label changes. -/
theorem labelIndex?_bind (c : Code) (k l : Label) : (c.bind k).labelIndex? l =
    if l = k ∧ k < c.marks.size ∧ c.labelIndex? k = none then some c.instrs.size
    else c.labelIndex? l := by
  by_cases hopen : ∃ m, c.marks[k]? = some m ∧ m.index = none
  · obtain ⟨m, hm, hindex⟩ := hopen
    have hk := (Array.getElem?_eq_some_iff.1 hm).1
    rw [labelIndex?, (bind_of_open hm hindex).1, Array.getElem?_setIfInBounds, if_pos hk]
    by_cases hl : l = k
    · rw [if_pos hl.symm, if_pos ⟨hl, hk, by rw [labelIndex?, hm]; exact hindex⟩]
      rfl
    · rw [if_neg (Ne.symm hl), if_neg fun h => hl h.1, labelIndex?]
  · rw [labelIndex?, (bind_of_not_open fun m hm hindex => hopen ⟨m, hm, hindex⟩).1, if_neg]
    · rfl
    · rintro ⟨-, hk, hnone⟩
      rw [labelIndex?, Array.getElem?_eq_getElem hk] at hnone
      exact hopen ⟨_, Array.getElem?_eq_getElem hk, hnone⟩

/-! ### Instructions -/

/-- A jump changes only the mark of its label and what is wrong. -/
theorem reach_frame (c : Code) (l : Label) : (c.reach l).instrs = c.instrs ∧
    (c.reach l).marks.size = c.marks.size ∧ (c.reach l).depth = c.depth ∧
    (c.reach l).maxDepth = c.maxDepth ∧ (c.reach l).dead = c.dead := by
  unfold reach
  split
  · exact ⟨rfl, rfl, rfl, rfl, rfl⟩
  · split
    · exact ⟨rfl, Array.size_setIfInBounds, rfl, rfl, rfl⟩
    · split <;> exact ⟨rfl, rfl, rfl, rfl, rfl⟩

/-- A jump gives the present depth to a label that has none. -/
theorem marks_reach (c : Code) (l k : Label) : (c.reach l).marks[k]? = c.marks[k]?.map fun m =>
    if k = l ∧ m.depth < 0 then { m with depth := c.depth } else m := by
  unfold reach
  by_cases hk : k = l
  · subst hk
    cases hm : c.marks[k]? with
    | none => exact hm
    | some m =>
      rw [Option.map_some]
      dsimp only
      by_cases hneg : m.depth < 0
      · rw [if_pos hneg, Array.getElem?_setIfInBounds_self_of_lt (Array.getElem?_eq_some_iff.1 hm).1,
          if_pos ⟨rfl, hneg⟩]
      · rw [if_neg hneg, if_neg (fun h => hneg h.2 : ¬ (_ ∧ _))]
        split <;> exact hm
  · simp only [hk, false_and, if_false, Option.map_id']
    split
    · rfl
    · split
      · exact Array.getElem?_setIfInBounds_ne (Ne.symm hk)
      · split <;> rfl

theorem fault_reach_iff (c : Code) (l : Label) : (c.reach l).fault = none ↔
    c.fault = none ∧ ∀ m, c.marks[l]? = some m → m.depth < 0 ∨ m.depth = c.depth := by
  unfold reach
  cases hm : c.marks[l]? with
  | none => exact ⟨fun h => ⟨h, nofun⟩, And.left⟩
  | some m =>
    dsimp only
    split
    · next hneg => exact ⟨fun h => ⟨h, by rintro _ ⟨⟩; exact .inl hneg⟩, And.left⟩
    · next hneg =>
      split
      · next heq => exact ⟨fun h => ⟨h, by rintro _ ⟨⟩; exact .inr heq⟩, And.left⟩
      · next hne =>
        exact iff_of_false (fail_ne_none _ _) fun h => (h.2 m rfl).elim hneg hne

/-- The code with an instruction appended where it can be reached, apart from the label of a jump. -/
def advanced (c : Code) (i : Instr) : Code :=
  { c with
    instrs := c.instrs.push i, depth := i.after c.depth, maxDepth := max c.maxDepth (i.after c.depth)
    fault := if c.depth < i.pop then
        c.fault.or (some (.underflow c.instrs.size i.op c.depth i.pop))
      else c.fault }

theorem emit_of_dead (i : Instr) (hdead : c.dead = true) : c.emit i =
    { c with
      instrs := c.instrs.push i, depth := max 0 (Word.wrap (c.depth + i.push - i.pop)) } := by
  rw [emit, if_pos hdead]

theorem emit_of_not_dead (i : Instr) (hdead : c.dead = false) : c.emit i =
    { i.target?.elim (c.advanced i) (c.advanced i).reach with dead := i.op.isTerminal } := by
  have hkeep (a : Code) (ha : a.dead = false) : (if i.op.isTerminal then { a with dead := true } else a) =
      { a with dead := i.op.isTerminal } := by
    cases i.op.isTerminal with
    | true => rfl
    | false => rw [if_neg Bool.false_ne_true, ← ha]
  unfold emit
  rw [if_neg (by rw [hdead]; exact Bool.false_ne_true)]
  cases i.target? with
  | none => exact hkeep (c.advanced i) hdead
  | some l =>
    obtain ⟨-, -, -, -, hreach⟩ := (c.advanced i).reach_frame l
    exact hkeep ((c.advanced i).reach l) (hreach.trans hdead)

@[simp] theorem instrs_emit (c : Code) (i : Instr) : (c.emit i).instrs = c.instrs.push i := by
  cases hdead : c.dead with
  | true => rw [emit_of_dead i hdead]
  | false =>
    rw [emit_of_not_dead i hdead]
    cases i.target? with
    | none => rfl
    | some l => exact ((c.advanced i).reach_frame l).1

theorem dead_emit (c : Code) (i : Instr) : (c.emit i).dead = (c.dead || i.op.isTerminal) := by
  cases hdead : c.dead with
  | true => rw [emit_of_dead i hdead, hdead, Bool.true_or]
  | false => rw [emit_of_not_dead i hdead, Bool.false_or]

/-- The depths where an instruction is reached. -/
theorem depth_emit (i : Instr) (hdead : c.dead = false) : (c.emit i).depth = i.after c.depth ∧
    (c.emit i).maxDepth = max c.maxDepth (i.after c.depth) := by
  rw [emit_of_not_dead i hdead]
  cases i.target? with
  | none => exact ⟨rfl, rfl⟩
  | some l =>
    obtain ⟨-, -, hdepth, hmax, -⟩ := (c.advanced i).reach_frame l
    exact ⟨hdepth, hmax⟩

theorem pos_emit_eq (c : Code) (i : Instr) :
    (c.emit i).pos = if i.op.isTerminal then none else c.pos.map i.after := by
  rw [pos, dead_emit]
  cases hdead : c.dead with
  | true =>
    rw [pos_eq_none.2 hdead, Option.map_none, ite_self]
    rfl
  | false => rw [pos_eq_some.2 ⟨hdead, rfl⟩, (depth_emit i hdead).1, Bool.false_or, Option.map_some]

/-- The label of a jump that is reached gets the depth that the jump leaves, unless it has one. -/
theorem marks_emit (c : Code) (i : Instr) (k : Label) :
    (c.emit i).marks[k]? = c.marks[k]?.map fun m =>
      if c.dead = false ∧ i.target? = some k ∧ m.depth < 0 then { m with depth := i.after c.depth }
      else m := by
  cases hdead : c.dead with
  | true =>
    rw [emit_of_dead i hdead]
    simp
  | false =>
    rw [emit_of_not_dead i hdead]
    cases i.target? with
    | none => simp [advanced]
    | some l =>
      simp only [true_and, Option.some.injEq, eq_comm (a := l)]
      exact (c.advanced i).marks_reach l k

@[simp] theorem size_marks_emit (c : Code) (i : Instr) : (c.emit i).marks.size = c.marks.size := by
  cases hdead : c.dead with
  | true => rw [emit_of_dead i hdead]
  | false =>
    rw [emit_of_not_dead i hdead]
    cases i.target? with
    | none => rfl
    | some l => exact ((c.advanced i).reach_frame l).2.1

theorem labelIndex?_emit (c : Code) (i : Instr) (l : Label) :
    (c.emit i).labelIndex? l = c.labelIndex? l := by
  rw [labelIndex?, labelIndex?, marks_emit]
  cases c.marks[l]? with
  | none => rfl
  | some m =>
    rw [Option.map_some]
    split <;> rfl

theorem fault_emit_iff (i : Instr) (hdead : c.dead = false) : (c.emit i).fault = none ↔
    c.fault = none ∧ i.pop ≤ c.depth ∧ ∀ l m, i.target? = some l → c.marks[l]? = some m →
      m.depth < 0 ∨ m.depth = i.after c.depth := by
  have hadvanced : (c.advanced i).fault = none ↔ c.fault = none ∧ i.pop ≤ c.depth := by
    unfold advanced
    dsimp only
    split
    · cases c.fault <;> simp_all
    · simp_all
  rw [emit_of_not_dead i hdead, ← and_assoc, ← hadvanced]
  cases i.target? with
  | none => exact ⟨fun h => ⟨h, nofun⟩, And.left⟩
  | some l =>
    refine ((c.advanced i).fault_reach_iff l).trans (and_congr_right fun _ => ?_)
    exact ⟨by rintro h _ m ⟨⟩; exact h m, fun h m => h l m rfl⟩

theorem fault_of_emit (h : (c.emit i).fault = none) : c.fault = none := by
  cases hdead : c.dead with
  | true => rwa [emit_of_dead i hdead] at h
  | false => exact ((fault_emit_iff i hdead).1 h).1

end Code

end Classwright
