import Classwright.Proofs.Code.Search

/-!
What is followed while code is written is what the search through the finished code finds. Each call
appends an instruction, or makes or binds a label (`Code.Ran`); the depths that are followed on the
way are those of ways through the code (`Code.Traced`). In code without a fault they are the only ones
(`Code.Agrees`), as long as no instruction that can be reached jumps back to a label that was bound
where nothing could be reached. So the instructions written while the code could be reached are those
that ways lead to, and the search succeeds just where the end of the code is not reached, with the
greatest depth that was followed.
-/

namespace Classwright

namespace Code

/-! ### Calls -/

/-- One call that may append an instruction. An instruction takes no negative number of slots, and
jumps lead to labels that the code has. -/
inductive Emits (c : Code) : Code → Prop
  | emit (o : Opcode) (p : Instr.Parts) : 0 ≤ p.pop → (o.isJump = true → p.label < c.marks.size) →
    Emits c (c.emit (.ofParts o p))
  | op (o : Opcode) : (o.isJump = true → 0 < c.marks.size) → Emits c (c.op o)
  | jump (o : Opcode) (l : Label) : l < c.marks.size → Emits c (c.jump o l)
  | int (v : Int32) : Emits c (c.int v)
  | long (v : Int64) : Emits c (c.long v)
  | float (v : Single) : Emits c (c.float v)
  | double (v : Double) : Emits c (c.double v)
  | string (s : Text) : Emits c (c.string s)
  | const (t : Ty) (v : Value) : Emits c (c.const t v)
  | load (t : Ty) (slot : Int) : Emits c (c.load t slot)
  | store (t : Ty) (slot : Int) : Emits c (c.store t slot)
  | inc (slot by_ : Int) : Emits c (c.inc slot by_)
  | ret (t : Ty) : Emits c (c.ret t)
  | drop (t : Ty) : Emits c (c.drop t)
  | dup (t : Ty) (under : Int) : Emits c (c.dup t under)
  | type (o : Opcode) (name : Text) : (o.isJump = true → 0 < c.marks.size) → Emits c (c.type o name)
  | field {o : Opcode} {r : MemberRef} : c.field o r = .ok c' → Emits c c'
  | invoke {o : Opcode} {r : MemberRef} : c.invoke o r = .ok c' → Emits c c'

/-- Code that is written by calls, with two facts about the past: for each instruction whether it
could be reached when it was appended, and the labels that were bound where the code could not be
reached and stayed so. -/
inductive Ran : Code → List Bool → List Label → Prop
  | empty : Ran .empty [] []
  | newLabel : Ran c live lost → Ran c.newLabel.2 live lost
  | bind {l : Label} : Ran c live lost → l < c.marks.size →
    Ran (c.bind l) live (if (c.bind l).dead then l :: lost else lost)
  | emits : Ran c live lost → Emits c c' →
    Ran c' (live ++ List.replicate (c'.instrs.size - c.instrs.size) (!c.dead)) lost

/-- No instruction that could be reached when it was appended jumps to a label of a list. -/
def Avoids (c : Code) (live : List Bool) (lost : List Label) : Prop :=
  ∀ (k : Nat) (i : Instr) (l : Label), live[k]? = some true → c.instrs[k]? = some i →
    i.target? = some l → l ∉ lost

/-- An instruction with the operand of its shape, which may come next. -/
structure Wellformed (c : Code) (i : Instr) : Prop where
  parts : ∃ o p, i = .ofParts o p
  pop : 0 ≤ i.pop
  target : i.target? = some l → l < c.marks.size

section

variable {c c' : Code} {i : Instr} {l : Nat}

theorem pop_ofParts (h : 0 ≤ p.pop) : 0 ≤ (Instr.ofParts o p).pop := by
  unfold Instr.ofParts Instr.pop
  dsimp only
  cases o.shape <;> first | exact h | exact Int.natCast_nonneg _

theorem target?_ofParts (h : (Instr.ofParts o p).target? = some l) :
    o.isJump = true ∧ p.label = l := by
  unfold Instr.ofParts Instr.target? at h
  dsimp only at h
  cases hs : o.shape with
  | label =>
    rw [hs] at h
    refine ⟨?_, Option.some.inj h⟩
    unfold Opcode.shape at hs
    grind
  | _ =>
    rw [hs] at h
    cases h

theorem wellformed_ofParts (hpop : 0 ≤ p.pop)
    (hlabel : o.isJump = true → p.label < c.marks.size) : c.Wellformed (.ofParts o p) where
  parts := ⟨o, p, rfl⟩
  pop := pop_ofParts hpop
  target h := by
    obtain ⟨hjump, rfl⟩ := target?_ofParts h
    exact hlabel hjump

/-- An instruction of an opcode that is no jump. -/
theorem wellformed_of_eq (p : Instr.Parts) (hi : i = .ofParts o p)
    (hjump : o.isJump = false) (hpop : 0 ≤ p.pop) : c.Wellformed i := by
  rw [hi]
  exact wellformed_ofParts hpop fun h => by rw [hjump] at h; cases h

/-- A call leaves the code as it is, or appends an instruction. -/
def Appends (c c' : Code) : Prop := c' = c ∨ ∃ i, c.Wellformed i ∧ c' = c.emit i

theorem appends_op (h : o.isJump = false) : c.Appends (c.op o) :=
  .inr ⟨_, wellformed_of_eq {} rfl h (Int.le_refl _), rfl⟩

theorem isJump_of_shape {o : Opcode} (h : o.shape ≠ .label) : o.isJump = false := by
  rw [← Bool.not_eq_true]
  exact fun hjump => h (o.info_of_isJump hjump).2

theorem appends_plain {o : Opcode} (h : o.IsPlain) : c.Appends (c.op o) :=
  appends_op (isJump_of_shape (by rw [h.2]; nofun))

/-- A constant is loaded by one instruction. -/
theorem appends_loads (h : ∃ i, c' = c.emit i ∧ i.Loads q) : c.Appends c' := by
  obtain ⟨⟨op, x⟩, rfl, hi⟩ := h
  have hpop := hi.stack.1
  have hfits := hi.fits.operand
  refine .inr ⟨_, ⟨?_, hpop ▸ Int.le_refl 0, fun ht => ?_⟩, rfl⟩
  · rcases hi.operand with hx | ⟨n, hx⟩ | ⟨v, hx⟩ <;> cases hx
    · exact ⟨op, {}, by rw [Instr.ofParts, show op.shape = .plain from hfits]⟩
    · rcases hfits with ⟨rfl, -⟩ | ⟨rfl, -⟩ <;> exact ⟨_, { int := n }, rfl⟩
    · rcases hfits with ⟨rfl | rfl, -⟩ <;> exact ⟨_, { const := v }, rfl⟩
  · cases hi.stack.2.2.symm.trans ht

theorem appends_member {o : Opcode} (r : MemberRef) (pop push : Nat) (hshape : o.shape = .member) :
    c.Appends (c.emit ⟨o, .member r pop push⟩) := by
  refine .inr ⟨_, wellformed_of_eq (o := o) { ref := r, pop := pop, push := push } ?_
    (isJump_of_shape (by rw [hshape]; nofun)) (Int.natCast_nonneg _), rfl⟩
  rw [Instr.ofParts, hshape]

theorem appends_slot {o : Opcode} (slot : Int) (hshape : o.shape = .slot) :
    c.Appends (c.emit ⟨o, .slot slot⟩) := by
  refine .inr ⟨_, wellformed_of_eq (o := o) { int := slot } ?_
    (isJump_of_shape (by rw [hshape]; nofun)) (Int.le_refl _), rfl⟩
  rw [Instr.ofParts, hshape]

theorem Emits.appends (h : Emits c c') : c.Appends c' := by
  cases h with
  | emit o p hpop hlabel => exact .inr ⟨_, wellformed_ofParts hpop hlabel, rfl⟩
  | op o hlabel => exact .inr ⟨_, wellformed_ofParts (Int.le_refl _) hlabel, rfl⟩
  | jump o l hl => exact .inr ⟨_, wellformed_ofParts (Int.le_refl _) fun _ => hl, rfl⟩
  | int v => exact appends_loads (c.int_eq v)
  | long v => exact appends_loads (c.long_eq v)
  | float v => exact appends_loads (c.float_eq v)
  | double v => exact appends_loads (c.double_eq v)
  | string s => exact appends_loads (c.string_eq s)
  | const t v =>
    obtain ⟨i, q, heq, hi, -⟩ := c.const_eq t v
    exact appends_loads ⟨i, heq, hi⟩
  | load t slot => exact appends_slot slot (forType_info t).1.2
  | store t slot => exact appends_slot slot (forType_info t).2.2
  | inc slot by_ =>
    exact .inr ⟨_, wellformed_of_eq { int := slot, inc := by_ } rfl rfl (Int.le_refl _), rfl⟩
  | ret t =>
    obtain ⟨op, hop, heq⟩ := c.ret_eq t
    exact heq ▸ appends_plain hop
  | drop t =>
    rcases c.drop_eq t with heq | ⟨op, hop, heq⟩
    · exact .inl heq
    · exact heq ▸ appends_plain hop
  | dup t under =>
    obtain ⟨op, hop, heq⟩ := c.dup_eq t under
    exact heq ▸ appends_plain hop
  | type o name hlabel => exact .inr ⟨_, wellformed_ofParts (Int.le_refl _) hlabel, rfl⟩
  | field h =>
    obtain ⟨pop, push, hop, -, rfl⟩ := field_eq_ok h
    exact appends_member _ _ _ (by rcases hop with rfl | rfl | rfl | rfl <;> decide)
  | invoke h =>
    obtain ⟨r', pop, push, hop, -, -, rfl⟩ := invoke_eq_ok h
    exact appends_member _ _ _ (by rcases hop with rfl | rfl | rfl | rfl <;> decide)

end

/-! ### The invariant -/

/-- An instruction that could be reached when it was appended leaves a depth; `entry` holds the depths
with which such instructions were appended. -/
def Leaves (c : Code) (entry : Nat → Option Int) (k : Nat) (i : Instr) (d : Int) : Prop :=
  c.instrs[k]? = some i ∧ (entry k).map i.after = some d

/-- A depth is handed on to a place by an instruction before it. -/
def Handed (c : Code) (entry : Nat → Option Int) (n : Nat) (d : Int) : Prop :=
  ∃ k i, k < n ∧ c.Leaves entry k i d ∧
    (k + 1 = n ∧ i.op.isTerminal = false ∨ ∃ l, i.target? = some l ∧ c.labelIndex? l = some n)

/-- The depths that were followed are handed on from instruction to instruction, also in code with a
fault. -/
structure Traced (c : Code) (entry : Nat → Option Int) : Prop where
  start : c.depthAt entry 0 = some 0
  fall : c.instrs[k]? = some i → entry k = some d → i.op.isTerminal = false →
    c.depthAt entry (k + 1) = some (i.after d)
  origin : c.depthAt entry n = some d → n = 0 ∧ d = 0 ∨ c.Handed entry n d
  /-- The depth of a label that is not bound comes from a jump. -/
  source : c.labelIndex? l = none → c.mark? l = some d → ∃ k i, c.Leaves entry k i d ∧ i.target? = some l
  /-- A jump that finds what it takes gives its label a depth. -/
  marked : c.instrs[k]? = some i → entry k = some d → i.pop ≤ d → i.target? = some l →
    c.labelIndex? l = none → ∃ d, c.mark? l = some d

/-- The depths that were followed are those of ways through the code, and all of them. -/
structure Agrees (c : Code) (entry : Nat → Option Int) (lost : List Label) : Prop
    extends Flows c lost entry, Traced c entry where
  /-- A label that was bound where the code could be reached has the depth there; a depth that is
  negative, beyond the range of a word, lets no instruction follow. -/
  bound {m : Mark} : c.marks[l]? = some m → m.index = some n → l ∉ lost →
    0 ≤ m.depth ∨ ∃ d, c.pos = some d ∧ d < 0
  nonneg : 0 ≤ c.maxDepth
  le_max : c.instrs[k]? = some i → entry k = some d → i.after d ≤ c.maxDepth
  max : c.maxDepth = 0 ∨ ∃ k i d, c.instrs[k]? = some i ∧ entry k = some d ∧ c.maxDepth = i.after d

variable {c c' : Code} {i : Instr} {k n l : Nat} {d e : Int} {live : List Bool}
  {entry : Nat → Option Int} {lost : List Label}

theorem agrees_empty : Code.empty.Agrees (fun _ => none) [] where
  start := rfl
  origin {k d} h := by
    rcases depthAt_eq_some h with ⟨-, hd⟩ | ⟨rfl, hd⟩ <;> cases hd
    exact .inl ⟨rfl, rfl⟩
  source := nofun
  marked := nofun
  pop := nofun
  jump := nofun
  fall := nofun
  label := nofun
  bound := nofun
  nonneg := Int.le_refl _
  le_max := nofun
  max := .inl rfl

theorem Handed.mono (h : c.Handed entry n d)
    (hleaves : ∀ {k i}, c.Leaves entry k i d → c'.Leaves entry' k i d)
    (hindex : ∀ {l}, c.labelIndex? l = some n → c'.labelIndex? l = some n) : c'.Handed entry' n d := by
  obtain ⟨k, i, hlt, hk, hto⟩ := h
  exact ⟨k, i, hlt, hleaves hk, hto.imp_right (Exists.imp fun _ hl => ⟨hl.1, hindex hl.2⟩)⟩

/-- Depths that were followed are those of ways. -/
theorem Traced.reached (h : c.Traced entry) (hk : c.depthAt entry k = some d) : c.Reaches k d := by
  induction k using Nat.strongRecOn generalizing d with
  | ind k ih =>
    rcases h.origin hk with ⟨rfl, rfl⟩ | ⟨j, i, hlt, ⟨hi, hleft⟩, hto⟩
    · exact .start
    · obtain ⟨e, he, rfl⟩ := Option.map_eq_some_iff.1 hleft
      have hj := ih j hlt ((depthAt_of_lt (Array.getElem?_eq_some_iff.1 hi).1).trans he)
      rcases hto with ⟨rfl, ht⟩ | ⟨l, ht, hl⟩
      · exact hj.fall hi ht
      · exact hj.jump hi ht hl

theorem Traced.reaches_size (h : c.Traced entry) (hd : c.pos = some d) :
    c.Reaches c.instrs.size d :=
  h.reached ((depthAt_size c entry).trans hd)

theorem Traced.reaches_of_instrs (h : c.Traced entry) (hi : c.instrs[k]? = some i)
    (hd : entry k = some d) : c.Reaches k d :=
  h.reached ((depthAt_of_lt (Array.getElem?_eq_some_iff.1 hi).1).trans hd)

/-! ### Labels -/

/-- Labels may be made, and bound before the next instruction, which then gets the depth of a jump if
it could not be reached before. -/
theorem Traced.relabel (h : c.Traced entry) (hinstrs : c'.instrs = c.instrs)
    (hpos : ∀ {d}, c.pos = some d → c'.pos = some d)
    (hindex : ∀ {l n}, c.labelIndex? l = some n → c'.labelIndex? l = some n)
    (hjump : ∀ {d}, c'.pos = some d → c.pos = some d ∨ ∃ l, c.labelIndex? l = none ∧
      c.mark? l = some d ∧ c'.labelIndex? l = some c.instrs.size)
    (hmark : ∀ {l}, c'.labelIndex? l = none → c'.mark? l = c.mark? l) : c'.Traced entry := by
  have hleaves {k i d} (hk : c.Leaves entry k i d) : c'.Leaves entry k i d := ⟨hinstrs ▸ hk.1, hk.2⟩
  have hopen {l} (hl : c'.labelIndex? l = none) : c.labelIndex? l = none := by
    cases hn : c.labelIndex? l with
    | none => rfl
    | some n => cases hl.symm.trans (hindex hn)
  have horigin {n d} (hn : c.depthAt entry n = some d) : n = 0 ∧ d = 0 ∨ c'.Handed entry n d :=
    (h.origin hn).imp_right (·.mono hleaves hindex)
  refine ⟨depthAt_mono hinstrs hpos h.start, ?_, ?_, ?_, ?_⟩
  · rw [hinstrs]
    exact fun hi hd ht => depthAt_mono hinstrs hpos (h.fall hi hd ht)
  · intro n d hn
    rcases depthAt_eq_some hn with ⟨hlt, hd⟩ | ⟨rfl, hd⟩
    · exact horigin ((depthAt_of_lt (hinstrs ▸ hlt)).trans hd)
    · rw [hinstrs]
      rcases hjump hd with hd | ⟨l, hl, hmark, hn⟩
      · exact horigin ((depthAt_size c entry).trans hd)
      · obtain ⟨k, i, hk, ht⟩ := h.source hl hmark
        exact .inr ⟨k, i, (Array.getElem?_eq_some_iff.1 hk.1).1, hleaves hk, .inr ⟨l, ht, hn⟩⟩
  · intro l d hl hd
    obtain ⟨k, i, hk, ht⟩ := h.source (hopen hl) (hmark hl ▸ hd)
    exact ⟨k, i, hleaves hk, ht⟩
  · rw [hinstrs]
    exact fun hi hd hpop ht hl => hmark hl ▸ h.marked hi hd hpop ht (hopen hl)

theorem Traced.newLabel (h : c.Traced entry) : c.newLabel.2.Traced entry :=
  h.relabel rfl id (fun hn => (labelIndex?_newLabel c _).trans hn) .inl fun _ => mark?_newLabel _

theorem Agrees.relabel (h : c.Agrees entry lost) (hflows : c'.Flows lost' entry)
    (htraced : c'.Traced entry) (hinstrs : c'.instrs = c.instrs) (hmax : c'.maxDepth = c.maxDepth)
    (hbound : ∀ {l n} {m : Mark}, c'.marks[l]? = some m → m.index = some n → l ∉ lost' →
      0 ≤ m.depth ∨ ∃ d, c'.pos = some d ∧ d < 0) : c'.Agrees entry lost' := by
  refine ⟨hflows, htraced.origin, htraced.source, htraced.marked, hbound, hmax ▸ h.nonneg, ?_, ?_⟩
  · rw [hinstrs, hmax]
    exact h.le_max
  · rw [hinstrs, hmax]
    exact h.max

theorem Agrees.newLabel (h : c.Agrees entry lost) : c.newLabel.2.Agrees entry lost := by
  have hold : ∀ {l : Label} {m : Mark} {n}, c.newLabel.2.marks[l]? = some m → m.index = some n →
      c.marks[l]? = some m := by
    intro l m n hm hn
    rw [marks_newLabel] at hm
    split at hm
    · cases hm
      cases hn
    · exact hm
  have hflows : c.newLabel.2.Flows lost entry := by
    refine h.toFlows.mono rfl id (fun hd => (mark?_newLabel _).trans hd) fun hm hn hl hd => .inl ?_
    exact h.label (hold hm hn) hn hl ((mark?_newLabel _).symm.trans hd)
  exact h.relabel hflows h.toTraced.newLabel rfl rfl fun hm hn => h.bound (hold hm hn) hn

theorem labelIndex?_bind_of_eq_some (h : c.labelIndex? l = some n) :
    (c.bind k).labelIndex? l = some n := by
  rw [labelIndex?_bind, if_neg]
  · exact h
  · rintro ⟨rfl, -, hnone⟩
    cases hnone.symm.trans h

/-- A label that is bound stands before the next instruction. -/
theorem labelIndex?_bind_self (hl : l < c.marks.size) (h : c.labelIndex? l = none) :
    (c.bind l).labelIndex? l = some c.instrs.size := by
  rw [labelIndex?_bind, if_pos ⟨rfl, hl, h⟩]

theorem Traced.bind (h : c.Traced entry) (hl : l < c.marks.size) : (c.bind l).Traced entry := by
  by_cases hopen : ∃ m, c.marks[l]? = some m ∧ m.index = none
  · obtain ⟨m, hm, hindex⟩ := hopen
    obtain ⟨hmarks, hpos⟩ := bind_of_open hm hindex
    have hnone : c.labelIndex? l = none := by rw [labelIndex?, hm]; exact hindex
    refine h.relabel (instrs_bind c l) (fun hd => by rw [hpos, hd]; rfl) labelIndex?_bind_of_eq_some ?_ ?_
    · intro d hd
      rw [hpos, Option.or_eq_some_iff] at hd
      exact hd.imp_right fun hd => ⟨l, hnone, hd.2, labelIndex?_bind_self hl hnone⟩
    · intro k hk
      have hkl : l ≠ k := by
        rintro rfl
        cases hk.symm.trans (labelIndex?_bind_self hl hnone)
      exact mark?_congr (by rw [hmarks, Array.getElem?_setIfInBounds_ne hkl])
  · obtain ⟨hmarks, hpos⟩ := bind_of_not_open fun m hm hindex => hopen ⟨m, hm, hindex⟩
    exact h.relabel (instrs_bind c l) (hpos ▸ id) labelIndex?_bind_of_eq_some (fun hd => .inl (hpos ▸ hd))
      fun _ => mark?_congr (by rw [hmarks])

/-- A label may be bound. It is lost if that is where nothing leads to. -/
theorem Agrees.bind (h : c.Agrees entry lost) (hl : l < c.marks.size)
    (hfault : (c.bind l).fault = none) :
    (c.bind l).Agrees entry (if (c.bind l).dead then l :: lost else lost) := by
  have hm := Array.getElem?_eq_getElem hl
  generalize c.marks[l] = m at hm
  obtain ⟨-, hopen, hdepth⟩ := (fault_bind_iff hm).1 hfault
  obtain ⟨hmarks, hpos⟩ := bind_of_open hm hopen
  generalize hlost : (if (c.bind l).dead then l :: lost else lost) = lost'
  have hlost' : ∀ k, k ∉ lost' → k ∉ lost ∧ (k = l → (c.bind l).dead = false) := by
    intro k hk
    rw [← hlost] at hk
    split at hk
    · exact ⟨fun h => hk (.tail _ h), fun h => absurd (h ▸ .head _) hk⟩
    · next hdead => exact ⟨hk, fun _ => by simpa using hdead⟩
  have hself : (c.bind l).marks[l]? = some ⟨some c.instrs.size, c.pos.getD m.depth⟩ := by
    rw [hmarks, Array.getElem?_setIfInBounds_self_of_lt hl]
  have hne : ∀ {k : Nat}, k ≠ l → (c.bind l).marks[k]? = c.marks[k]? := by
    intro k hk
    rw [hmarks, Array.getElem?_setIfInBounds_ne (Ne.symm hk)]
  have hgoes : ∀ {d}, c.pos = some d → (c.bind l).pos = some d := fun hd => by rw [hpos, hd]; rfl
  have hflows : (c.bind l).Flows lost' entry := by
    refine h.toFlows.mono (instrs_bind c l) hgoes ?_ ?_
    · intro k d hk
      by_cases hkl : k = l
      · subst hkl
        obtain ⟨m', hm', rfl, hd⟩ := mark?_eq_some.1 hk
        cases hm.symm.trans hm'
        refine mark?_eq_some.2 ⟨_, hself, ?_, hd⟩
        cases hc : c.pos with
        | none => rfl
        | some e =>
          have := hdepth e hc
          change e = m.depth
          omega
      · rwa [mark?_congr (hne hkl)]
    · intro k mk n d hk hn hlk hd
      by_cases hkl : k = l
      · subst hkl
        rw [mark?_eq hself] at hd
        cases hself.symm.trans hk
        cases hn
        refine .inr ⟨rfl, ?_⟩
        rw [hpos, mark?_eq hm]
        cases hc : c.pos with
        | none =>
          rw [hc] at hd
          exact hd
        | some e =>
          rw [hc] at hd
          split at hd
          · exact hd
          · cases hd
      · rw [hne hkl] at hk
        rw [mark?_congr (hne hkl)] at hd
        exact .inl (h.label hk hn (hlost' k hlk).1 hd)
  refine h.relabel hflows (h.toTraced.bind hl) (instrs_bind c l) (bind_frame c l).2.1 ?_
  intro k n mk hk hn hlk
  by_cases hkl : k = l
  · subst hkl
    cases hself.symm.trans hk
    obtain ⟨d, hd⟩ : ∃ d, (c.bind k).pos = some d := ⟨_, pos_eq_some.2 ⟨(hlost' k hlk).2 rfl, rfl⟩⟩
    rw [hd]
    rw [hpos, Option.or_eq_some_iff] at hd
    rcases hd with hd | ⟨hnone, hd⟩
    · rw [hd]
      rcases Int.lt_or_le d 0 with hneg | hnonneg
      · exact .inr ⟨d, rfl, hneg⟩
      · exact .inl hnonneg
    · obtain ⟨m', hm', rfl, hnonneg⟩ := mark?_eq_some.1 hd
      cases hm.symm.trans hm'
      rw [hnone]
      exact .inl hnonneg
  · rw [hne hkl] at hk
    rcases h.bound hk hn (hlost' k hlk).1 with hd | ⟨d, hd, hneg⟩
    · exact .inl hd
    · exact .inr ⟨d, hgoes hd, hneg⟩

/-! ### Appended instructions -/

theorem push_of_isJump (o : Opcode) : o.isJump = true → o.shape = .label ∧ o.effect.2 = 0 :=
  Opcode.forall_of_lt (P := fun o => o.isJump = true → o.shape = .label ∧ o.effect.2 = 0)
    (by decide +kernel) o

/-- A jump only takes from the stack. -/
theorem Wellformed.push_eq_zero (hc : c.Wellformed i) (ht : i.target? = some l) : i.push = 0 := by
  obtain ⟨o, p, rfl⟩ := hc.parts
  obtain ⟨hshape, heffect⟩ := push_of_isJump o (target?_ofParts ht).1
  unfold Instr.ofParts Instr.push
  rw [hshape]
  exact congrArg Int.ofNat heffect

/-- The depth that a jump leaves is what it does not take. -/
theorem Traced.after_nonneg (h : c.Traced entry) (hc : c.Wellformed i) (ht : i.target? = some l)
    (hd : c.pos = some d) (hpop : i.pop ≤ d) : 0 ≤ i.after d := by
  have hlt : d < 0x8000000000000000 := by
    obtain ⟨e, -, rfl⟩ := (h.reaches_size hd).exists_path
    exact Int.bmod_lt (by decide)
  have hpush := hc.push_eq_zero ht
  have hnonneg := hc.pop
  unfold Instr.after
  rw [Word.wrap_eq_self (by omega) (by omega)]
  omega

theorem instrs_emit_of_eq_some (h : c.instrs[k]? = some j) :
    (c.emit i).instrs[k]? = some j := by
  rw [instrs_emit, Array.getElem?_push, if_neg (Nat.ne_of_lt (Array.getElem?_eq_some_iff.1 h).1)]
  exact h

@[simp] theorem instrs_emit_self (c : Code) (i : Instr) :
    (c.emit i).instrs[c.instrs.size]? = some i := by
  rw [instrs_emit, Array.getElem?_push, if_pos rfl]

theorem entries_of_instrs (h : c.instrs[k]? = some j) : c.entries entry k = entry k :=
  if_neg (Nat.ne_of_lt (Array.getElem?_eq_some_iff.1 h).1)

theorem Leaves.emit (h : c.Leaves entry k i d) (j : Instr) :
    (c.emit j).Leaves (c.entries entry) k i d :=
  ⟨instrs_emit_of_eq_some h.1, by rw [entries_of_instrs h.1, h.2]⟩

theorem leaves_emit (i : Instr) (entry : Nat → Option Int) (h : c.pos = some d) :
    (c.emit i).Leaves (c.entries entry) c.instrs.size i (i.after d) :=
  ⟨instrs_emit_self c i, by rw [entries, if_pos rfl, h]; rfl⟩

theorem Traced.emit (h : c.Traced entry) (hc : c.Wellformed i) :
    (c.emit i).Traced (c.entries entry) := by
  have hsize : (c.emit i).instrs.size = c.instrs.size + 1 := by rw [instrs_emit, Array.size_push]
  refine ⟨depthAt_emit h.start, ?_, ?_, ?_, ?_⟩
  · intro k j d hj hd ht
    rcases entries_cases hj hd with ⟨hj, hd⟩ | ⟨rfl, rfl, hd⟩
    · exact depthAt_emit (h.fall hj hd ht)
    · rw [← hsize, depthAt_size, pos_emit_eq, ht, hd]
      rfl
  · intro n d hn
    rcases depthAt_eq_some hn with ⟨hlt, hd⟩ | ⟨rfl, hd⟩
    · have hn : c.depthAt entry n = some d := by
        unfold entries at hd
        split at hd
        · next heq => rw [heq, depthAt_size, hd]
        · rw [depthAt_of_lt (by omega), hd]
      exact (h.origin hn).imp_right (·.mono (·.emit i) (labelIndex?_emit c i _).trans)
    · rw [pos_emit_eq] at hd
      split at hd
      · cases hd
      · next ht =>
        obtain ⟨e, he, rfl⟩ := Option.map_eq_some_iff.1 hd
        exact .inr ⟨_, i, by omega, leaves_emit i entry he, .inl ⟨hsize.symm, by simpa using ht⟩⟩
  · intro l d hl hd
    rw [labelIndex?_emit] at hl
    obtain ⟨m', hm', rfl, hnonneg⟩ := mark?_eq_some.1 hd
    rw [marks_emit] at hm'
    obtain ⟨m, hm, rfl⟩ := Option.map_eq_some_iff.1 hm'
    split at hnonneg
    · next hcond =>
      rw [if_pos hcond]
      exact ⟨_, i, leaves_emit i entry (pos_eq_some.2 ⟨hcond.1, rfl⟩), hcond.2.1⟩
    · next hcond =>
      rw [if_neg hcond]
      obtain ⟨k, j, hk, ht⟩ := h.source hl (mark?_eq_some.2 ⟨m, hm, rfl, hnonneg⟩)
      exact ⟨k, j, hk.emit i, ht⟩
  · intro k j d l hj hd hpop ht hl
    rw [labelIndex?_emit] at hl
    rcases entries_cases hj hd with ⟨hj, hd⟩ | ⟨rfl, rfl, hd⟩
    · obtain ⟨d, hd⟩ := h.marked hj hd hpop ht hl
      exact ⟨d, mark?_emit_of_eq_some hd⟩
    · have hafter := h.after_nonneg hc ht hd hpop
      obtain ⟨hdead, rfl⟩ := pos_eq_some.1 hd
      obtain ⟨m, hm⟩ : ∃ m, c.marks[l]? = some m := ⟨_, Array.getElem?_eq_getElem (hc.target ht)⟩
      by_cases hneg : m.depth < 0
      · refine ⟨_, mark?_eq_some.2 ⟨_, by rw [marks_emit, hm]; rfl, rfl, ?_⟩⟩
        dsimp only
        rw [if_pos ⟨hdead, ht, hneg⟩]
        exact hafter
      · exact ⟨_, mark?_emit_of_eq_some (mark?_eq_some.2 ⟨_, hm, rfl, Int.not_lt.1 hneg⟩)⟩

/-- An instruction goes on from the depth of the code, or cannot be reached. -/
theorem Agrees.emit (h : c.Agrees entry lost) (hc : c.Wellformed i) (hfault : (c.emit i).fault = none) :
    (c.emit i).Agrees (c.entries entry) lost := by
  have hself : c.entries entry c.instrs.size = c.pos := if_pos rfl
  have htraced := h.toTraced.emit hc
  have hready : ∀ {d}, c.pos = some d → i.pop ≤ d ∧ ∀ l m, i.target? = some l →
      c.marks[l]? = some m → m.depth < 0 ∨ m.depth = i.after d := by
    intro d hd
    obtain ⟨hdead, rfl⟩ := pos_eq_some.1 hd
    exact ((fault_emit_iff i hdead).1 hfault).2
  have hafter : ∀ {d l}, c.pos = some d → i.target? = some l → 0 ≤ i.after d :=
    fun hd ht => h.toTraced.after_nonneg hc ht hd (hready hd).1
  have hmax : c.maxDepth ≤ (c.emit i).maxDepth ∧
      ((c.emit i).maxDepth = c.maxDepth ∨ ∃ d, c.pos = some d ∧ (c.emit i).maxDepth = i.after d) ∧
      ∀ {d}, c.pos = some d → i.after d ≤ (c.emit i).maxDepth := by
    cases hdead : c.dead with
    | true =>
      rw [emit_of_dead i hdead, pos_eq_none.2 hdead]
      exact ⟨Int.le_refl _, .inl rfl, nofun⟩
    | false =>
      rw [(depth_emit i hdead).2, pos_eq_some.2 ⟨hdead, rfl⟩]
      refine ⟨Int.le_max_left .., ?_, by rintro _ ⟨⟩; exact Int.le_max_right ..⟩
      rcases Int.le_total c.maxDepth (i.after c.depth) with hle | hle
      · exact .inr ⟨_, rfl, Int.max_eq_right hle⟩
      · exact .inl (Int.max_eq_left hle)
  -- The code has gone on, so the labels with places have depths.
  have hbound : ∀ {l n d} {m : Mark}, c.pos = some d → c.marks[l]? = some m → m.index = some n →
      l ∉ lost → 0 ≤ m.depth := by
    intro l n d m hd hm hn hl
    rcases h.bound hm hn hl with hm | ⟨e, he, hneg⟩
    · exact hm
    · cases hd.symm.trans he
      have := (hready hd).1
      have := hc.pop
      omega
  refine ⟨h.toFlows.emit (fun hd => (hready hd).1) ?_ ?_, htraced.origin, htraced.source,
    htraced.marked, ?_, ?_, ?_, ?_⟩
  · intro d l hd ht
    have hm := Array.getElem?_eq_getElem (hc.target ht)
    refine mark?_eq_some.2 ⟨_, by rw [marks_emit, hm]; rfl, ?_, hafter hd ht⟩
    have hdepth := (hready hd).2 l _ ht hm
    obtain ⟨hdead, rfl⟩ := pos_eq_some.1 hd
    dsimp only
    split
    · rfl
    · next hcond => exact hdepth.resolve_left fun hneg => hcond ⟨hdead, ht, hneg⟩
  · intro d l m hd _ hm hneg hl
    cases hn : m.index with
    | none => rfl
    | some n =>
      have := hbound hd hm hn hl
      omega
  · intro l n m' hm' hn hl
    rw [marks_emit] at hm'
    obtain ⟨m, hm, rfl⟩ := Option.map_eq_some_iff.1 hm'
    have hindex : m.index = some n := by
      split at hn <;> exact hn
    cases hdead : c.dead with
    | true =>
      rw [if_neg fun hcond => nomatch hcond.1]
      refine .inl ((h.bound hm hindex hl).resolve_right ?_)
      rintro ⟨d, hd, -⟩
      cases (pos_eq_none.2 hdead).symm.trans hd
    | false =>
      have hnonneg := hbound (pos_eq_some.2 ⟨hdead, rfl⟩) hm hindex hl
      rw [if_neg fun hcond => by omega]
      exact .inl hnonneg
  · exact Int.le_trans h.nonneg hmax.1
  · intro k j d hj hd
    rcases entries_cases hj hd with ⟨hj, hd⟩ | ⟨-, rfl, hd⟩
    · exact Int.le_trans (h.le_max hj hd) hmax.1
    · exact hmax.2.2 hd
  · rcases hmax.2.1 with heq | ⟨d, hd, heq⟩
    · rw [heq]
      rcases h.max with hzero | ⟨k, j, d, hj, hd, hmax⟩
      · exact .inl hzero
      · exact .inr ⟨k, j, d, instrs_emit_of_eq_some hj, (entries_of_instrs hj).trans hd, hmax⟩
    · exact .inr ⟨_, i, d, instrs_emit_self c i, hself.trans hd, heq⟩

/-! ### Runs -/

/-- Which instructions could be reached when they were appended. -/
def Followed (c : Code) (entry : Nat → Option Int) (live : List Bool) : Prop :=
  live.length = c.instrs.size ∧
    ∀ k, k < c.instrs.size → (live[k]? = some true ↔ (entry k).isSome = true)

theorem Followed.emit (h : c.Followed entry live) (i : Instr) :
    (c.emit i).Followed (c.entries entry)
      (live ++ List.replicate ((c.emit i).instrs.size - c.instrs.size) (!c.dead)) := by
  obtain ⟨hlength, hlive⟩ := h
  have hsize : (c.emit i).instrs.size = c.instrs.size + 1 := by rw [instrs_emit, Array.size_push]
  have hone : c.instrs.size + 1 - c.instrs.size = 1 := by omega
  refine ⟨by rw [hsize, hone]; simp [hlength], fun k hk => ?_⟩
  rw [hsize] at hk ⊢
  rw [hone, List.replicate_one, entries]
  by_cases hlt : k < c.instrs.size
  · rw [List.getElem?_append_left (by omega), if_neg (by omega)]
    exact hlive k hlt
  · obtain rfl : k = c.instrs.size := by omega
    rw [List.getElem?_append_right (by omega), if_pos rfl, hlength, Nat.sub_self]
    unfold pos
    cases c.dead <;> simp

/-- What a whole run keeps, and what it keeps besides as long as it has no fault. -/
theorem Ran.traced (h : c.Ran live lost) :
    ∃ entry, c.Traced entry ∧ c.Followed entry live ∧ (c.fault = none → c.Agrees entry lost) := by
  induction h with
  | empty => exact ⟨_, agrees_empty.toTraced, ⟨rfl, nofun⟩, fun _ => agrees_empty⟩
  | newLabel _ ih =>
    obtain ⟨entry, h, hlive, hagrees⟩ := ih
    exact ⟨entry, h.newLabel, hlive, fun hfault => (hagrees hfault).newLabel⟩
  | bind _ hl ih =>
    obtain ⟨entry, h, hlive, hagrees⟩ := ih
    refine ⟨entry, h.bind hl, by unfold Followed; rwa [instrs_bind], fun hfault => ?_⟩
    exact (hagrees ((fault_bind_iff (Array.getElem?_eq_getElem hl)).1 hfault).1).bind hl hfault
  | emits _ hc ih =>
    obtain ⟨entry, h, hlive, hagrees⟩ := ih
    rcases hc.appends with rfl | ⟨i, hi, rfl⟩
    · rw [Nat.sub_self, List.replicate_zero, List.append_nil]
      exact ⟨entry, h, hlive, hagrees⟩
    · exact ⟨_, h.emit hi, hlive.emit i, fun hfault => (hagrees (fault_of_emit hfault)).emit hi hfault⟩

theorem Ran.built (h : c.Ran live lost) : c.Built := by
  induction h with
  | empty => exact .empty
  | newLabel _ ih => exact ih.newLabel
  | bind _ _ ih => exact ih.bind _
  | emits _ hc ih =>
    rcases hc.appends with rfl | ⟨i, hi, rfl⟩
    · exact ih
    · obtain ⟨o, p, rfl⟩ := hi.parts
      exact ih.emit o p

/-! ### The finished code -/

theorem Agrees.isGreatest (h : c.Agrees entry lost)
    (hall : ∀ {k d}, c.Reaches k d → c.depthAt entry k = some d) (hc : c.Coherent) (hb : c.Built) :
    IsGreatest c.depthsAfter c.maxDepth := by
  have hupper : ∀ x ∈ c.depthsAfter, x ≤ c.maxDepth := by
    rintro x ⟨k, d, i, hk, hi, rfl⟩
    rw [← after_wrap]
    have hat := hall hk.reaches
    rw [depthAt_of_lt (hc.inside hk)] at hat
    exact h.le_max hi hat
  refine ⟨?_, hupper⟩
  rcases h.max with hzero | ⟨k, i, d, hi, hd, hmax⟩
  · obtain ⟨x, hx, hnonneg⟩ := hc.exists_nonneg hb
    have hle := hupper x hx
    rwa [show c.maxDepth = x by omega]
  · rw [hmax]
    exact (h.reaches_of_instrs hi hd).mem_depthsAfter hi

/-- Code is written without a fault, its jumps lead to labels that are bound, and no instruction that
could be reached jumps to a label that was lost. Then the instructions that could be reached when they
were appended are those that ways through the code lead to; the analysis succeeds just where the end
of the code cannot be reached, and it then gives the greatest depth that was followed. -/
theorem Ran.analyze_agrees (h : c.Ran live lost) (hfault : c.fault = none) (hne : c.instrs.size ≠ 0)
    (hb : c.JumpsBound) (hlost : c.Avoids live lost) :
    (∀ k, live[k]? = some true ↔ k < c.instrs.size ∧ ∃ d, c.Path k d) ∧
    ((∃ m, c.analyze = .ok m) ↔ c.dead = true) ∧
    ∀ m, c.analyze = .ok m → m = c.maxDepth := by
  obtain ⟨entry, -, hlive, hagrees⟩ := h.traced
  have hc := hagrees hfault
  have hall : ∀ {k d}, c.Reaches k d → c.depthAt entry k = some d := by
    refine hc.toFlows.depthAt_of_reaches fun hd hi ht => hlost _ _ _ ?_ hi ht
    exact (hlive.2 _ (Array.getElem?_eq_some_iff.1 hi).1).2 (by rw [hd]; rfl)
  obtain ⟨r, hr, hanalyze⟩ := h.built.analyze_eq hne hb
  have hiff : ∀ m, c.analyze = .ok m ↔ c.Coherent ∧ IsGreatest c.depthsAfter m := by
    rw [hanalyze]
    exact hr.ok_iff h.built hne hb
  have hdead : ∀ {m}, c.analyze = .ok m → c.dead = true := by
    intro m hm
    by_contra hd
    -- The end can be reached, which is no place inside the code.
    have hat : c.pos = some c.depth := pos_eq_some.2 ⟨by simpa using hd, rfl⟩
    obtain ⟨e, hpath, -⟩ := (hc.reaches_size hat).exists_path
    exact Nat.lt_irrefl _ (((hiff m).1 hm).1.inside hpath)
  refine ⟨fun k => ⟨fun hk => ?_, ?_⟩, ⟨?_, fun hd => ?_⟩, fun m hm => ?_⟩
  · have hlt : k < c.instrs.size := hlive.1 ▸ (List.getElem?_eq_some_iff.1 hk).1
    obtain ⟨d, hd⟩ := Option.isSome_iff_exists.1 ((hlive.2 k hlt).1 hk)
    obtain ⟨e, hpath, -⟩ := (hc.reached ((depthAt_of_lt hlt).trans hd)).exists_path
    exact ⟨hlt, e, hpath⟩
  · rintro ⟨hlt, d, hpath⟩
    have hat := hall hpath.reaches
    rw [depthAt_of_lt hlt] at hat
    exact (hlive.2 k hlt).2 (by rw [hat]; rfl)
  · rintro ⟨m, hm⟩
    exact hdead hm
  · have hcoherent := hc.toFlows.coherent hall hd
    exact ⟨_, (hiff _).2 ⟨hcoherent, hc.isGreatest hall hcoherent h.built⟩⟩
  · obtain ⟨hcoherent, hmax⟩ := (hiff m).1 hm
    exact hmax.unique (hc.isGreatest hall hcoherent h.built)

/-- A loop that counts down, with code behind it that nothing leads to. -/
def sampleDetour : Code :=
  ((((((((((Code.empty.newLabel.2.newLabel.2.newLabel.2.bind 0).load .int 0).jump .ifeq 1).inc 0
    (-1)).jump .goto 0).bind 2).inc 0 1).jump .goto 2).bind 1).ret .void)

theorem ran_sampleDetour :
    sampleDetour.Ran [true, true, true, true, false, false, true] [2] :=
  .emits (.bind (.emits (.emits (.bind (.emits (.emits (.emits (.emits (.bind (.newLabel (.newLabel
    (.newLabel .empty))) (by decide)) (.load .int 0)) (.jump .ifeq 1 (by decide))) (.inc 0 (-1)))
    (.jump .goto 0 (by decide))) (by decide)) (.inc 0 1)) (.jump .goto 2 (by decide))) (by decide))
    (.ret .void)

theorem Ran.analyze_agrees_sampleDetour :
    sampleDetour.Ran [true, true, true, true, false, false, true] [2] ∧ sampleDetour.fault = none ∧
      sampleDetour.JumpsBound ∧
      sampleDetour.Avoids [true, true, true, true, false, false, true] [2] ∧
      (∃ d, sampleDetour.Path 6 d) ∧ (¬ ∃ d, sampleDetour.Path 4 d) ∧ sampleDetour.analyze = .ok 1 := by
  have hinstrs : sampleDetour.instrs.toList =
      [⟨.iload, .slot 0⟩, ⟨.ifeq, .label 1⟩, ⟨.iinc, .increment 0 (-1)⟩, ⟨.goto, .label 0⟩,
        ⟨.iinc, .increment 0 1⟩, ⟨.goto, .label 2⟩, ⟨.returnVoid, .plain⟩] := by decide
  have hfault : sampleDetour.fault = none := by decide
  have hbound : sampleDetour.JumpsBound := by
    intro i hi l ht
    rw [hinstrs] at hi
    simp only [List.mem_cons, List.not_mem_nil, or_false] at hi
    rcases hi with rfl | rfl | rfl | rfl | rfl | rfl | rfl <;> cases ht <;> rfl
  have havoids : sampleDetour.Avoids [true, true, true, true, false, false, true] [2] := by
    intro k i l hk hi ht hl
    cases List.mem_singleton.1 hl
    rw [← Array.getElem?_toList, hinstrs] at hi
    rcases k with _ | _ | _ | _ | _ | _ | _ | k <;> cases hi <;> cases hk <;> cases ht
  obtain ⟨hlive, hsucceeds, hmax⟩ :=
    Ran.analyze_agrees ran_sampleDetour hfault (by decide) hbound havoids
  obtain ⟨m, hm⟩ := hsucceeds.2 (by decide)
  refine ⟨ran_sampleDetour, hfault, hbound, havoids, ((hlive 6).1 rfl).2, fun h => ?_, ?_⟩
  · have hfour := (hlive 4).2 ⟨by decide, h⟩
    cases hfour
  · rw [hm, hmax m hm]
    rfl

end Code

end Classwright
