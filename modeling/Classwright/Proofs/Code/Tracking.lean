import Classwright.Proofs.Code.Emitted

/-!
Code whose depths are followed right (`Code.Sound`): every instruction that can be reached has a
depth before it, and the depths agree along jumps and falls. Instructions, labels and their places
keep code sound as long as each of them may come next (`Code.Ready`), and all ways through sound code,
once it is finished, are coherent (`Code.Sound.coherent`).

`Code.Step` says what a stretch of code does to the labels around it: those from before keep their
places, and get depths only where the stretch may jump to.
-/

namespace Classwright

/-- Opcodes that end a method. -/
def Opcode.isReturn (op : Opcode) : Bool := between ireturn returnVoid op

namespace Code

/-- A label that has no place yet. -/
def IsOpen (c : Code) (l : Label) : Prop := ∃ m, c.marks[l]? = some m ∧ m.index = none

/-- The depth before an instruction, or where the next one goes; `entry` holds the depths before
those that are there. -/
def depthAt (c : Code) (entry : Nat → Option Int) (k : Nat) : Option Int :=
  if k < c.instrs.size then entry k else if k = c.instrs.size then c.pos else none

/-- Depths before instructions are those that ways through the code give: they agree along jumps and
falls. Labels that are lost may have other depths than their places. -/
structure Flows (c : Code) (lost : List Label) (entry : Nat → Option Int) : Prop where
  start : c.depthAt entry 0 = some 0
  pop : c.instrs[k]? = some i → entry k = some d → i.pop ≤ d
  jump : c.instrs[k]? = some i → entry k = some d → i.target? = some l →
    c.mark? l = some (i.after d)
  fall : c.instrs[k]? = some i → entry k = some d → i.op.isTerminal = false →
    c.depthAt entry (k + 1) = some (i.after d)
  label {m : Mark} : c.marks[l]? = some m → m.index = some n → l ∉ lost → c.mark? l = some d →
    c.depthAt entry n = some d

/-- Depths before instructions are those that the code is run with. A return leaves `base` slots
below its operand. -/
structure Tracks (base : Int) (c : Code) (entry : Nat → Option Int) : Prop extends Flows c [] entry where
  ret : c.instrs[k]? = some i → entry k = some d → i.op.isReturn = true → d = base + i.pop

/-- Code without a fault, whose depths are those that it is run with. Without a `base` nothing is
asked of the instructions that are there. -/
structure Sound (base : Option Int) (c : Code) : Prop where
  fault : c.fault = none
  pos_nonneg : c.pos = some d → 0 ≤ d
  depth {l : Label} {m : Mark} : c.marks[l]? = some m → m.depth = -1 ∨ 0 ≤ m.depth
  tracks : base = some k → ∃ entry, c.Tracks k entry

/-- A jump to the label may leave a depth: the label is not bound and has been given no other depth,
or it is bound where that is the depth. -/
def Takes (c : Code) (l : Label) (d : Int) : Prop :=
  ∃ m, c.marks[l]? = some m ∧ (m.index = none ∧ m.depth = -1 ∨ m.depth = d)

/-- Depths stay below the range of a word. -/
def limit : Int := 0x8000000000000000

/-- An instruction may be reached with a depth. -/
structure Ready (base : Option Int) (c : Code) (i : Instr) (d : Int) : Prop where
  pop : i.pop ≤ d
  nonneg : 0 ≤ d + i.push - i.pop
  lt : d + i.push - i.pop < limit
  ret : base = some k → i.op.isReturn = true → d = k + i.pop
  target : i.target? = some l → c.Takes l (d + i.push - i.pop)

/-! ### Depths that are followed -/

section
variable {c c' : Code} {i : Instr} {entry : Nat → Option Int} {lost : List Label} {k : Nat} {d : Int}

/-- The depths before instructions, with that of one more. -/
def entries (c : Code) (entry : Nat → Option Int) (k : Nat) : Option Int :=
  if k = c.instrs.size then c.pos else entry k

theorem depthAt_size (c : Code) (entry : Nat → Option Int) : c.depthAt entry c.instrs.size = c.pos := by
  rw [depthAt, if_neg (Nat.lt_irrefl _), if_pos rfl]

theorem depthAt_of_lt (h : k < c.instrs.size) : c.depthAt entry k = entry k := if_pos h

/-- A place with a depth is an instruction, or the next one. -/
theorem depthAt_eq_some (h : c.depthAt entry k = some d) :
    k < c.instrs.size ∧ entry k = some d ∨ k = c.instrs.size ∧ c.pos = some d := by
  unfold depthAt at h
  split at h
  · exact .inl ⟨‹_›, h⟩
  · split at h
    · exact .inr ⟨‹_›, h⟩
    · cases h

theorem depthAt_emit (h : c.depthAt entry k = some d) :
    (c.emit i).depthAt (c.entries entry) k = some d := by
  rw [depthAt_of_lt (by rcases depthAt_eq_some h with h | h <;> simp <;> omega), entries]
  rcases depthAt_eq_some h with ⟨hlt, hd⟩ | ⟨heq, hd⟩
  · rw [if_neg (Nat.ne_of_lt hlt), hd]
  · rw [if_pos heq, hd]

/-- An instruction is an old one, or the last one with the depth at its place. -/
theorem entries_cases (hj : (c.emit i).instrs[k]? = some j)
    (hd : c.entries entry k = some d) :
    c.instrs[k]? = some j ∧ entry k = some d ∨ k = c.instrs.size ∧ j = i ∧ c.pos = some d := by
  rw [instrs_emit, Array.getElem?_push] at hj
  unfold entries at hd
  split at hj
  · cases hj
    exact .inr ⟨‹_›, rfl, by rwa [if_pos ‹_›] at hd⟩
  · exact .inl ⟨hj, by rwa [if_neg ‹_›] at hd⟩

theorem mark?_emit_of_eq_some (h : c.mark? l = some d) : (c.emit i).mark? l = some d := by
  obtain ⟨m, hm, rfl, hd⟩ := mark?_eq_some.1 h
  refine mark?_eq_some.2 ⟨_, by rw [marks_emit, hm]; rfl, ?_, hd⟩
  dsimp only
  rw [if_neg fun h => by omega]

/-- Depths go on to agree after an instruction that finds what it takes, and gives depths to labels
without a place only. -/
theorem Flows.emit (h : c.Flows lost entry) (hpop : ∀ {d}, c.pos = some d → i.pop ≤ d)
    (hjump : ∀ {d l}, c.pos = some d → i.target? = some l → (c.emit i).mark? l = some (i.after d))
    (hopen : ∀ {d l m}, c.pos = some d → i.target? = some l → c.marks[l]? = some m → m.depth < 0 →
      l ∉ lost → m.index = none) : (c.emit i).Flows lost (c.entries entry) := by
  refine ⟨depthAt_emit h.start, ?_, ?_, ?_, ?_⟩
  · intro k j d hj hd
    rcases entries_cases hj hd with ⟨hj, hd⟩ | ⟨-, rfl, hd⟩
    · exact h.pop hj hd
    · exact hpop hd
  · intro k j d l hj hd ht
    rcases entries_cases hj hd with ⟨hj, hd⟩ | ⟨-, rfl, hd⟩
    · exact mark?_emit_of_eq_some (h.jump hj hd ht)
    · exact hjump hd ht
  · intro k j d hj hd ht
    rcases entries_cases hj hd with ⟨hj, hd⟩ | ⟨rfl, rfl, hd⟩
    · exact depthAt_emit (h.fall hj hd ht)
    · have hsize : c.instrs.size + 1 = (c.emit j).instrs.size := by simp
      rw [hsize, depthAt_size, pos_emit_eq, ht, hd]
      rfl
  · intro l n d m' hm' hn hl hd
    obtain ⟨_, hm'', rfl, hnonneg⟩ := mark?_eq_some.1 hd
    cases hm'.symm.trans hm''
    rw [marks_emit] at hm'
    obtain ⟨m, hm, rfl⟩ := Option.map_eq_some_iff.1 hm'
    split at hn
    · next hcond =>
      obtain ⟨hdead, ht, hneg⟩ := hcond
      cases (hopen (pos_eq_some.2 ⟨hdead, rfl⟩) ht hm hneg hl).symm.trans hn
    · next hcond =>
      rw [if_neg hcond] at hnonneg ⊢
      exact depthAt_emit (h.label hm hn hl (mark?_eq_some.2 ⟨m, hm, rfl, hnonneg⟩))

theorem depthAt_mono (hinstrs : c'.instrs = c.instrs) (hpos : ∀ {d}, c.pos = some d → c'.pos = some d)
    (h : c.depthAt entry k = some d) : c'.depthAt entry k = some d := by
  rcases depthAt_eq_some h with ⟨hlt, hd⟩ | ⟨rfl, hd⟩
  · rw [depthAt_of_lt (hinstrs ▸ hlt), hd]
  · rw [← hinstrs, depthAt_size, hpos hd]

/-- Depths go on to agree when labels are added, bound or given depths. -/
theorem Flows.mono (h : c.Flows lost entry) (hinstrs : c'.instrs = c.instrs)
    (hpos : ∀ {d}, c.pos = some d → c'.pos = some d)
    (hmark : ∀ {l d}, c.mark? l = some d → c'.mark? l = some d)
    (hlabel : ∀ {l m n d}, c'.marks[l]? = some m → m.index = some n → l ∉ lost' → c'.mark? l = some d →
      c.depthAt entry n = some d ∨ n = c.instrs.size ∧ c'.pos = some d) : c'.Flows lost' entry := by
  refine ⟨depthAt_mono hinstrs hpos h.start, ?_, ?_, ?_, ?_⟩
  · rw [hinstrs]
    exact h.pop
  · rw [hinstrs]
    exact fun hi hd ht => hmark (h.jump hi hd ht)
  · rw [hinstrs]
    exact fun hi hd ht => depthAt_mono hinstrs hpos (h.fall hi hd ht)
  · intro l n d m hm hn hl hd
    rcases hlabel hm hn hl hd with hat | ⟨rfl, hd⟩
    · exact depthAt_mono hinstrs hpos hat
    · rw [← hinstrs, depthAt_size, hd]

end

/-! ### Instructions that may come next -/

theorem takes_of_mark? {c : Code} (h : c.mark? l = some d) : c.Takes l d := by
  obtain ⟨m, hm, rfl, -⟩ := mark?_eq_some.1 h
  exact ⟨m, hm, .inr rfl⟩

theorem Takes.mark {c : Code} (h : c.Takes l d) :
    ∃ m, c.marks[l]? = some m ∧ (m.depth = -1 ∨ m.depth = d) := by
  obtain ⟨m, hm, h⟩ := h
  exact ⟨m, hm, h.imp And.right id⟩

theorem Ready.after_eq {c : Code} (h : c.Ready base i d) :
    i.after d = d + i.push - i.pop :=
  Word.wrap_eq_self (by have := h.nonneg; omega) h.lt

section
variable {base : Option Int} {c : Code} {i : Instr} (hi : ∀ d, c.pos = some d → c.Ready base i d)
include hi

theorem pos_emit :
    (c.emit i).pos = if i.op.isTerminal then none else c.pos.map (· + (i.push - i.pop)) := by
  rw [pos_emit_eq]
  cases hc : c.pos with
  | none => rfl
  | some d => rw [Option.map_some, Option.map_some, (hi d hc).after_eq, Int.add_sub_assoc]

theorem fault_emit (h : c.fault = none) : (c.emit i).fault = none := by
  cases hdead : c.dead with
  | true => rwa [emit_of_dead i hdead]
  | false =>
    have hready := hi _ (pos_eq_some.2 ⟨hdead, rfl⟩)
    refine (fault_emit_iff i hdead).2 ⟨h, hready.pop, fun l m ht hm => ?_⟩
    obtain ⟨m', hm', hd⟩ := (hready.target ht).mark
    cases hm.symm.trans hm'
    rw [hready.after_eq]
    omega

/-- An instruction gives a depth to the label that it jumps to, and changes no other label. -/
theorem mark_emit {l : Label} (hm : c.marks[l]? = some m) :
    ∃ m', (c.emit i).marks[l]? = some m' ∧ m'.index = m.index ∧ (m'.depth = m.depth ∨
      m.depth = -1 ∧ i.target? = some l ∧ ∃ d, c.pos = some d ∧ m'.depth = d + i.push - i.pop) := by
  rw [marks_emit, hm, Option.map_some]
  refine ⟨_, rfl, ?_⟩
  split
  · next hcond =>
    obtain ⟨hdead, ht, hneg⟩ := hcond
    have hpos : c.pos = some c.depth := pos_eq_some.2 ⟨hdead, rfl⟩
    obtain ⟨m', hm', hd⟩ := ((hi _ hpos).target ht).mark
    cases hm.symm.trans hm'
    have hnonneg := (hi _ hpos).nonneg
    exact ⟨rfl, .inr ⟨by omega, ht, c.depth, hpos, (hi _ hpos).after_eq⟩⟩
  · exact ⟨rfl, .inl rfl⟩

/-- A jump that can be reached gives its label the depth that it leaves. -/
theorem mark?_emit {d : Int} (hc : c.pos = some d) (ht : i.target? = some l) :
    (c.emit i).mark? l = some (d + i.push - i.pop) := by
  have hready := hi d hc
  obtain ⟨m, hm, hd⟩ := (hready.target ht).mark
  obtain ⟨hdead, rfl⟩ := pos_eq_some.1 hc
  refine mark?_eq_some.2 ⟨_, by rw [marks_emit, hm]; rfl, ?_, hready.nonneg⟩
  dsimp only
  split
  · exact hready.after_eq
  · next hcond =>
    have hnonneg : ¬ m.depth < 0 := fun hneg => hcond ⟨hdead, ht, hneg⟩
    omega

/-- Depths go on to be those that the code is run with after an instruction that may come next. -/
theorem Tracks.emit (h : c.Tracks n entry) (hn : base = some n) :
    (c.emit i).Tracks n (c.entries entry) := by
  refine ⟨h.toFlows.emit (fun hd => (hi _ hd).pop) (fun hd ht => ?_) ?_, ?_⟩
  · rw [mark?_emit hi hd ht, (hi _ hd).after_eq]
  · -- a label that is bound and has no depth takes no jump
    intro d l m hd ht hm hneg _
    obtain ⟨m', hm', ⟨hnone, -⟩ | hd'⟩ := (hi d hd).target ht
    · cases hm.symm.trans hm'
      exact hnone
    · cases hm.symm.trans hm'
      have := (hi d hd).nonneg
      omega
  · intro k j d hj hd hret
    rcases entries_cases hj hd with ⟨hj, hd⟩ | ⟨-, rfl, hd⟩
    · exact h.ret hj hd hret
    · exact (hi d hd).ret hn hret

theorem Sound.emit (h : c.Sound base) : (c.emit i).Sound base := by
  refine ⟨fault_emit hi h.fault, ?_, ?_, ?_⟩
  · intro d hd
    rw [pos_emit hi] at hd
    split at hd
    · cases hd
    · obtain ⟨e, he, rfl⟩ := Option.map_eq_some_iff.1 hd
      have := (hi e he).nonneg
      omega
  · intro l m' hm'
    have hl : l < c.marks.size := size_marks_emit c _ ▸ (Array.getElem?_eq_some_iff.1 hm').1
    obtain ⟨m'', hm'', -, hdepth⟩ := mark_emit hi (Array.getElem?_eq_getElem hl)
    cases hm'.symm.trans hm''
    rcases hdepth with hdepth | ⟨-, -, e, he, hdepth⟩
    · rw [hdepth]
      exact h.depth (Array.getElem?_eq_getElem hl)
    · have := (hi e he).nonneg
      exact .inr (by omega)
  · intro n hn
    obtain ⟨entry, htracks⟩ := h.tracks hn
    exact ⟨_, htracks.emit hi hn⟩

end

/-! ### Labels -/

section
variable {base : Option Int} {c : Code}

theorem Sound.newLabel (h : c.Sound base) : c.newLabel.2.Sound base := by
  refine ⟨h.fault, h.pos_nonneg, ?_, ?_⟩
  · intro l m hm
    rw [marks_newLabel] at hm
    split at hm
    · cases hm
      exact .inl rfl
    · exact h.depth hm
  · intro k hk
    obtain ⟨entry, htracks⟩ := h.tracks hk
    refine ⟨entry, htracks.toFlows.mono rfl id (fun hd => by rwa [mark?_newLabel]) ?_, htracks.ret⟩
    intro l m n d hm hn hl hd
    rw [marks_newLabel] at hm
    rw [mark?_newLabel] at hd
    split at hm
    · cases hm
      cases hn
    · exact .inl (htracks.label hm hn hl hd)

/-- A label may be bound: it is not yet, and jumps to it agree with the depth before it. -/
def Binds (c : Code) (l : Label) : Prop :=
  ∃ m, c.marks[l]? = some m ∧ m.index = none ∧ ∀ d, c.pos = some d → m.depth = -1 ∨ m.depth = d

variable {l : Label} (hl : c.Binds l)
include hl

theorem pos_bind : (c.bind l).pos = c.pos.or (c.mark? l) := by
  obtain ⟨m, hm, hindex, -⟩ := hl
  exact (bind_of_open hm hindex).2

theorem fault_bind (h : c.fault = none) : (c.bind l).fault = none := by
  obtain ⟨m, hm, hindex, hd⟩ := hl
  exact (fault_bind_iff hm).2 ⟨h, hindex, fun d hpos => (hd d hpos).imp_left fun h => by omega⟩

theorem marks_bind_of_ne (hk : k ≠ l) : (c.bind l).marks[k]? = c.marks[k]? := by
  obtain ⟨m, hm, hindex, -⟩ := hl
  rw [(bind_of_open hm hindex).1, Array.getElem?_setIfInBounds, if_neg (Ne.symm hk)]

/-- A label that is bound has the depth at its place. -/
theorem Sound.mark_bind (h : c.Sound base) : ∃ m, (c.bind l).marks[l]? = some m ∧
    m.index = some c.instrs.size ∧ (m.depth = -1 ∨ 0 ≤ m.depth) ∧
    (c.bind l).mark? l = (c.bind l).pos := by
  rw [pos_bind hl]
  obtain ⟨m, hm, hindex, -⟩ := hl
  have hsome : (c.bind l).marks[l]? = some ⟨some c.instrs.size, c.pos.getD m.depth⟩ := by
    rw [(bind_of_open hm hindex).1, Array.getElem?_setIfInBounds, if_pos rfl,
      if_pos (Array.getElem?_eq_some_iff.1 hm).1]
  refine ⟨_, hsome, rfl, ?_⟩
  rw [mark?_eq hsome, mark?_eq hm]
  cases hc : c.pos with
  | none => exact ⟨(h.depth hm : m.depth = -1 ∨ 0 ≤ m.depth), rfl⟩
  | some d =>
    have hpos := h.pos_nonneg hc
    exact ⟨.inr hpos, if_pos hpos⟩

theorem Sound.mark?_bind_of_eq_some (h : c.Sound base)
    (hk : c.mark? k = some d) : (c.bind l).mark? k = some d := by
  by_cases hkl : k = l
  · subst hkl
    obtain ⟨-, -, -, -, hmark⟩ := h.mark_bind hl
    rw [hmark, pos_bind hl]
    cases hc : c.pos with
    | none => exact hk
    | some e =>
      obtain ⟨m, hm, -, hd⟩ := hl
      obtain ⟨m', hm', rfl, hpos⟩ := mark?_eq_some.1 hk
      cases hm.symm.trans hm'
      rcases hd e hc with h | h
      · omega
      · exact congrArg some h.symm
  · rw [mark?_congr (marks_bind_of_ne hl hkl), hk]

theorem Sound.bind (h : c.Sound base) : (c.bind l).Sound base := by
  obtain ⟨m₀, hm₀, hindex, hdepth, hmark⟩ := h.mark_bind hl
  refine ⟨fault_bind hl h.fault, ?_, ?_, ?_⟩
  · intro d hd
    rw [← hmark] at hd
    obtain ⟨-, -, -, hpos⟩ := mark?_eq_some.1 hd
    exact hpos
  · intro k m hm
    by_cases hk : k = l
    · subst hk
      cases hm.symm.trans hm₀
      exact hdepth
    · rw [marks_bind_of_ne hl hk] at hm
      exact h.depth hm
  · intro k hk
    obtain ⟨entry, htracks⟩ := h.tracks hk
    refine ⟨entry, htracks.toFlows.mono (instrs_bind c l) ?_ (h.mark?_bind_of_eq_some hl) ?_, ?_⟩
    · intro d hd
      rw [pos_bind hl, hd]
      rfl
    · intro k m n d hm hn hlost hd
      by_cases hk : k = l
      · subst hk
        cases hm.symm.trans hm₀
        cases hindex.symm.trans hn
        exact .inr ⟨rfl, hmark ▸ hd⟩
      · rw [marks_bind_of_ne hl hk] at hm
        rw [mark?_congr (marks_bind_of_ne hl hk)] at hd
        exact .inl (htracks.label hm hn hlost hd)
    · rw [instrs_bind]
      exact htracks.ret

end

/-! ### Stretches of code -/

/-- What a stretch of code does to labels. Those from before keep their places, and get only depths
that `touch` allows; new ones are bound, but for some of its own. -/
structure Step (base : Option Int) (touch : Label → Int → Prop) (own : List Label) (c c' : Code) : Prop where
  sound : c'.Sound base
  old : c.marks[l]? = some m → ∃ m', c'.marks[l]? = some m' ∧ m'.index = m.index ∧
    (m'.depth = m.depth ∨ m.depth = -1 ∧ touch l m'.depth)
  new : c.marks.size ≤ l → c'.marks[l]? = some m → l ∈ own ∨ m.index.isSome = true
  own : l ∈ own → c.marks.size ≤ l ∧ c'.IsOpen l

/-- No label is touched. -/
def untouched : Label → Int → Prop := fun _ _ => False

section
variable {base : Option Int} {touch touch' : Label → Int → Prop} {own : List Label} {c c₁ c₂ : Code}

theorem Step.refl (h : c.Sound base) : Step base touch [] c c where
  sound := h
  old hm := ⟨_, hm, rfl, .inl rfl⟩
  new hl hm := absurd (Array.getElem?_eq_some_iff.1 hm).1 (by omega)
  own := nofun

variable (h : Step base touch own c c₁)
include h

theorem Step.imp (ht : ∀ l d, touch l d → touch' l d) :
    Step base touch' own c c₁ where
  sound := h.sound
  old hm := by
    obtain ⟨m', hm', hindex, hd⟩ := h.old hm
    exact ⟨m', hm', hindex, hd.imp id (And.imp id (ht _ _))⟩
  new := h.new
  own := h.own

theorem Step.size_le : c.marks.size ≤ c₁.marks.size := by
  rcases Nat.eq_zero_or_pos c.marks.size with h0 | h0
  · omega
  · obtain ⟨m', hm', -⟩ := h.old (Array.getElem?_eq_getElem (show c.marks.size - 1 < _ by omega))
    have := (Array.getElem?_eq_some_iff.1 hm').1
    omega

theorem Step.isOpen (hl : c.IsOpen l) : c₁.IsOpen l := by
  obtain ⟨m, hm, hindex⟩ := hl
  obtain ⟨m', hm', hindex', -⟩ := h.old hm
  exact ⟨m', hm', hindex'.trans hindex⟩

theorem Step.mark?_of_eq_some
    (hl : c.mark? l = some d) : c₁.mark? l = some d := by
  obtain ⟨m, hm, rfl, hpos⟩ := mark?_eq_some.1 hl
  obtain ⟨m', hm', -, hd | ⟨hneg, -⟩⟩ := h.old hm
  · exact mark?_eq_some.2 ⟨m', hm', hd, hpos⟩
  · omega

/-- A label that is not touched keeps its depth. -/
theorem Step.mark?_eq (hlt : l < c.marks.size)
    (ht : ∀ d, ¬ touch l d) : c₁.mark? l = c.mark? l := by
  obtain ⟨m', hm', -, hd | ⟨-, hd⟩⟩ := h.old (Array.getElem?_eq_getElem hlt)
  · rw [Code.mark?_eq hm', Code.mark?_eq (Array.getElem?_eq_getElem hlt), hd]
  · exact absurd hd (ht _)

theorem Step.takes (hl : c.Takes l d)
    (ht : ∀ e, touch l e → e = d) : c₁.Takes l d := by
  obtain ⟨m, hm, hd⟩ := hl
  obtain ⟨m', hm', hindex, hd' | ⟨-, htouch⟩⟩ := h.old hm
  · exact ⟨m', hm', by rwa [hindex, hd']⟩
  · exact ⟨m', hm', .inr (ht _ htouch)⟩

/-- One stretch after another one. -/
theorem Step.trans (h' : Step base touch' [] c₁ c₂)
    (ht : ∀ l d, l < c.marks.size → touch' l d → touch l d) : Step base touch own c c₂ where
  sound := h'.sound
  old := by
    intro l m hm
    obtain ⟨m₁, hm₁, hi₁, hd₁⟩ := h.old hm
    obtain ⟨m₂, hm₂, hi₂, hd₂⟩ := h'.old hm₁
    refine ⟨m₂, hm₂, hi₂.trans hi₁, ?_⟩
    have hlt := (Array.getElem?_eq_some_iff.1 hm).1
    rcases hd₁ with hd₁ | ⟨hneg, hd₁⟩ <;> rcases hd₂ with hd₂ | ⟨hneg₂, hd₂⟩
    · exact .inl (hd₂.trans hd₁)
    · exact .inr ⟨hd₁ ▸ hneg₂, ht _ _ hlt hd₂⟩
    · exact .inr ⟨hneg, hd₂ ▸ hd₁⟩
    · exact .inr ⟨hneg, ht _ _ hlt hd₂⟩
  new := by
    intro l m hl hm
    by_cases hl₁ : c₁.marks.size ≤ l
    · rcases h'.new hl₁ hm with h | h
      · cases h
      · exact .inr h
    · obtain ⟨m₁, hm₁, hi₁, -⟩ := h'.old (Array.getElem?_eq_getElem (by omega : l < _))
      cases hm.symm.trans hm₁
      rw [hi₁]
      exact h.new hl (Array.getElem?_eq_getElem _)
  own hl := ⟨(h.own hl).1, h'.isOpen (h.own hl).2⟩

/-- A stretch and one more instruction. -/
theorem Step.emit
    (hi : ∀ d, c₁.pos = some d → c₁.Ready base i d)
    (ht : ∀ l d, l < c.marks.size → i.target? = some l → c₁.pos = some d →
      touch l (d + i.push - i.pop)) : Step base touch own c (c₁.emit i) := by
  have hstep : Step base (fun l d => i.target? = some l ∧
      ∃ e, c₁.pos = some e ∧ d = e + i.push - i.pop) [] c₁ (c₁.emit i) := by
    refine ⟨h.sound.emit hi, ?_, ?_, nofun⟩
    · intro l m hm
      obtain ⟨m', hm', hindex, hd | ⟨hneg, hd⟩⟩ := mark_emit hi hm
      · exact ⟨m', hm', hindex, .inl hd⟩
      · exact ⟨m', hm', hindex, .inr ⟨hneg, hd⟩⟩
    · intro l m hl hm
      rw [← size_marks_emit c₁ i] at hl
      exact absurd (Array.getElem?_eq_some_iff.1 hm).1 (by omega)
  refine h.trans hstep ?_
  rintro l - hl ⟨htarget, d, hd, rfl⟩
  exact ht l d hl htarget hd

/-- A stretch and a new label, which is its own. -/
theorem Step.newLabel :
    Step base touch (c₁.marks.size :: own) c c₁.newLabel.2 where
  sound := h.sound.newLabel
  old := by
    intro l m hm
    have hlt : l ≠ c₁.marks.size :=
      Nat.ne_of_lt (Nat.lt_of_lt_of_le (Array.getElem?_eq_some_iff.1 hm).1 h.size_le)
    rw [marks_newLabel, if_neg hlt]
    exact h.old hm
  new := by
    intro l m hl hm
    rw [marks_newLabel] at hm
    split at hm
    · exact .inl (by simp_all)
    · exact (h.new hl hm).imp (List.mem_cons_of_mem _) id
  own := by
    intro l hl
    rcases List.mem_cons.1 hl with rfl | hl
    · exact ⟨h.size_le, {}, by rw [marks_newLabel, if_pos rfl], rfl⟩
    · obtain ⟨hle, m, hm, hindex⟩ := h.own hl
      refine ⟨hle, m, ?_, hindex⟩
      rw [marks_newLabel, if_neg (Nat.ne_of_lt (Array.getElem?_eq_some_iff.1 hm).1), hm]

/-- A stretch and the place of a label of its own. -/
theorem Step.bind (hl : l ∈ own) (hb : c₁.Binds l) :
    Step base touch (own.filter (· ≠ l)) c (c₁.bind l) where
  sound := h.sound.bind hb
  old := by
    intro k m hm
    have hk : k ≠ l :=
      Nat.ne_of_lt (Nat.lt_of_lt_of_le (Array.getElem?_eq_some_iff.1 hm).1 (h.own hl).1)
    rw [marks_bind_of_ne hb hk]
    exact h.old hm
  new := by
    intro k m hle hm
    by_cases hk : k = l
    · subst hk
      obtain ⟨m', hm', hindex, -⟩ := h.sound.mark_bind hb
      cases hm.symm.trans hm'
      exact .inr (by rw [hindex]; rfl)
    · rw [marks_bind_of_ne hb hk] at hm
      exact (h.new hle hm).imp (fun hk' => List.mem_filter.2 ⟨hk', by simpa using hk⟩) id
  own := by
    intro k hk
    obtain ⟨hk, hne⟩ := List.mem_filter.1 hk
    obtain ⟨hle, m, hm, hindex⟩ := h.own hk
    refine ⟨hle, m, ?_, hindex⟩
    rwa [marks_bind_of_ne hb (by simpa using hne)]

end

end Code

end Classwright
