import Classwright.Proofs.Code.Agreement
import Classwright.Proofs.Code.Locals

/-!
Code that goes on. Longer code has all instructions and bound labels of the code that it goes on from
(`Code.Extends`). What is written after some code (`Code.Grows`) binds only labels of its own, keeps
depths within their bounds unless something goes wrong (`Code.IsLevel`), and forgets no jump.
-/

namespace Classwright.Code

/-! ### Depths -/

/-- Nothing is wrong with the code, and it is so short that no depth leaves the range of a word. -/
structure IsProper (c : Code) : Prop where
  fault : c.fault = none
  size : c.instrs.size < 0x1000000000000000

/-- Depths are within their bounds. -/
structure IsLevel (c : Code) : Prop where
  pos : c.dead = false → 0 ≤ c.depth ∧ c.depth ≤ 6 * c.instrs.size
  mark {l : Label} {m : Mark} : c.marks[l]? = some m → m.depth ≤ 6 * c.instrs.size

variable {c c' : Code} {i : Instr} {l : Label}

/-! ### Longer code -/

/-- Code has all instructions and bound labels of some code at their places. -/
structure Extends (c c' : Code) : Prop where
  instrs {k : Nat} {i : Instr} : c.instrs[k]? = some i → c'.instrs[k]? = some i
  labels {l : Label} {k : Nat} : c.labelIndex? l = some k → c'.labelIndex? l = some k

/-- What is written after some code keeps the first `n` labels as they are. -/
structure Grows (n : Nat) (c c' : Code) : Prop extends Extends c c' where
  size : c.instrs.size ≤ c'.instrs.size
  marks : c.marks.size ≤ c'.marks.size
  old {l : Label} : l < n → c'.labelIndex? l = c.labelIndex? l
  fault : c'.fault = none → c.fault = none
  level : c'.IsProper → c.IsLevel → c'.IsLevel
  reached {l : Label} : c'.IsProper → c.IsLevel → (c.mark? l).isSome = true → (c'.mark? l).isSome = true

variable {n : Nat} {c'' : Code}

theorem Extends.refl (c : Code) : c.Extends c := ⟨id, id⟩

theorem Extends.trans (h : c.Extends c') (h' : c'.Extends c'') : c.Extends c'' :=
  ⟨fun hi => h'.instrs (h.instrs hi), fun hl => h'.labels (h.labels hl)⟩

theorem Grows.proper (h : Grows n c c') (hc : c'.IsProper) : c.IsProper :=
  ⟨h.fault hc.fault, Nat.lt_of_le_of_lt h.size hc.size⟩

theorem Grows.refl (n : Nat) (c : Code) : Grows n c c where
  toExtends := .refl c
  size := Nat.le_refl _
  marks := Nat.le_refl _
  old _ := rfl
  fault := id
  level _ := id
  reached _ _ := id

theorem Grows.trans (h : Grows n c c') (h' : Grows n c' c'') : Grows n c c'' where
  toExtends := h.toExtends.trans h'.toExtends
  size := Nat.le_trans h.size h'.size
  marks := Nat.le_trans h.marks h'.marks
  old hl := (h'.old hl).trans (h.old hl)
  fault hc := h.fault (h'.fault hc)
  level hc hlevel := h'.level hc (h.level (h'.proper hc) hlevel)
  reached hc hlevel hl :=
    h'.reached hc (h.level (h'.proper hc) hlevel) (h.reached (h'.proper hc) hlevel hl)

theorem Grows.mono (h : Grows n c c') (hm : m ≤ n) : Grows m c c' :=
  { h with old := fun hl => h.old (Nat.lt_of_lt_of_le hl hm) }

theorem isSome_mark? : (c.mark? l).isSome = true ↔ ∃ m, c.marks[l]? = some m ∧ 0 ≤ m.depth := by
  rw [Option.isSome_iff_exists]
  simp only [mark?_eq_some]
  constructor
  · rintro ⟨_, m, hm, rfl, hpos⟩
    exact ⟨m, hm, hpos⟩
  · rintro ⟨m, hm, hpos⟩
    exact ⟨_, m, hm, rfl, hpos⟩

theorem size_emit (c : Code) (i : Instr) : (c.emit i).instrs.size = c.instrs.size + 1 := by
  rw [instrs_emit, Array.size_push]

/-- The depth that a modest instruction leaves is within bounds. -/
theorem IsLevel.after_eq (h : c.IsLevel) (hi : i.IsModest) (hdead : c.dead = false)
    (hc : (c.emit i).IsProper) :
    i.after c.depth = c.depth + i.push - i.pop ∧
      0 ≤ c.depth + i.push - i.pop ∧
      c.depth + i.push - i.pop ≤ 6 * (c.emit i).instrs.size := by
  obtain ⟨hpos, hle⟩ := h.pos hdead
  obtain ⟨-, hpop, -⟩ := (fault_emit_iff i hdead).1 hc.fault
  obtain ⟨hpop', hpush, hpush'⟩ := hi
  have hsize := hc.size
  rw [size_emit] at hsize ⊢
  exact ⟨Word.wrap_eq_self (by omega) (by omega), by omega, by omega⟩

theorem grows_emit (hi : i.IsModest) (n : Nat) (c : Code) : Grows n c (c.emit i) where
  instrs := instrs_emit_of_eq_some
  labels h := (labelIndex?_emit c i _).trans h
  size := by
    rw [size_emit]
    omega
  marks := Nat.le_of_eq (size_marks_emit c i).symm
  old _ := labelIndex?_emit c i _
  fault := fault_of_emit
  level hc h := by
    have hsize := c.size_emit i
    refine ⟨fun hlive => ?_, fun {l m'} hm' => ?_⟩
    · obtain ⟨hdead, -⟩ := Bool.or_eq_false_iff.1 ((dead_emit c i).symm.trans hlive)
      obtain ⟨hwrap, hpos, hle⟩ := h.after_eq hi hdead hc
      rw [(depth_emit i hdead).1, hwrap]
      exact ⟨hpos, hle⟩
    · rw [marks_emit] at hm'
      obtain ⟨m, hm, rfl⟩ := Option.map_eq_some_iff.1 hm'
      have := h.mark hm
      split
      · next hcond =>
        obtain ⟨hwrap, -, hle⟩ := h.after_eq hi hcond.1 hc
        exact hwrap ▸ hle
      · omega
  reached {l} hc h hl := by
    obtain ⟨d, hd⟩ := Option.isSome_iff_exists.1 hl
    rw [mark?_emit_of_eq_some hd]
    rfl

theorem IsLevel.newLabel (h : c.IsLevel) : c.newLabel.2.IsLevel := by
  refine ⟨h.pos, fun {l m} hm => ?_⟩
  rw [marks_newLabel] at hm
  split at hm
  · cases hm
    change (-1 : Int) ≤ 6 * (c.instrs.size : Int)
    omega
  · exact h.mark hm

theorem grows_newLabel (n : Nat) (c : Code) : Grows n c c.newLabel.2 where
  instrs := id
  labels h := (labelIndex?_newLabel c _).trans h
  size := Nat.le_refl _
  marks := by
    rw [size_marks_newLabel]
    omega
  old _ := labelIndex?_newLabel c _
  fault := id
  level _ h := h.newLabel
  reached _ _ hl := by rwa [mark?_newLabel]

theorem grows_bind (hl : n ≤ l) (c : Code) : Grows n c (c.bind l) where
  instrs h := by rwa [instrs_bind]
  labels := labelIndex?_bind_of_eq_some
  size := Nat.le_of_eq (by rw [instrs_bind])
  marks := Nat.le_of_eq (by rw [size_marks_bind])
  old hk := by
    rw [labelIndex?_bind, if_neg]
    rintro ⟨rfl, -⟩
    exact Nat.not_lt.2 hl hk
  fault h := by
    by_cases hl : l < c.marks.size
    · exact ((fault_bind_iff (Array.getElem?_eq_getElem hl)).1 h).1
    · rwa [bind_of_size_le (Nat.not_lt.1 hl)] at h
  level hc h := by
    by_cases hl : l < c.marks.size
    · have hm := Array.getElem?_eq_getElem hl
      obtain ⟨-, hopen, -⟩ := (fault_bind_iff hm).1 hc.fault
      obtain ⟨hmarks, hpos⟩ := bind_of_open hm hopen
      have hbound := h.mark hm
      refine ⟨fun hlive => ?_, fun {k m'} hk => ?_⟩
      · have hat : (c.bind l).pos = some (c.bind l).depth := pos_eq_some.2 ⟨hlive, rfl⟩
        rw [instrs_bind]
        rw [hpos, Option.or_eq_some_iff] at hat
        rcases hat with hat | ⟨-, hat⟩
        · obtain ⟨hdead, hdepth⟩ := pos_eq_some.1 hat
          exact hdepth ▸ h.pos hdead
        · obtain ⟨m', hm', hdepth, hnonneg⟩ := mark?_eq_some.1 hat
          exact ⟨hnonneg, hdepth ▸ h.mark hm'⟩
      · rw [hmarks, Array.getElem?_setIfInBounds, if_pos hl] at hk
        rw [instrs_bind]
        split at hk
        · cases hk
          dsimp only
          cases hat : c.pos with
          | none => exact hbound
          | some d =>
            obtain ⟨hdead, rfl⟩ := pos_eq_some.1 hat
            exact (h.pos hdead).2
        · exact h.mark hk
    · rwa [bind_of_size_le (Nat.not_lt.1 hl)]
  reached {k} hc h hk := by
    by_cases hl : l < c.marks.size
    · have hm := Array.getElem?_eq_getElem hl
      obtain ⟨-, hopen, -⟩ := (fault_bind_iff hm).1 hc.fault
      obtain ⟨m', hm', hd⟩ := isSome_mark?.1 hk
      rw [isSome_mark?, (bind_of_open hm hopen).1, Array.getElem?_setIfInBounds, if_pos hl]
      split
      · next hlk =>
        subst hlk
        cases hm.symm.trans hm'
        refine ⟨_, rfl, ?_⟩
        cases hat : c.pos with
        | none => exact hd
        | some d =>
          obtain ⟨hdead, rfl⟩ := pos_eq_some.1 hat
          exact (h.pos hdead).1
      · exact ⟨m', hm', hd⟩
    · rwa [bind_of_size_le (Nat.not_lt.1 hl)]

/-! ### What can be reached -/

theorem dead_bind_of_live (hdead : c.dead = false) (l : Label) (hc : (c.bind l).fault = none) :
    (c.bind l).dead = false := by
  by_cases hl : l < c.marks.size
  · have hm := Array.getElem?_eq_getElem hl
    have hpos := (bind_of_open hm ((fault_bind_iff hm).1 hc).2.1).2
    rw [pos_eq_some.2 ⟨hdead, rfl⟩] at hpos
    exact (pos_eq_some.1 hpos).1
  · rwa [bind_of_size_le (Nat.not_lt.1 hl)]

/-- Code goes on at a label that some jump leads to. -/
theorem dead_bind_of_mark (hl : (c.mark? l).isSome = true) (hc : (c.bind l).fault = none) :
    (c.bind l).dead = false := by
  obtain ⟨d, hd⟩ := Option.isSome_iff_exists.1 hl
  obtain ⟨m, hm, -⟩ := mark?_eq_some.1 hd
  have hpos := (bind_of_open hm ((fault_bind_iff hm).1 hc).2.1).2
  rw [hd] at hpos
  cases hdead : c.dead with
  | true => exact (pos_eq_some.1 (hpos.trans (by rw [pos_eq_none.2 hdead]; rfl))).1
  | false => exact dead_bind_of_live hdead l hc

/-- A jump that is reached leads to its label. -/
theorem isSome_mark?_emit (h : c.IsLevel) (hi : i.IsModest) (hdead : c.dead = false)
    (hc : (c.emit i).IsProper) (ht : i.target? = some l) (hl : l < c.marks.size) :
    ((c.emit i).mark? l).isSome = true := by
  obtain ⟨hwrap, hpos, -⟩ := h.after_eq hi hdead hc
  refine isSome_mark?.2 ⟨_, by rw [marks_emit, Array.getElem?_eq_getElem hl]; rfl, ?_⟩
  dsimp only
  split
  · exact hwrap ▸ hpos
  · next hcond => exact Int.not_lt.1 fun hneg => hcond ⟨hdead, ht, hneg⟩

end Classwright.Code
