import Classwright.Body.Stmt
import Classwright.Proofs.Body.Conversion
import Classwright.Proofs.Typing

/-!
Labels and jumps while code is written. `Gen.Branched` is what a condition does, which jumps to a
label or goes on at the depth where it started; `Gen.Here` follows code along labels of its own, where
the depth is known of each place that can be reached.
-/

namespace Classwright

namespace Gen

/-- A condition has jumped to a label or gone on, at the depth where it started, and did one of them
if it could be reached. -/
structure Branched (base : Option Int) (s : Scopes) (l : Label) (b b' : Body) : Prop where
  scopes : b'.scopes = s
  step : Code.Step base (fun k d => k = l ∧ b.code.pos = some d) [] b.code b'.code
  pos : b'.code.pos = b.code.pos ∨ b'.code.pos = none
  live : ∀ d, b.code.pos = some d → b'.code.pos = some d ∨ b'.code.mark? l = some d

/-- An action is a condition that may jump to a label. -/
def JumpsTo (base : Option Int) (room : Int) (s : Scopes) (l : Label) (m : Gen α) : Prop :=
  ∀ b, b.scopes = s → b.code.Sound base → HasRoom b.code room → l < b.code.marks.size →
    (∀ d, b.code.pos = some d → b.code.Takes l d) → Ensures m b fun _ => Branched base s l b

section
variable {base : Option Int} {room : Int} {s : Scopes} {l : Label} {b b' : Body} {final : Bool}

theorem map_add_zero (p : Option Int) : p.map (· + 0) = p := by
  cases p with
  | none => rfl
  | some d => exact congrArg some (Int.add_zero d)

theorem Jumped.branched (h : Jumped ⟨base, room, fun k d => k = l ∧ b.code.pos = some d, b.code⟩ []
    s 0 l final b') : Branched base s l b b' := by
  have hpos := h.pos
  dsimp only at hpos
  rw [map_add_zero] at hpos
  refine ⟨h.scopes, h.step, ?_, ?_⟩
  · cases final
    · exact .inl hpos
    · exact .inr hpos
  · intro d hd
    have hmark := h.mark d hd
    rw [Int.add_zero] at hmark
    exact .inr hmark

/-- A jump on the value on top, to a label that takes the depth without it. -/
theorem At.branch {op : Opcode} {k : Nat}
    (h : At (.of base room b) [] s k b') (hop : op.Branches k) (hroom : 0 ≤ room)
    (hl : ∀ d, b.code.pos = some d → b.code.Takes l d) :
    Ensures (Gen.jump op l) b' fun _ => Branched base s l b := by
  have h' : At ⟨base, room, fun k d => k = l ∧ b.code.pos = some d, b.code⟩ [] s k b' :=
    h.imp fun _ _ => False.elim
  refine (h'.jump (l := l) hop (Int.le_refl _) (by simpa using hroom) ?_ ?_).mono
    fun _ b'' hj => ?_
  · intro d hd
    rw [Int.sub_self, Int.add_zero]
    exact h.step.takes (hl d hd) fun _ => False.elim
  · intro _ d hd
    rw [Int.sub_self, Int.add_zero]
    exact ⟨rfl, hd⟩
  · rw [Int.sub_self] at hj
    exact hj.branched

/-- The label of a condition gets no depth but the one where the condition starts. -/
theorem Branched.mark (h : Branched base s l b b') (hsound : b.code.Sound base)
    (hl : l < b.code.marks.size) :
    b'.code.mark? l = b.code.mark? l ∨ b'.code.mark? l = b.code.pos := by
  obtain ⟨m', hm', -, hd | ⟨-, -, hd⟩⟩ := h.step.old (Array.getElem?_eq_getElem hl)
  · left
    rw [Code.mark?_eq hm', Code.mark?_eq (Array.getElem?_eq_getElem hl), hd]
  · right
    rw [hd, Code.mark?_eq hm', if_pos (hsound.pos_nonneg hd)]

/-! ### Places -/

/-- A stretch of code that started at `c` has got to a place of some depth, or to one that cannot be
reached; some labels of its own are not bound yet. -/
structure Here (base : Option Int) (touch : Label → Int → Prop) (c : Code) (own : List Label) (s : Scopes)
    (p : Option Int) (b : Body) : Prop where
  scopes : b.scopes = s
  step : Code.Step base touch own c b.code
  pos : b.code.pos = p

variable {touch : Label → Int → Prop} {c : Code} {own : List Label} {p : Option Int}

theorem Here.refl (touch : Label → Int → Prop) (h : b.code.Sound base) :
    Here base touch b.code [] b.scopes b.code.pos b :=
  ⟨rfl, .refl h, rfl⟩

variable (h : Here base touch c own s p b)
include h

theorem Here.lt_size (hl : l ∈ own) : l < b.code.marks.size := by
  obtain ⟨-, m, hm, -⟩ := h.step.own hl
  exact (Array.getElem?_eq_some_iff.1 hm).1

theorem Here.not_lt (hl : l ∈ own) : ¬ l < c.marks.size :=
  Nat.not_lt.2 (h.step.own hl).1

/-- A label of its own takes a depth, unless it has been given another one. -/
theorem Here.takes (hl : l ∈ own)
    (hd : ∀ e, b.code.mark? l = some e → e = d) : b.code.Takes l d := by
  obtain ⟨-, m, hm, hindex⟩ := h.step.own hl
  rcases h.step.sound.depth hm with hneg | hpos
  · exact ⟨m, hm, .inl ⟨hindex, hneg⟩⟩
  · exact ⟨m, hm, .inr (hd _ (by rw [Code.mark?_eq hm, if_pos hpos]))⟩

theorem Here.newLabel :
    Ensures Gen.newLabel b fun l b' => Here base touch c (l :: own) s p b' ∧ l ∉ own ∧
      b'.code.mark? l = none ∧ ∀ k, b'.code.mark? k = b.code.mark? k := by
  refine .newLabel ⟨⟨h.scopes, h.step.newLabel, h.pos⟩, fun hl => ?_, ?_, fun k => Code.mark?_newLabel k⟩
  · exact Nat.lt_irrefl _ (h.lt_size hl)
  · dsimp only
    rw [Code.mark?_newLabel, Code.mark?]
    simp

/-- Binding a label of its own: the place after it can be reached from before it or by a jump. -/
theorem Here.bind (hl : l ∈ own)
    (hd : ∀ d e, p = some d → b.code.mark? l = some e → e = d) :
    Ensures (Gen.bind l) b fun _ b' =>
      Here base touch c (own.filter (· ≠ l)) s (p.or (b.code.mark? l)) b' ∧
        (∀ k, k ≠ l → b'.code.mark? k = b.code.mark? k) ∧ b'.code.mark? l = b'.code.pos ∧
        b'.code.marks.size = b.code.marks.size := by
  have hbinds : b.code.Binds l := by
    obtain ⟨-, m, hm, hindex⟩ := h.step.own hl
    refine ⟨m, hm, hindex, fun d hpos => ?_⟩
    rw [h.pos] at hpos
    rcases h.step.sound.depth hm with hneg | hmark
    · exact .inl hneg
    · exact .inr (hd d _ hpos (by rw [Code.mark?_eq hm, if_pos hmark]))
  obtain ⟨-, -, -, -, hmark⟩ := h.step.sound.mark_bind hbinds
  refine .edit ⟨⟨h.scopes, h.step.bind hl hbinds, ?_⟩, fun k hk => ?_, hmark, Code.size_marks_bind _ _⟩
  · dsimp only
    rw [Code.pos_bind hbinds, h.pos]
  · exact Code.mark?_congr (Code.marks_bind_of_ne hbinds hk)

/-- Code that touches no label. -/
theorem Here.seq
    (h' : At (.of base room b) [] s' n b') :
    Here base touch c own s' (p.map (· + n)) b' ∧
      ∀ k, k < b.code.marks.size → b'.code.mark? k = b.code.mark? k := by
  refine ⟨⟨h'.scopes, h.step.trans h'.step fun _ _ _ => False.elim, ?_⟩, fun k hk => ?_⟩
  · rw [h'.pos, ← h.pos]
  · exact h'.step.mark?_eq hk fun _ => id

theorem Here.run
    (hm : Pushes base room s m size P) (hroom : ∀ d, p = some d → d + room < Code.limit) :
    Ensures m b fun a b' => Here base touch c own s (p.map (· + size a)) b' ∧ P a ∧
      ∀ k, k < b.code.marks.size → b'.code.mark? k = b.code.mark? k := by
  refine (hm b h.scopes h.step.sound fun d hd => hroom d (h.pos.symm.trans hd)).mono ?_
  rintro a b' ⟨hat, hP⟩
  exact ⟨(h.seq hat).1, hP, (h.seq hat).2⟩

/-- A condition on a label that takes the depth. -/
theorem Here.cond (h' : Branched base s l b b')
    (htouch : l < c.marks.size → ∀ d, p = some d → touch l d) (hl : l < b.code.marks.size) :
    ∃ p', Here base touch c own s p' b' ∧ (p' = p ∨ p' = none) ∧
      (∀ d, p = some d → p' = some d ∨ b'.code.mark? l = some d) ∧
      (b'.code.mark? l = b.code.mark? l ∨ b'.code.mark? l = p) ∧
      ∀ k, k < b.code.marks.size → k ≠ l → b'.code.mark? k = b.code.mark? k := by
  have hpos := h.pos
  refine ⟨b'.code.pos, ⟨h'.scopes, h.step.trans h'.step ?_, rfl⟩, hpos ▸ h'.pos,
    fun d hd => h'.live d (hpos.trans hd), hpos ▸ h'.mark h.step.sound hl, fun k hk hkl => ?_⟩
  · rintro k d hk ⟨rfl, hd⟩
    exact htouch hk d (hpos.symm.trans hd)
  · exact h'.step.mark?_eq hk fun _ hd => hkl hd.1

/-- A jump away. -/
theorem Here.goto (hl : l < b.code.marks.size)
    (hlimit : ∀ d, p = some d → d < Code.limit)
    (htakes : ∀ d, p = some d → b.code.Takes l d)
    (htouch : l < c.marks.size → ∀ d, p = some d → touch l d) :
    Ensures (Gen.jump .goto l) b fun _ b' => Here base touch c own s none b' ∧
      b'.code.mark? l = p.or (b.code.mark? l) ∧
      ∀ k, k < b.code.marks.size → k ≠ l → b'.code.mark? k = b.code.mark? k := by
  have hpos := h.pos
  have hat : At ⟨base, 0, fun k d => k = l ∧ p = some d, b.code⟩ [] b.scopes 0 b :=
    .refl _ h.step.sound fun d hd => by rw [Int.add_zero]; exact hlimit d (hpos.symm.trans hd)
  refine (hat.jump (k := 0) (l := l) (by decide) (Int.le_refl _) (Int.le_refl _) ?_ ?_).mono
    fun _ b' hj => ?_
  · intro d hd
    simpa using htakes d (hpos.symm.trans hd)
  · intro _ d hd
    exact ⟨rfl, by simpa using hpos.symm.trans hd⟩
  · refine ⟨⟨hj.scopes.trans h.scopes, h.step.trans hj.step ?_, hj.pos⟩, ?_, fun k hk hkl => ?_⟩
    · rintro k d hk ⟨rfl, hd⟩
      exact htouch hk d hd
    · cases hp : p with
      | none => exact hj.step.mark?_eq hl fun d hd => by cases hp.symm.trans hd.2
      | some d =>
        have := hj.mark d (hpos.trans hp)
        simpa using this
    · exact hj.step.mark?_eq hk fun _ hd => hkl hd.1

end

end Gen

end Classwright
