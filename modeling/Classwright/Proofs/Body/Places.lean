import Classwright.Proofs.Body.Expression

/-!
Places between statements. Statements start and end at one depth, which returns take as the depth
below their operand (`Gen.Place`); they may jump to the labels of the loop around them only, and the
scopes around them get no variables but in the innermost one (`Gen.Ran`).
-/

namespace Classwright

theorem Scopes.lookup?_push (s : Scopes) (name : Text) : s.push.lookup? name = s.lookup? name := by
  unfold Scopes.lookup? Scopes.push
  rw [List.findSome?_cons]
  rfl

theorem Scopes.Covers.push {s : Scopes} (h : s.Covers known) :
    s.push.Covers known := by
  intro name hname
  rw [s.lookup?_push]
  exact h name hname

theorem Scopes.Covers.cons {s : Scopes} (h : s.Covers known)
    (hname : (s.lookup? name).isSome = true) : s.Covers (name :: known) := by
  intro n hn
  rcases List.mem_cons.1 hn with rfl | hn
  · exact hname
  · exact h n hn

namespace Gen

/-- A loop around a place lets its labels be jumped to with the depth of the place. -/
def loopTouch (loops : List LoopLabels) (p : Option Int) : Label → Int → Prop :=
  fun k d => (∃ l, loops.head? = some l ∧ (k = l.leave ∨ k = l.next)) ∧ p = some d

/-- A place where a statement may stand, inside some loops and where some names are known. -/
structure Place (base : Option Int) (loops : List LoopLabels) (known : List Text) (room : Int)
    (b : Body) : Prop where
  scopes : b.scopes.Sound
  known : b.scopes.Covers known
  sound : b.code.Sound base
  room : HasRoom b.code room
  base : base = some k → b.code.pos = some d → d = k
  loop : loops.head? = some l → b.code.pos = some d →
    b.code.Takes l.leave d ∧ b.code.Takes l.next d

/-- What a statement has done. -/
structure Ran (base : Option Int) (loops : List LoopLabels) (b b' : Body) : Prop where
  step : Code.Step base (loopTouch loops b.code.pos) [] b.code b'.code
  pos : b'.code.pos = b.code.pos ∨ b'.code.pos = none
  extends_ : b.scopes.Extends b'.scopes
  scopes : b'.scopes.Sound

/-- Code that may stand at a place, and the names that are known after it. -/
def Runs (base : Option Int) (loops : List LoopLabels) (known known' : List Text) (room : Int)
    (m : Gen Unit) : Prop :=
  ∀ b, Place base loops known room b →
    Ensures m b fun _ b' => Ran base loops b b' ∧ b'.scopes.Covers known'

section
variable {base : Option Int} {loops : List LoopLabels} {known known' : List Text} {room : Int}
  {b b' b'' : Body}

theorem Place.at (h : Place base loops known room b) :
    At (.of base room b) [] b.scopes 0 b := .refl _ h.sound h.room

theorem Ran.refl (h : Place base loops known room b) : Ran base loops b b where
  step := .refl h.sound
  pos := .inl rfl
  extends_ := .refl _
  scopes := h.scopes

theorem Ran.pos_eq_some (h : Ran base loops b b') (hd : b'.code.pos = some d) :
    b.code.pos = some d := by
  rcases h.pos with hp | hp
  · exact hp.symm.trans hd
  · cases hp.symm.trans hd

theorem Ran.trans (h : Ran base loops b b') (h' : Ran base loops b' b'') : Ran base loops b b'' where
  step := h.step.trans h'.step fun _ _ _ ⟨hl, hd⟩ => ⟨hl, h.pos_eq_some hd⟩
  pos := by
    rcases h'.pos with hp | hp
    · exact h.pos.imp hp.trans hp.trans
    · exact .inr hp
  extends_ := h.extends_.trans h'.extends_
  scopes := h'.scopes

/-- The place after a statement. -/
theorem Place.ran (h : Place base loops known room b) (h' : Ran base loops b b')
    (hknown : b'.scopes.Covers known') : Place base loops known' room b' where
  scopes := h'.scopes
  known := hknown
  sound := h'.step.sound
  room d hd := h.room d (h'.pos_eq_some hd)
  base hk hd := h.base hk (h'.pos_eq_some hd)
  loop hl hd := by
    have hd := h'.pos_eq_some hd
    obtain ⟨hleave, hnext⟩ := h.loop hl hd
    have ht : ∀ {k e}, loopTouch loops b.code.pos k e → e = _ := fun he =>
      Option.some.inj (he.2.symm.trans hd)
    exact ⟨h'.step.takes hleave fun e => ht, h'.step.takes hnext fun e => ht⟩

/-- Code that touches no label and leaves the stack as it was. -/
theorem At.ran (h : At (.of base room b) [] b'.scopes 0 b')
    (hext : b.scopes.Extends b'.scopes) (hs : b'.scopes.Sound) : Ran base loops b b' where
  step := h.step.imp fun _ _ => False.elim
  pos := .inl (h.pos.trans (map_add_zero _))
  extends_ := hext
  scopes := hs

/-- The place after such code. -/
theorem Place.seq (hb : Place base loops known room b)
    (h : At (.of base room b) [] s 0 b') (hext : b.scopes.Extends s)
    (hs : s.Sound) (hk : s.Covers known') : Ran base loops b b' ∧ Place base loops known' room b' := by
  have hscopes := h.scopes
  subst hscopes
  have hran : Ran base loops b b' := h.ran hext hs
  exact ⟨hran, hb.ran hran hk⟩

theorem Runs.bind (h : Runs base loops known known' room m)
    (h' : Runs base loops known' known'' room m') :
    Runs base loops known known'' room (do m; m') := by
  intro b hb
  refine (h b hb).andThen ?_
  rintro _ b₁ ⟨h₁, hk₁⟩
  refine (h' b₁ (hb.ran h₁ hk₁)).mono ?_
  rintro _ b₂ ⟨h₂, hk₂⟩
  exact ⟨h₁.trans h₂, hk₂⟩

/-- Variables of a scope are gone after it. -/
theorem Place.inScope (hb : Place base loops known room b) {m : Gen Unit}
    (h : Place base loops known room { b with scopes := b.scopes.push } →
      Ensures m { b with scopes := b.scopes.push } fun _ =>
        Ran base loops { b with scopes := b.scopes.push }) :
    Ensures (Gen.inScope m) b fun _ b' => Ran base loops b b' ∧ b'.scopes.Covers known := by
  refine .bind (.of_eq rfl ?_)
  refine (h ⟨hb.scopes.push, hb.known.push, hb.sound, hb.room, hb.base, hb.loop⟩).andThen
    fun _ b₁ h₁ => ?_
  refine .bind (.of_eq rfl ?_)
  have hext := h₁.extends_.pop
  exact .pure ⟨⟨h₁.step, h₁.pos, hext, h₁.scopes.pop⟩, hb.known.extends hext⟩

theorem Runs.inScope (h : Runs base loops known known' room m) :
    Runs base loops known known room (inScope m) :=
  fun _ hb => hb.inScope fun hb' => (h _ hb').mono fun _ _ h => h.1

end

/-! ### Declarations -/

/-- What declaring a variable has done to the scopes. -/
structure Declares (s : Scopes) (name : Text) (t : Ty) (v : Var) (s' : Scopes) : Prop where
  sound : v.Sound
  type : v.type = t
  under : v.under = 0
  extends_ : s.Extends s'
  scopes : s'.Sound
  isSome : (s'.lookup? name).isSome = true

section
variable {o : Origin} {own : List Label} {s : Scopes} {n : Int} {b : Body} {env : Env}

/-- Other scopes do not change the code. -/
theorem At.rescope (h : At o own s n b) (hc : b'.code = b.code) :
    At o own b'.scopes n b' where
  scopes := rfl
  start := h.start
  step := hc ▸ h.step
  pos := hc ▸ h.pos

theorem At.declare (h : At o own s n b) (hs : s.Sound) (tok : Token) (name : Text)
    (htight : t.isTight = true) (hvoid : t.isVoid = false) (isConst : Bool) :
    Ensures (declare env tok name t isConst) b fun v b' =>
      At o own b'.scopes n b' ∧ Declares s name t v b'.scopes := by
  have hscopes := h.scopes
  refine .bind (.get ?_)
  dsimp only
  split
  · exact .refuse _ _
  · exact .throw rfl
  · next v s' hd =>
    rw [hscopes] at hd
    refine .bind (.of_eq rfl ?_)
    refine .pure ⟨h.rescope rfl, ?_⟩
    obtain ⟨hname, htype, hkind, -⟩ := Scopes.of_declare hd
    obtain ⟨hv, hs'⟩ := hs.declare ⟨htight, hvoid⟩ hd
    obtain ⟨hext, hlookup⟩ := Scopes.extends_of_declare hd
    refine ⟨hv, htype, ?_, hext, hs', hlookup⟩
    unfold Var.under
    rw [hkind]
    dsimp only
    cases env.topLevel && s.isGlobal <;> rfl

theorem At.alloc (h : At o own s n b) (hs : s.Sound) (t : Ty) :
    Ensures (alloc t) b fun _ b' =>
      At o own b'.scopes n b' ∧ s.Extends b'.scopes ∧ b'.scopes.Sound := by
  have hscopes := h.scopes
  cases hs' : b.scopes.alloc? t with
  | none =>
    have hm : Gen.alloc t b = .ok (0, b) := by
      rw [Gen.alloc, modifyGet_eq, hs']
    rw [← hscopes] at hs h ⊢
    exact .of_eq hm ⟨h, .refl _, hs⟩
  | some r =>
    obtain ⟨slot, s'⟩ := r
    have hm : Gen.alloc t b = .ok (slot, { b with scopes := s' }) := by
      rw [Gen.alloc, modifyGet_eq, hs']
    obtain ⟨f, hf, hpair⟩ := Option.map_eq_some_iff.1 hs'
    cases hpair
    have hext : s.Extends { b.scopes with frame := some (f.alloc t).2 } := by
      refine ⟨⟨[], ?_⟩, ?_, ?_⟩
      · simp [hscopes]
      · rw [← hscopes]
      · rw [← hscopes, hf]
        rfl
    rw [← hscopes] at hs
    refine .of_eq hm ⟨h.rescope rfl, hext, hs.vars, ?_⟩
    intro g u hg hu
    cases hg
    exact hs.result hf hu

end

/-! ### Depths of places -/

/-- A place has some depth, if it can be reached. -/
def Within (p o : Option Int) : Prop := ∀ d, p = some d → o = some d

theorem Within.refl (o : Option Int) : Within o o := fun _ => id

theorem within_none : Within none o := nofun

theorem Within.of_or (h : p = q ∨ p = none) (hq : Within q o) : Within p o := by
  rcases h with rfl | rfl
  · exact hq
  · exact within_none

theorem Within.or (hp : Within p o) (hq : Within q o) : Within (p.or q) o := by
  cases p with
  | none => exact hq
  | some d => exact hp

theorem Within.eq_or (h : Within p o) : p = o ∨ p = none := by
  cases p with
  | none => exact .inr rfl
  | some d => exact .inl (h d rfl).symm

/-! ### Code with labels of its own -/

/-- Code inside of a statement that starts at a place. It goes on at the depth of that place, and its
labels have no other: some of its own are not bound yet, and others are bound where the statement can
be reached. -/
structure Inside (base : Option Int) (loops : List LoopLabels) (b₀ : Body) (own tops : List Label)
    (b : Body) : Prop where
  step : Code.Step base (loopTouch loops b₀.code.pos) own b₀.code b.code
  pos : Within b.code.pos b₀.code.pos
  nodup : own.Nodup
  mark : l ∈ own → Within (b.code.mark? l) b₀.code.pos
  top : l ∈ tops → b₀.code.marks.size ≤ l ∧ ∀ d, b₀.code.pos = some d → b.code.mark? l = some d
  extends_ : b₀.scopes.Extends b.scopes
  scopes : b.scopes.Sound

section
variable {base : Option Int} {loops : List LoopLabels} {known : List Text} {room : Int}
  {b₀ b b' : Body} {own tops before after : List Label} {l : Label}

theorem Place.inside (hb : Place base loops known room b) : Inside base loops b [] [] b :=
  ⟨.refl hb.sound, .refl _, .nil, nofun, nofun, .refl _, hb.scopes⟩

/-- All labels are bound at the end. -/
theorem Inside.ran (h : Inside base loops b₀ [] tops b) : Ran base loops b₀ b :=
  ⟨h.step, h.pos.eq_or, h.extends_, h.scopes⟩

section
variable (h : Inside base loops b₀ own tops b)
include h

theorem Inside.le (hl : l ∈ own ∨ l ∈ tops) :
    b₀.code.marks.size ≤ l := hl.elim (fun hl => (h.step.own hl).1) fun hl => (h.top hl).1

theorem Inside.takes (hl : l ∈ own ∨ l ∈ tops)
    (hd : b.code.pos = some d) : b.code.Takes l d := by
  have hd := h.pos d hd
  rcases hl with hl | hl
  · obtain ⟨-, m, hm, hindex⟩ := h.step.own hl
    rcases h.step.sound.depth hm with hneg | hpos
    · exact ⟨m, hm, .inl ⟨hindex, hneg⟩⟩
    · have hmark := h.mark hl m.depth (Code.mark?_eq_some.2 ⟨m, hm, rfl, hpos⟩)
      exact ⟨m, hm, .inr (Option.some.inj (hmark.symm.trans hd))⟩
  · exact Code.takes_of_mark? ((h.top hl).2 d hd)

/-- Code that binds no label from before it, and jumps to labels of the statement or of the loop
around it only. -/
theorem Inside.go
    (hstep : Code.Step base touch [] b.code b'.code)
    (htouch : ∀ k d, touch k d →
      b.code.pos = some d ∧ (loopTouch loops b.code.pos k d ∨ k ∈ own ∨ k ∈ tops))
    (hpos : Within b'.code.pos b.code.pos) (hext : b.scopes.Extends b'.scopes)
    (hs : b'.scopes.Sound) : Inside base loops b₀ own tops b' where
  step := by
    refine h.step.trans hstep fun k d hk ht => ?_
    obtain ⟨hd, ht | hown⟩ := htouch k d ht
    · exact ⟨ht.1, h.pos d hd⟩
    · exact absurd hk (Nat.not_lt.2 (h.le hown))
  pos d hd := h.pos d (hpos d hd)
  nodup := h.nodup
  mark hl d hd := by
    obtain ⟨-, m, hm, -⟩ := h.step.own hl
    obtain ⟨m', hm', -, heq | ⟨-, ht⟩⟩ := hstep.old hm
    · rw [Code.mark?_eq hm', heq, ← Code.mark?_eq hm] at hd
      exact h.mark hl d hd
    · obtain ⟨_, hm'', rfl, -⟩ := Code.mark?_eq_some.1 hd
      cases hm'.symm.trans hm''
      exact h.pos _ (htouch _ _ ht).1
  top hl := ⟨(h.top hl).1, fun d hd => hstep.mark?_of_eq_some ((h.top hl).2 d hd)⟩
  extends_ := h.extends_.trans hext
  scopes := hs

theorem Inside.newLabel :
    Ensures Gen.newLabel b fun l b' =>
      Inside base loops b₀ (l :: own) tops b' ∧ b'.code.pos = b.code.pos := by
  refine .newLabel ⟨⟨h.step.newLabel, h.pos, List.nodup_cons.2 ⟨fun hl => ?_, h.nodup⟩, fun {k} hk => ?_,
    fun hl => ⟨(h.top hl).1, fun d hd => ?_⟩, h.extends_, h.scopes⟩, rfl⟩
  · obtain ⟨-, m, hm, -⟩ := h.step.own hl
    exact Nat.lt_irrefl _ (Array.getElem?_eq_some_iff.1 hm).1
  · dsimp only
    rw [Code.mark?_newLabel]
    rcases List.mem_cons.1 hk with rfl | hk
    · have hnone : b.code.mark? b.code.newLabel.1 = none := by
        rw [Code.mark?]
        simp [Code.newLabel]
      exact hnone ▸ within_none
    · exact h.mark hk
  · exact (Code.mark?_newLabel _).trans ((h.top hl).2 d hd)

end

/-- Binding a label of its own. -/
theorem Inside.bind (before after : List Label)
    (h : Inside base loops b₀ (before ++ l :: after) tops b) :
    Ensures (Gen.bind l) b fun _ b' => Inside base loops b₀ (before ++ after) tops b' ∧
      b'.code.pos = b.code.pos.or (b.code.mark? l) ∧ b'.code.mark? l = b'.code.pos := by
  have hl : l ∈ before ++ l :: after := by simp
  have hbinds : b.code.Binds l := by
    obtain ⟨-, m, hm, hindex⟩ := h.step.own hl
    refine ⟨m, hm, hindex, fun d hpos => ?_⟩
    obtain ⟨m', hm', ⟨-, hneg⟩ | hd⟩ := h.takes (.inl hl) hpos
    · exact .inl (Option.some.inj (hm.symm.trans hm') ▸ hneg)
    · exact .inr (Option.some.inj (hm.symm.trans hm') ▸ hd)
  obtain ⟨hnot, hnodup⟩ := List.nodup_cons.1 (List.perm_middle.nodup_iff.1 h.nodup)
  have hne {k : Label} (hk : k ∈ before ++ after) : k ≠ l := fun e => hnot (e ▸ hk)
  have hown : (before ++ l :: after).filter (· ≠ l) = before ++ after := by
    rw [List.filter_append, List.filter_cons_of_neg (by simp), ← List.filter_append]
    exact List.filter_eq_self.2 fun k hk => decide_eq_true (hne hk)
  have hmarks {k : Label} (hk : k ≠ l) : (b.code.bind l).mark? k = b.code.mark? k :=
    Code.mark?_congr (Code.marks_bind_of_ne hbinds hk)
  obtain ⟨-, -, -, -, hmark⟩ := h.step.sound.mark_bind hbinds
  refine .edit ⟨⟨hown ▸ h.step.bind hl hbinds, ?_, hnodup, fun hk => ?_, fun {k} hk => ?_, h.extends_,
    h.scopes⟩, Code.pos_bind hbinds, hmark⟩
  · exact (Code.pos_bind hbinds).symm ▸ h.pos.or (h.mark hl)
  · rw [hmarks (hne hk)]
    exact h.mark ((List.Sublist.refl before).append (List.sublist_cons_self l after) |>.subset hk)
  · refine ⟨(h.top hk).1, fun d hd => ?_⟩
    by_cases hkl : k = l
    · subst hkl
      refine (hmark.trans (Code.pos_bind hbinds)).trans ?_
      cases hpos : b.code.pos with
      | none => exact (h.top hk).2 d hd
      | some e => exact (h.pos e hpos).symm.trans hd
    · exact (hmarks hkl).trans ((h.top hk).2 d hd)

/-- Binding a label that is jumped back to. -/
theorem Inside.bindTop (before after : List Label)
    (h : Inside base loops b₀ (before ++ l :: after) tops b) (hpos : b.code.pos = b₀.code.pos) :
    Ensures (Gen.bind l) b fun _ b' => Inside base loops b₀ (before ++ after) (l :: tops) b' := by
  have hl : l ∈ before ++ l :: after := by simp
  refine (h.bind before after).mono ?_
  rintro _ b' ⟨h', hpos', hmark⟩
  refine ⟨h'.step, h'.pos, h'.nodup, h'.mark, fun {k} hk => ?_, h'.extends_, h'.scopes⟩
  rcases List.mem_cons.1 hk with rfl | hk
  · refine ⟨h.le (.inl hl), fun d hd => ?_⟩
    rw [hmark, hpos', hpos, hd]
    rfl
  · exact h'.top hk

section
variable (hb : Place base loops known room b₀)
include hb

theorem Inside.at (h : Inside base loops b₀ own tops b) :
    At (.of base room b) [] b.scopes 0 b :=
  .refl _ h.step.sound fun d hd => hb.room d (h.pos d hd)

/-- A part of a statement, inside of the loop around it or of one of its own. -/
theorem Inside.runs (h : Inside base loops b₀ own tops b)
    (hm : Runs base loops' known' known'' room m)
    (hk : b.scopes.Covers known') (hloops : ∀ l, loops'.head? = some l → loops.head? = some l ∨
      (l.leave ∈ own ∨ l.leave ∈ tops) ∧ (l.next ∈ own ∨ l.next ∈ tops)) :
    Ensures m b fun _ b' => Inside base loops b₀ own tops b' ∧ b'.scopes.Covers known'' := by
  have hplace : Place base loops' known' room b := by
    refine ⟨h.scopes, hk, h.step.sound, fun d hd => hb.room d (h.pos d hd),
      fun hk hd => hb.base hk (h.pos _ hd), fun {l d} hl hd => ?_⟩
    rcases hloops l hl with hl | ⟨hleave, hnext⟩
    · obtain ⟨hleave, hnext⟩ := hb.loop hl (h.pos d hd)
      have ht {k : Label} {e : Int} (he : loopTouch loops b₀.code.pos k e) : e = d :=
        Option.some.inj (he.2.symm.trans (h.pos d hd))
      exact ⟨h.step.takes hleave fun _ => ht, h.step.takes hnext fun _ => ht⟩
    · exact ⟨h.takes hleave hd, h.takes hnext hd⟩
  refine (hm b hplace).mono ?_
  rintro _ b' ⟨hran, hk'⟩
  refine ⟨h.go hran.step ?_ (.of_or hran.pos (.refl _)) hran.extends_ hran.scopes, hk'⟩
  rintro k d ⟨⟨l, hl, hkl⟩, hd⟩
  refine ⟨hd, ?_⟩
  rcases hloops l hl with hl | ⟨hleave, hnext⟩
  · exact .inl ⟨⟨l, hl, hkl⟩, hd⟩
  · rcases hkl with rfl | rfl
    · exact .inr hleave
    · exact .inr hnext

end

section
variable (h : Inside base loops b₀ own tops b)
include h

/-- Code that touches no label and leaves the stack as it was. -/
theorem Inside.seq
    (h' : At (.of base room b) [] s 0 b') (hext : b.scopes.Extends s)
    (hs : s.Sound) : Inside base loops b₀ own tops b' ∧ b'.code.pos = b.code.pos := by
  have hscopes := h'.scopes
  subst hscopes
  have hpos := h'.pos.trans (map_add_zero _)
  exact ⟨h.go h'.step (fun _ _ => False.elim) (hpos ▸ .refl _) hext hs, hpos⟩

/-- A condition that jumps to a label of its own. -/
theorem Inside.cond (hl : l ∈ own ∨ l ∈ tops)
    (h' : Branched base b.scopes l b b') : Inside base loops b₀ own tops b' := by
  refine h.go h'.step ?_ (.of_or h'.pos (.refl _)) (h'.scopes ▸ .refl _) (h'.scopes ▸ h.scopes)
  rintro _ d ⟨rfl, hd⟩
  exact ⟨hd, .inr hl⟩

/-- A test of the values on top of the stack. -/
theorem Inside.test (hl : l ∈ own ∨ l ∈ tops) {op : Opcode}
    {k : Nat} (h' : At (.of base room b) [] b.scopes k b') (hop : op.Branches k)
    (hroom : 0 ≤ room) :
    Ensures (Gen.jump op l) b' fun _ => Inside base loops b₀ own tops :=
  (h'.branch hop hroom fun _ hd => h.takes hl hd).mono fun _ _ => h.cond hl

end

theorem Inside.goto (hb : Place base loops known room b₀) (hroom : 0 ≤ room)
    (h : Inside base loops b₀ own tops b) (hl : l ∈ own ∨ l ∈ tops) :
    Ensures (Gen.jump .goto l) b fun _ => Inside base loops b₀ own tops :=
  h.test hl (h.at hb) (by decide) hroom

/-- The jump at the end of a round, if the code gets there. -/
theorem Inside.again (hb : Place base loops known room b₀) (hroom : 0 ≤ room)
    (h : Inside base loops b₀ own tops b) (hl : l ∈ own ∨ l ∈ tops) :
    Ensures (Gen.again l) b fun _ => Inside base loops b₀ own tops := by
  refine .bind (.isReachable ?_)
  split
  · exact h.goto hb hroom hl
  · exact .pure h

end

end Gen

end Classwright
