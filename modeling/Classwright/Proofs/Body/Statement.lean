import Classwright.Proofs.Body.Places

/-!
What statements do to the stack: each one ends at the depth where it started, unless nothing is
reached after it, and jumps to the labels of the loop around it with that depth only.
-/

namespace Classwright

namespace Gen

variable {base : Option Int} {env : Env} {known : List Text} {room : Int}

/-! ### Simple statements -/

/-- An expression whose value is dropped. -/
theorem runs_drop (h : ∀ s : Scopes, s.Sound → s.Covers known → Obeys base env s x)
    (hroom : 8 * x.weight ≤ room) :
    Runs base env.loops known known room (Functor.discard (expr env x .drop)) := by
  intro b hb
  refine .discard ((h _ hb.scopes hb.known room .drop hroom b rfl hb.sound hb.room).mono ?_)
  rintro t b₁ ⟨h₁, -⟩
  have hscopes := h₁.scopes
  rw [← hscopes] at h₁
  exact ⟨h₁.ran (hscopes ▸ .refl _) (hscopes ▸ hb.scopes), hscopes ▸ hb.known⟩

/-- A variable that is null at first may hold any object. -/
theorem of_ifNull {t : Ty} (hvoid : t.isVoid = false) (htight : t.isTight = true) :
    (if t.isNull then Ty.object else t).isVoid = false ∧
      (if t.isNull then Ty.object else t).isTight = true ∧
      (t.isPrim = true → (if t.isNull then Ty.object else t).isPrim = true) := by
  split
  · next hnull =>
    refine ⟨rfl, rfl, fun hp => ?_⟩
    cases t <;> first | cases hnull; done | cases hp
  · exact ⟨hvoid, htight, id⟩

/-- The first assignment to a name declares a variable. -/
theorem At.declareAssign
    (h : At o own s n b) (hs : s.Sound) (tok nameTok : Token) (name : Text)
    (hx : Pushes o.base k s (expr env x .value) (fun t => t.size) (env.Types s x)) (hn : 0 ≤ n)
    (hk : 0 ≤ k) (hroom : n + k + 6 ≤ o.room) :
    Ensures (declareAssign env tok nameTok name (typeOf env x) (expr env x .value) false) b
      fun _ b' => At o own b'.scopes n b' ∧ s.Extends b'.scopes ∧ b'.scopes.Sound ∧
        (b'.scopes.lookup? name).isSome = true := by
  unfold Gen.declareAssign
  refine (ensures_typeOf h.scopes x).andThen ?_
  rintro t _ ⟨rfl, ht⟩
  dsimp only
  by_cases hvoid : t.isVoid = true
  · rw [if_pos hvoid]
    exact .bind (.refuse _ _)
  · rw [if_neg hvoid]
    have hvoid : t.isVoid = false := by simpa using hvoid
    refine (h.run hx (by omega)).andThen ?_
    rintro vt b₁ ⟨h₁, htight, hvt⟩
    obtain rfl := hvt t ht
    obtain ⟨huvoid, hutight, huprim⟩ := of_ifNull hvoid htight
    generalize (if t.isNull then Ty.object else t) = u at *
    have htsize := t.size_le_two
    have husize := u.size_le_two
    refine (h₁.convert hvoid huvoid hutight (fun hp => .inl (huprim hp)) (by omega) (by omega)).andThen
      fun _ b₂ h₂ => ?_
    rw [Int.add_sub_cancel] at h₂
    refine (h₂.declare hs nameTok name hutight huvoid false).andThen ?_
    rintro v b₃ ⟨h₃, hv⟩
    refine (h₃.storeVar hv.sound (by rw [hv.under, hv.type]; omega) (by omega)).andThen
      fun _ b₄ h₄ => .pure ?_
    have hscopes := h₄.scopes
    rw [hscopes]
    refine ⟨h₄.congr ?_, hv.extends_, hv.scopes, hv.isSome⟩
    rw [hv.under, hv.type]
    omega

/-- An assignment to a name that is a statement of its own. -/
theorem runs_assign (henv : env.Sound) (tok nameTok : Token) (op : AssignOp) (name : Text)
    (hvalue : value.isClosed known = true)
    (hroom : 8 * (Expr.assign tok op (.ident nameTok name) value).weight ≤ room) :
    Runs base env.loops known (name :: known) room
      (Functor.discard (expr env (.assign tok op (.ident nameTok name) value) .drop)) := by
  intro b hb
  have hobeys : Obeys base env b.scopes value := obeys_expr henv hb.scopes hb.known value hvalue
  cases hv : b.scopes.lookup? name with
  | some v =>
    have hassign : Obeys base env b.scopes (.assign tok op (.ident nameTok name) value) :=
      obeys_assign henv hb.scopes tok op (fun t n e => by cases e; rw [hv]; rfl)
        (fun _ _ _ e => by cases e) hobeys
    refine .discard ((hassign room .drop hroom b rfl hb.sound hb.room).mono ?_)
    rintro t b₁ ⟨h₁, -⟩
    have hscopes := h₁.scopes
    rw [← hscopes] at h₁
    refine ⟨h₁.ran (hscopes ▸ .refl _) (hscopes ▸ hb.scopes), ?_⟩
    rw [hscopes]
    exact hb.known.cons (by rw [hv]; rfl)
  | none =>
    rw [Expr.weight, Expr.weight] at hroom
    refine .discard ?_
    rw [expr.eq_def]
    refine .bind (.lift (Env.stackSafe_fold _) fun c hc => ?_)
    cases hc
    refine .bind (.get ?_)
    rw [hv]
    dsimp only
    split
    · exact .bind (.refuse _ _)
    · refine (hb.at.declareAssign hb.scopes tok nameTok name
        (hobeys.value (Int.le_refl _)) (Int.le_refl 0) (by omega) (by dsimp only; omega)).mono ?_
      rintro t b₁ ⟨h₁, hext, hs, hsome⟩
      exact ⟨h₁.ran hext hs, (hb.known.extends hext).cons hsome⟩

/-- An expression that is a statement of its own. -/
theorem runs_expr (henv : env.Sound) (hx : x.isSettled known = true)
    (hroom : 8 * x.weight ≤ room) :
    Runs base env.loops known ((Stmt.expr x).declares ++ known) room
      (Functor.discard (expr env x .drop)) := by
  unfold Expr.isSettled at hx
  split at hx
  · exact runs_assign henv _ _ _ _ hx hroom
  · next hne =>
    have hnone : (Stmt.expr x).declares = [] := by
      unfold Stmt.declares
      split
      · next heq =>
        cases heq
        exact absurd rfl (hne _ _ _ _ _)
      · next heq => cases heq
      · rfl
    rw [hnone]
    exact runs_drop (fun s hs hk => obeys_expr henv hs hk x hx) hroom

theorem runs_var (henv : env.Sound) (hx : d.value.isClosed known = true)
    (hroom : 8 * d.value.weight + 8 ≤ room) :
    Runs base env.loops known (d.name :: known) room (varDecl env d) := by
  intro b hb
  have hobeys : Obeys base env b.scopes d.value := obeys_expr henv hb.scopes hb.known d.value hx
  have hpos := d.value.weight_pos
  -- the value is there, and a variable of the type is declared for it
  have hstore : ∀ (vt t : Ty) b', At (.of base room b) [] b.scopes vt.size b' →
      vt.isVoid = false → t.isVoid = false → t.isTight = true →
      (vt.isPrim = true → t.isPrim = true ∨ t.assignable vt = true) →
      Ensures (do
        convert vt t
        let v ← declare env d.tok d.name t d.const
        store v) b' fun _ b' => Ran base env.loops b b' ∧ b'.scopes.Covers (d.name :: known) := by
    intro vt t b' h' hvoid htvoid htight hfit
    have hvsize := vt.size_le_two
    have htsize := t.size_le_two
    refine (h'.convert hvoid htvoid htight hfit (Int.le_refl _) (by dsimp only; omega)).andThen
      fun _ b₂ h₂ => ?_
    refine (h₂.declare hb.scopes d.tok d.name htight htvoid d.const).andThen ?_
    rintro v b₃ ⟨h₃, hv⟩
    refine (h₃.storeVar hv.sound (by rw [hv.under, hv.type]; omega) (by dsimp only; omega)).mono
      fun _ b₄ h₄ => ?_
    have hscopes := h₄.scopes
    rw [← hscopes] at h₄ hv
    refine ⟨(h₄.congr ?_).ran hv.extends_ hv.scopes, (hb.known.extends hv.extends_).cons hv.isSome⟩
    rw [hv.under, hv.type]
    omega
  have hvalue := hb.at.run (hobeys.value (Int.le_refl _)) (by dsimp only; omega)
  unfold Gen.varDecl
  dsimp only
  split
  · refine .bind (.pure (.bind (hvalue.mono ?_)))
    rintro vt b₁ ⟨h₁, htight, -⟩
    rw [Int.zero_add] at h₁
    dsimp only
    by_cases hvoid : vt.isVoid = true
    · rw [if_pos hvoid]
      exact .bind (.refuse _ _)
    · rw [if_neg hvoid]
      have hvoid : vt.isVoid = false := by simpa using hvoid
      obtain ⟨huvoid, hutight, huprim⟩ := of_ifNull hvoid htight
      exact .bind (.pure (hstore vt _ b₁ h₁ hvoid huvoid hutight fun hp => .inl (huprim hp)))
  · refine .bind (.lift (Env.stackSafe_typeRef _) fun t ht => ?_)
    split
    · exact .bind (.refuse _ _)
    · next htvoid =>
      refine .bind (.pure (.bind (hvalue.mono ?_)))
      rintro vt b₁ ⟨h₁, -, -⟩
      rw [Int.zero_add] at h₁
      dsimp only
      split
      · exact .bind (.refuse _ _)
      · next hcheck =>
        have hassign : t.assignable vt = true := by simpa using hcheck
        exact .bind (.pure (hstore vt t b₁ h₁ (Ty.isVoid_of_assignable hassign).2 (by simpa using htvoid)
          (Env.tight_of_typeRef henv.aliases ht) fun _ => .inr hassign))

/-! ### Jumps away -/

theorem effect_return (t : Ty) :
    let op : Opcode := if t.isVoid then .returnVoid else Opcode.ireturn.forType t
    op.effect = (t.size, 0) ∧ op.isTerminal = true ∧ op.shape = .plain := by
  cases t with
  | prim p => cases p <;> decide
  | _ => exact ⟨rfl, rfl, rfl⟩

/-- A return takes its operand and leaves what was below it. -/
theorem At.ret (loops : List LoopLabels)
    (h : At (.of base room b) [] s t.size b') (hroom : 0 ≤ room)
    (hbase : ∀ k d, base = some k → b.code.pos = some d → d = k) (hs : s.Sound)
    (hext : b.scopes.Extends s) :
    Ensures (edit (·.ret t)) b' fun _ b'' => Ran base loops b b'' ∧ b''.scopes = s ∧
      b''.code.dead = true := by
  obtain ⟨heffect, hterm, hshape⟩ := effect_return t
  refine .edit ?_
  unfold Code.ret
  generalize (if t.isVoid then Opcode.returnVoid else Opcode.ireturn.forType t) = op at *
  rw [Code.op_eq _ hshape]
  have hpop : (⟨op, .plain⟩ : Instr).pop = t.size := congrArg (fun e => (e.1 : Int)) heffect
  have hpush : (⟨op, .plain⟩ : Instr).push = 0 := congrArg (fun e => (e.2 : Int)) heffect
  have hi : ∀ d, b'.code.pos = some d → b'.code.Ready base ⟨op, .plain⟩ d := by
    intro d hd
    obtain ⟨e, he, rfl⟩ := h.pos_eq_some hd
    obtain ⟨hnonneg, hlimit⟩ := h.start e he
    dsimp only at hlimit
    refine ⟨by omega, by omega, by omega, ?_, nofun⟩
    intro k hk _
    rw [hpop, hbase k e hk he]
  have hpos : (b'.code.emit ⟨op, .plain⟩).pos = none := by
    rw [Code.pos_emit hi]
    exact if_pos hterm
  have hscopes := h.scopes
  refine ⟨⟨?_, .inr hpos, hscopes ▸ hext, hscopes ▸ hs⟩, hscopes, Code.pos_eq_none.1 hpos⟩
  exact (h.step.emit hi nofun).imp fun _ _ => False.elim

theorem runs_ret (henv : env.Sound) (tok : Token)
    (hx : ∀ x, value = some x → x.isClosed known = true ∧ 8 * (x.weight : Int) + 8 ≤ room)
    (hroom : 0 ≤ room) :
    Runs base env.loops known known room (returnStmt env tok value) := by
  intro b hb
  unfold Gen.returnStmt
  dsimp only
  by_cases htop : env.topLevel = true
  · rw [if_pos htop]
    exact .bind (.refuse _ _)
  rw [if_neg htop]
  refine .bind (.get ?_)
  generalize hresult : (b.scopes.frame.bind (·.result)).getD .void = result
  have htight : result.isTight = true := by
    rw [← hresult]
    cases hr : b.scopes.frame.bind (·.result) with
    | none => rfl
    | some t =>
      obtain ⟨f, hf, ht⟩ := Option.bind_eq_some_iff.1 hr
      exact hb.scopes.result hf ht
  have hret : ∀ (t : Ty) b', At (.of base room b) [] b.scopes t.size b' →
      Ensures (edit (·.ret t)) b' fun _ b'' => Ran base env.loops b b'' ∧ b''.scopes.Covers known := by
    intro t b' h'
    refine (At.ret env.loops h' hroom (fun k d => hb.base) hb.scopes (.refl _)).mono ?_
    rintro _ b'' ⟨hran, hscopes, -⟩
    exact ⟨hran, hscopes ▸ hb.known⟩
  cases value with
  | none =>
    dsimp only
    by_cases hvoid : (!result.isVoid) = true
    · rw [if_pos hvoid]
      exact .bind (.refuse _ _)
    · rw [if_neg hvoid]
      exact hret .void b hb.at
  | some x =>
    obtain ⟨hclosed, hxroom⟩ := hx x rfl
    have hobeys : Obeys base env b.scopes x := obeys_expr henv hb.scopes hb.known x hclosed
    dsimp only
    by_cases hvoid : result.isVoid = true
    · rw [if_pos hvoid]
      exact .bind (.refuse _ _)
    · rw [if_neg hvoid]
      refine (hb.at.run (hobeys.value (Int.le_refl _)) (by dsimp only; omega)).andThen ?_
      rintro t b₁ ⟨h₁, -⟩
      have htsize := t.size_le_two
      have hpos := x.weight_pos
      by_cases hcheck : (!result.assignable t) = true
      · rw [if_pos hcheck]
        exact .bind (.refuse _ _)
      · rw [if_neg hcheck]
        have hassign : result.assignable t = true := by simpa using hcheck
        obtain ⟨hrvoid, htvoid⟩ := Ty.isVoid_of_assignable hassign
        refine (h₁.convert htvoid hrvoid htight (fun _ => .inr hassign) (by omega)
          (by dsimp only; omega)).andThen fun _ b₂ h₂ => hret result b₂ (h₂.congr ?_)
        omega

/-- Leaving the loop around, or starting its next round. -/
theorem runs_branch (tok : Token) (hroom : 0 ≤ room) :
    Runs base env.loops known known room (branch env tok) := by
  intro b hb
  unfold Gen.branch
  split
  · exact .refuse _ _
  · next l loops hloops =>
    generalize hk : (if tok.kind = .keyword .break_ then l.leave else l.next) = k
    have hkl : k = l.leave ∨ k = l.next := by
      rw [← hk]
      split
      · exact .inl rfl
      · exact .inr rfl
    have hhead : env.loops.head? = some l := by rw [hloops]; rfl
    refine .edit ?_
    have hinstr : b.code.jump .goto k = b.code.emit ⟨.goto, .label k⟩ := rfl
    rw [hinstr]
    have hpop : (⟨.goto, .label k⟩ : Instr).pop = 0 := rfl
    have hpush : (⟨.goto, .label k⟩ : Instr).push = 0 := rfl
    have hi : ∀ d, b.code.pos = some d → b.code.Ready base ⟨.goto, .label k⟩ d := by
      intro d hd
      have hlimit := hb.room d hd
      have hnonneg := hb.sound.pos_nonneg hd
      refine ⟨by omega, by omega, by omega, fun _ => nofun, ?_⟩
      rintro _ ⟨⟩
      rw [hpop, hpush, Int.add_zero, Int.sub_zero]
      obtain ⟨hleave, hnext⟩ := hb.loop hhead hd
      rcases hkl with rfl | rfl
      · exact hleave
      · exact hnext
    have hpos : (b.code.emit ⟨.goto, .label k⟩).pos = none := by
      rw [Code.pos_emit hi]
      rfl
    refine ⟨⟨(Code.Step.refl hb.sound).emit hi ?_, .inr hpos, .refl _, hb.scopes⟩, hb.known⟩
    rintro _ d - ⟨⟩ hd
    rw [hpop, hpush, Int.add_zero, Int.sub_zero]
    exact ⟨⟨l, hhead, hkl⟩, hd⟩

/-! ### Loops -/

section
variable {loops : List LoopLabels} {b₀ b : Body} {own tops : List Label}
  (hb : Place base loops known room b₀)
include hb

theorem Inside.covers (h : Inside base loops b₀ own tops b) : b.scopes.Covers known :=
  hb.known.extends h.extends_

/-- A condition that jumps to a label of its own. -/
theorem Inside.jumps (h : Inside base loops b₀ own tops b)
    (hx : ∀ s : Scopes, s.Sound → s.Covers known → Obeys base env s x) (hroom : 8 * x.weight ≤ room)
    (hl : l ∈ own) (jumpIf : Bool) :
    Ensures (Functor.discard (expr env x (.jump l jumpIf))) b fun _ =>
      Inside base loops b₀ own tops := by
  obtain ⟨-, m, hm, -⟩ := h.step.own hl
  have hlt := (Array.getElem?_eq_some_iff.1 hm).1
  exact ((hx _ h.scopes (h.covers hb)).jumps hroom l jumpIf b rfl h.step.sound
    (fun d hd => hb.room d (h.pos d hd)) hlt fun _ hd => h.takes (.inl hl) hd).mono
      fun _ _ => h.cond (.inl hl)

/-- The rounds of a loop after its condition: the body, which may leave the loop or go back to its
start, and the jump back. -/
theorem Inside.rounds {top : Label}
    (h : Inside base loops b₀ [leave] tops b) (htop : top ∈ tops) (hroom : 0 ≤ room)
    (hbody : Runs base (⟨leave, top⟩ :: loops') known known room body) :
    Ensures (do body; Gen.again top; Gen.bind leave) b fun _ => Ran base loops b₀ := by
  refine (h.runs hb hbody (h.covers hb) ?_).andThen ?_
  · rintro _ ⟨⟩
    exact .inr ⟨.inl (.head _), .inr htop⟩
  rintro _ b₁ ⟨h₁, -⟩
  refine (h₁.again hb hroom (.inr htop)).andThen fun _ b₂ h₂ => ?_
  exact (h₂.bind [] []).mono fun _ _ h₃ => h₃.1.ran

end

/-- A loop: its labels are reached with the depth where it starts, from its condition, its end and
all jumps out of its body. -/
theorem runs_loop (tok : Token) {body : Block}
    (hx : ∀ s : Scopes, s.Sound → s.Covers known → Obeys base env s x)
    (hroom : 8 * x.weight ≤ room)
    (hbody : ∀ l, Runs base (l :: env.loops) known known room
      (block { env with loops := l :: env.loops } body)) :
    Runs base env.loops known known room (stmt env (.loop tok x body)) := by
  intro b hb
  have hpos : 0 ≤ room := by have := x.weight_pos; omega
  rw [Gen.stmt]
  refine hb.inside.newLabel.andThen ?_
  rintro top b₁ ⟨h₁, hpos₁⟩
  refine h₁.newLabel.andThen ?_
  rintro leave b₂ ⟨h₂, hpos₂⟩
  refine (h₂.bindTop [leave] [] (hpos₂.trans hpos₁)).andThen fun _ b₃ h₃ => ?_
  -- the condition leaves the loop
  refine (h₃.jumps hb hx hroom (.head _) false).andThen fun _ b₄ h₄ => ?_
  refine (h₄.rounds hb (.head _) hpos (hbody ⟨leave, top⟩)).mono fun _ _ h => ?_
  exact ⟨h, hb.known.extends h.extends_⟩

/-- A bound of a range is a whole number. -/
theorem At.bound
    (h : At o own s n b)
    (hx : Pushes o.base k s (expr env x .value) (fun t => t.size) (env.Types s x)) (hn : 0 ≤ n)
    (hk : 8 ≤ k) (hroom : n + k ≤ o.room) :
    Ensures (bound env x) b fun _ => At o own s (n + 1) := by
  unfold Gen.bound
  refine (h.run hx hroom).andThen ?_
  rintro t b₁ ⟨h₁, -⟩
  have hsize := t.size_le_two
  split
  · exact .bind (.refuse _ _)
  · next hcheck =>
    have hassign : Ty.int.assignable t = true := by simpa using hcheck
    refine .bind (.pure ((h₁.convert (Ty.isVoid_of_assignable hassign).2 rfl rfl
      (fun _ => .inl rfl) (by omega) (by omega)).mono fun _ b₂ h₂ => h₂.congr ?_))
    change _ + (1 : Int) = _
    omega

/-! ### Branches -/

/-- What follows the first branch of a condition ends where the condition started. -/
def Ends (base : Option Int) (env : Env) (known : List Text) (room : Int) (e : Else) : Prop :=
  ∀ ⦃b₀ b : Body⦄ ⦃start : Label⦄, Place base env.loops known room b₀ →
    Inside base env.loops b₀ [start] [] b →
    Ensures (elseBranch env e start) b fun _ => Ran base env.loops b₀

theorem ends_none : Ends base env known room .none := by
  intro b₀ b start _ h
  rw [Gen.elseBranch]
  exact (h.bind [] []).mono fun _ _ h₁ => h₁.1.ran

/-- What is done otherwise: it starts at a label, and is jumped over. -/
theorem Inside.otherwise
    (hb : Place base loops known room b₀) (hroom : 0 ≤ room) (h : Inside base loops b₀ [start] [] b)
    (hm : Runs base loops known known room m) :
    Ensures (do
      let done ← Gen.newLabel
      Gen.again done
      Gen.bind start
      m
      Gen.bind done) b fun _ => Ran base loops b₀ := by
  refine h.newLabel.andThen ?_
  rintro done b₁ ⟨h₁, -⟩
  refine (h₁.again hb hroom (.inl (.head _))).andThen fun _ b₂ h₂ => ?_
  refine (h₂.bind [done] []).andThen fun _ b₃ h₃ => ?_
  refine (h₃.1.runs hb hm (h₃.1.covers hb) fun _ => .inl).andThen fun _ b₄ h₄ => ?_
  exact (h₄.1.bind [] []).mono fun _ _ h₅ => h₅.1.ran

theorem ends_block (hroom : 0 ≤ room)
    (h : Runs base env.loops known known room (block env body)) :
    Ends base env known room (.block body) := by
  intro b₀ b start hb hinside
  rw [Gen.elseBranch]
  exact hinside.otherwise hb hroom h

theorem ends_cond (hroom : 0 ≤ room)
    (h : Runs base env.loops known known room (ifStmt env i)) :
    Ends base env known room (.cond i) := by
  intro b₀ b start hb hinside
  rw [Gen.elseBranch]
  exact hinside.otherwise hb hroom h

theorem runs_if (tok : Token)
    (hx : ∀ s : Scopes, s.Sound → s.Covers known → Obeys base env s x)
    (hroom : 8 * x.weight ≤ room) (hbody : Runs base env.loops known known room (block env body))
    (hother : Ends base env known room other) :
    Runs base env.loops known known room (ifStmt env (.mk tok x body other)) := by
  intro b hb
  rw [Gen.ifStmt]
  refine hb.inside.newLabel.andThen ?_
  rintro start b₁ ⟨h₁, -⟩
  refine (h₁.jumps hb hx hroom (.head _) false).andThen fun _ b₂ h₂ => ?_
  refine (h₂.runs hb hbody (h₂.covers hb) fun _ => .inl).andThen fun _ b₃ h₃ => ?_
  refine (hother hb h₃.1).mono fun _ _ h => ⟨h, hb.known.extends h.extends_⟩

/-! ### Statements in turn -/

theorem Runs.forget
    (h : Runs base loops known known' room m) : Runs base loops known known room m := by
  intro b hb
  refine (h b hb).mono ?_
  rintro _ b' ⟨hran, -⟩
  exact ⟨hran, hb.known.extends hran.extends_⟩

theorem runs_nil : Runs base env.loops known known room (stmts env []) := by
  intro b hb
  rw [Gen.stmts]
  exact .pure ⟨.refl hb, hb.known⟩

/-- Statements up to the first one that cannot be reached. -/
theorem runs_cons
    (h : Runs base env.loops known (known' ++ known) room (stmt env st))
    (hss : Runs base env.loops (known' ++ known) (known' ++ known) room (stmts env ss)) :
    Runs base env.loops known known room (stmts env (st :: ss)) := by
  intro b hb
  rw [Gen.stmts]
  refine .bind (.isReachable ?_)
  split
  · exact (h.bind hss).forget b hb
  · exact .pure ⟨.refl hb, hb.known⟩

theorem runs_block
    (h : Runs base env.loops known known' room (stmts env ss)) :
    Runs base env.loops known known room (block env (.mk tok ss)) := by
  rw [Gen.block]
  exact h.inScope

end Gen

end Classwright
