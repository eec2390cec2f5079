import Classwright.Proofs.Body.Statement
import Classwright.Proofs.Ty.Same

/-!
Loops over ranges and elements, and cases over unions. Each keeps what it goes through in slots of the
frame, so the stack is as it was at every label of its own.
-/

namespace Classwright

namespace Gen

variable {base : Option Int} {env : Env} {known : List Text} {room : Int}

/-! ### Ranges -/

/-- The rounds of a loop over a range after its test: the body, the next number, and the jump
back. -/
theorem Inside.countRounds {loops loops' : List LoopLabels}
    {top : Label}
    (hb : Place base loops known room b₀) (h : Inside base loops b₀ [leave, next] tops b)
    (htop : top ∈ tops) (hroom : 0 ≤ room)
    (hbody : Runs base (⟨leave, next⟩ :: loops') known known room body) :
    Ensures (do
      body
      Gen.bind next
      if ← isReachable then
        edit (·.inc slot 1)
        jump .goto top
      Gen.bind leave) b fun _ => Ran base loops b₀ := by
  refine (h.runs hb hbody (h.covers hb) ?_).andThen ?_
  · rintro _ ⟨⟩
    exact .inr ⟨.inl (.head _), .inl (.tail _ (.head _))⟩
  rintro _ b₁ ⟨h₁, -⟩
  refine (h₁.bind [leave] []).andThen ?_
  rintro _ b₂ ⟨h₂, -⟩
  refine .bind (.isReachable ?_)
  split
  · refine ((h₂.at hb).inc slot 1 (Int.le_refl 0) hroom).andThen fun _ b₃ hat => ?_
    obtain ⟨h₃, -⟩ := h₂.seq hat (.refl _) h₂.scopes
    refine (h₃.goto hb hroom (.inr htop)).andThen fun _ b₄ h₄ => ?_
    exact (h₄.bind [] []).mono fun _ _ h₅ => h₅.1.ran
  · exact (h₂.bind [] []).mono fun _ _ h₃ => h₃.1.ran

theorem runs_forRange (tok : Token) (name : Text) {first last : Expr}
    (hfirst : ∀ s : Scopes, s.Sound → s.Covers known → Obeys base env s first)
    (hlast : ∀ s : Scopes, s.Sound → s.Covers (name :: known) → Obeys base env s last)
    (hroom : 8 * first.weight + 8 ≤ room) (hroom' : 8 * last.weight + 8 ≤ room)
    (hbody : ∀ l, Runs base (l :: env.loops) (name :: known) (name :: known) room (body l)) :
    Runs base env.loops known known room (forRange env tok name first last body) := by
  refine @Runs.inScope base env.loops known known room _ fun b hb => ?_
  have hfpos := first.weight_pos
  have hlpos := last.weight_pos
  -- the number that is counted, and the one that it is counted up to
  refine (hb.at.bound ((hfirst _ hb.scopes hb.known).value (Int.le_refl _)) (Int.le_refl 0)
    (by omega) (by dsimp only; omega)).andThen fun _ b₁ h₁ => ?_
  refine (h₁.declare hb.scopes tok name rfl rfl false).andThen ?_
  rintro i b₂ ⟨h₂, hi⟩
  refine (h₂.store (t := .int) rfl i.slot (by decide) (by dsimp only; omega)).andThen fun _ b₃ h₃ => ?_
  have h₃ : At (.of base room b) [] b₂.scopes 0 b₃ := h₃
  have hknown : b₂.scopes.Covers (name :: known) := (hb.known.extends hi.extends_).cons hi.isSome
  refine (h₃.bound ((hlast _ hi.scopes hknown).value (Int.le_refl _)) (Int.le_refl 0)
    (by omega) (by dsimp only; omega)).andThen fun _ b₄ h₄ => ?_
  refine (h₄.alloc hi.scopes .int).andThen ?_
  rintro stop b₅ ⟨h₅, hext₅, hs₅⟩
  refine (h₅.store (t := .int) rfl stop (by decide) (by dsimp only; omega)).andThen fun _ b₆ h₆ => ?_
  obtain ⟨hran, hb₆⟩ := hb.seq (h₆.congr (m := 0) rfl) (hi.extends_.trans hext₅) hs₅
    (hknown.extends hext₅)
  refine hb₆.inside.newLabel.andThen ?_
  rintro top b₇ ⟨h₇, hpos₇⟩
  refine h₇.newLabel.andThen ?_
  rintro next b₈ ⟨h₈, hpos₈⟩
  refine h₈.newLabel.andThen ?_
  rintro leave b₉ ⟨h₉, hpos₉⟩
  refine (h₉.bindTop [leave, next] [] (hpos₉.trans (hpos₈.trans hpos₇))).andThen fun _ b₁₀ h₁₀ => ?_
  -- the test leaves the loop
  refine ((h₁₀.at hb₆).load (t := .int) rfl i.slot (Int.le_refl 0)
    (by change (0 : Int) + 1 ≤ room; omega)).andThen fun _ b₁₁ h₁₁ => ?_
  refine (h₁₁.load (t := .int) rfl stop (by decide) (by change (0 : Int) + 1 + 1 ≤ room; omega)).andThen
    fun _ b₁₂ h₁₂ => ?_
  refine (h₁₀.test (k := 2) (l := leave) (.inl (.head _)) (h₁₂.congr rfl) (by decide)
    (by omega)).andThen fun _ b₁₃ h₁₃ => ?_
  refine (h₁₃.countRounds hb₆ (.head _) (by omega) (hbody ⟨leave, next⟩)).mono fun _ _ h => ?_
  exact ⟨hran.trans h, hb.known.extends (hran.trans h).extends_⟩

/-! ### Elements -/

theorem runs_forEach (tok : Token) (name : Text) {iter : Expr} {body : LoopLabels → Gen Unit}
    (hiter : ∀ s : Scopes, s.Sound → s.Covers known → Obeys base env s iter)
    (hroom : 8 * iter.weight ≤ room)
    (hbody : ∀ l, Runs base (l :: env.loops) (name :: known) (name :: known) room (body l)) :
    Runs base env.loops known known room (forEach env tok name iter body) := by
  refine @Runs.inScope base env.loops known known room _ fun b hb => ?_
  have hpos := iter.weight_pos
  refine (hb.at.run ((hiter _ hb.scopes hb.known).value (Int.le_refl _))
    (by dsimp only; omega)).andThen ?_
  rintro t b₁ ⟨h₁, -⟩
  dsimp only
  by_cases hcheck : (!t.isReference || t.isString || t.isNull) = true
  · rw [if_pos hcheck]
    exact .bind (.refuse _ _)
  rw [if_neg hcheck]
  have href : t.isReference = true := by
    by_contra hn
    simp [hn] at hcheck
  have h₁ : At (.of base room b) [] b.scopes 1 b₁ := h₁.congr (by
    rw [Int.zero_add, Ty.size_of_isReference href]
    rfl)
  refine (h₁.invoke (p := 1) (q := 1) ⟨[], some (.cls iterator)⟩ (by decide) (by decide)
    (.inr ⟨.inr (.inr rfl), rfl⟩) rfl (Int.le_refl _) (by change (1 : Int) + 1 - 1 ≤ room; omega)).andThen
    fun _ b₂ h₂ => ?_
  have h₂ : At (.of base room b) [] b.scopes 1 b₂ := h₂
  refine (h₂.declare hb.scopes tok name rfl rfl false).andThen ?_
  rintro x b₃ ⟨h₃, hx⟩
  refine (h₃.alloc hx.scopes .object).andThen ?_
  rintro it b₄ ⟨h₄, hext₄, hs₄⟩
  refine (h₄.store (t := .object) rfl it (by decide) (by dsimp only; omega)).andThen fun _ b₅ h₅ => ?_
  obtain ⟨hran, hb₅⟩ := hb.seq (h₅.congr (m := 0) rfl) (hx.extends_.trans hext₄) hs₄
    (((hb.known.extends hx.extends_).cons hx.isSome).extends hext₄)
  refine hb₅.inside.newLabel.andThen ?_
  rintro top b₆ ⟨h₆, hpos₆⟩
  refine h₆.newLabel.andThen ?_
  rintro leave b₇ ⟨h₇, hpos₇⟩
  refine (h₇.bindTop [leave] [] (hpos₇.trans hpos₆)).andThen fun _ b₈ h₈ => ?_
  -- there may be no other element
  refine ((h₈.at hb₅).load (t := .object) rfl it (Int.le_refl 0)
    (by change (0 : Int) + 1 ≤ room; omega)).andThen fun _ b₉ h₉ => ?_
  refine (h₉.invoke (p := 1) (q := 1) ⟨[], some .bool⟩ (by decide) (by decide)
    (.inr ⟨.inr (.inr rfl), rfl⟩) rfl (by decide) (by change (0 : Int) + 1 + 1 - 1 ≤ room; omega)).andThen
    fun _ b₁₀ h₁₀ => ?_
  refine (h₈.test (k := 1) (l := leave) (.inl (.head _)) (h₁₀.congr rfl) (by decide)
    (by omega)).andThen fun _ b₁₁ h₁₁ => ?_
  -- the next one is kept in the variable
  refine ((h₁₁.at hb₅).load (t := .object) rfl it (Int.le_refl 0)
    (by change (0 : Int) + 1 ≤ room; omega)).andThen fun _ b₁₂ h₁₂ => ?_
  refine (h₁₂.invoke (p := 1) (q := 1) ⟨[], some .object⟩ (by decide) (by decide)
    (.inr ⟨.inr (.inr rfl), rfl⟩) rfl (by decide) (by change (0 : Int) + 1 + 1 - 1 ≤ room; omega)).andThen
    fun _ b₁₃ h₁₃ => ?_
  refine (h₁₃.store (t := .object) rfl x.slot (by decide)
    (by change (0 : Int) + 1 + 1 - 1 ≤ room; omega)).andThen fun _ b₁₄ h₁₄ => ?_
  obtain ⟨h₁₄, -⟩ := h₁₁.seq (h₁₄.congr (m := 0) rfl) (.refl _) h₁₁.scopes
  refine (h₁₄.rounds hb₅ (.head _) (by omega) (hbody ⟨leave, top⟩)).mono fun _ _ h => ?_
  exact ⟨hran.trans h, hb.known.extends (hran.trans h).extends_⟩

/-! ### Cases -/

theorem isVoid_of_hasMember (h : ∀ m ∈ members, m.isVoid = false)
    (ht : Ty.hasMember members t = true) : t.isVoid = false := by
  obtain ⟨m, hm, hsame⟩ := Ty.hasMember_iff.1 ht
  replace h := h m hm
  cases hv : t.isVoid with
  | false => rfl
  | true =>
    cases Ty.isVoid_iff.1 hv
    cases m <;> simp_all [Ty.same, Ty.void, Ty.isVoid]

/-- The types of the arms of a case, each one of the members. -/
theorem ensures_armTypes (henv : env.Sound)
    (arms : List CaseArm) (seen : List Ty)
    (hseen : ∀ t ∈ seen, t.isTight = true ∧ Ty.hasMember members t = true) :
    Ensures (armTypes env union members seen arms) b fun ts b' => b' = b ∧
      ts.length = seen.length + arms.length ∧
        ∀ t ∈ ts, t.isTight = true ∧ Ty.hasMember members t = true := by
  induction arms generalizing seen with
  | nil =>
    refine .pure ⟨rfl, by simp, fun t ht => hseen t (List.mem_reverse.1 ht)⟩
  | cons a arms ih =>
    unfold armTypes
    refine .bind (.lift (Env.stackSafe_typeName _) fun t ht => ?_)
    dsimp only
    by_cases hmember : (!Ty.hasMember members t) = true
    · rw [if_pos hmember]
      exact .bind (.refuse _ _)
    rw [if_neg hmember]
    by_cases hdup : seen.any (·.same t) = true
    · rw [if_pos hdup]
      exact .bind (.refuse _ _)
    rw [if_neg hdup]
    refine (ih (t :: seen) ?_).mono ?_
    · intro u hu
      rcases List.mem_cons.1 hu with rfl | hu
      · exact ⟨Env.tight_of_typeName henv.aliases ht, by simpa using hmember⟩
      · exact hseen u hu
    · rintro ts b' ⟨hb, hlength, hts⟩
      refine ⟨hb, ?_, hts⟩
      rw [hlength, List.length_cons, List.length_cons]
      omega

/-- A case is over a union, or a union or nothing. -/
theorem ensures_caseTypes (henv : env.Sound) (tok : Token) (x : Expr)
    (arms : List CaseArm) :
    Ensures (caseTypes env tok x arms) b fun ts b' => b' = b ∧ ts.length = arms.length ∧
      ∃ members, (env.typeOf b.scopes x = .ok (.union members) ∨
        env.typeOf b.scopes x = .ok (.nullable (.union members))) ∧
        ∀ t ∈ ts, t.isTight = true ∧ Ty.hasMember members t = true := by
  unfold caseTypes
  refine (ensures_typeOf rfl x).andThen ?_
  rintro t b' ⟨rfl, ht⟩
  extract_lets rest
  have hunion (t : Ty) (ht : env.typeOf b'.scopes x = .ok t ∨ env.typeOf b'.scopes x = .ok (.nullable t)) :
      Ensures (rest t) b' fun ts b => b = b' ∧ ts.length = arms.length ∧
        ∃ members, (env.typeOf b'.scopes x = .ok (.union members) ∨
          env.typeOf b'.scopes x = .ok (.nullable (.union members))) ∧
          ∀ t ∈ ts, t.isTight = true ∧ Ty.hasMember members t = true := by
    dsimp only [rest]
    split
    · next members =>
      refine (ensures_armTypes henv arms [] (List.forall_mem_nil _)).andThen ?_
      rintro ts b' ⟨rfl, hlength, hts⟩
      split
      · exact .bind (.refuse _ _)
      · exact .bind (.pure (.pure ⟨rfl, by simpa using hlength, members, ht, hts⟩))
    · exact .refuse _ _
  split
  · exact .bind (.pure (hunion _ (.inr ht)))
  · exact .bind (.pure (hunion _ (.inl ht)))

/-- What an arm does with a value of its type: the value is kept in the variable of the arm. -/
theorem runs_armBody (tok : Token) (name : Text) (ht : t.isTight = true)
    (hvoid : t.isVoid = false) (value : Nat)
    (hroom : 2 ≤ room) (hbody : Runs base loops (name :: known) known' room body) :
    Runs base loops known known room (inScope do
      edit (·.load .object value)
      edit (·.type .checkcast (instanceClass t))
      if let .prim p := t then unbox p
      let v ← declare env tok name t false
      store v
      body) := by
  refine @Runs.inScope base loops known known room _ fun b hb => ?_
  have hsize := t.size_le_two
  have hstore : ∀ b', At (.of base room b) [] b.scopes t.size b' →
      Ensures (do
        let v ← declare env tok name t false
        store v
        body) b' fun _ b' => Ran base loops b b' ∧ b'.scopes.Covers known := by
    intro b' h'
    refine (h'.declare hb.scopes tok name ht hvoid false).andThen ?_
    rintro v b₁ ⟨h₁, hv⟩
    refine (h₁.storeVar hv.sound (by rw [hv.under, hv.type]; omega)
      (by dsimp only; omega)).andThen fun _ b₂ h₂ => ?_
    obtain ⟨hran, hb₂⟩ := hb.seq (h₂.congr (m := 0) (by rw [hv.under, hv.type]; omega)) hv.extends_
      hv.scopes ((hb.known.extends hv.extends_).cons hv.isSome)
    refine (hbody b₂ hb₂).mono ?_
    rintro _ b₃ ⟨hran₃, -⟩
    exact ⟨hran.trans hran₃, hb.known.extends (hran.trans hran₃).extends_⟩
  refine (hb.at.load (t := .object) rfl value (Int.le_refl 0)
    (by change (0 : Int) + 1 ≤ room; omega)).andThen fun _ b₁ h₁ => ?_
  refine (h₁.type (p := 1) (q := 1) ⟨rfl, rfl, rfl⟩ (instanceClass t) (by decide)
    (by change (0 : Int) + 1 + 1 - 1 ≤ room; omega)).andThen fun _ b₂ h₂ => ?_
  have h₂ : At (.of base room b) [] b.scopes 1 b₂ := h₂
  cases t with
  | prim p =>
    refine (h₂.unbox p (Int.le_refl 1) (by change (1 : Int) + 1 ≤ room; omega)).andThen
      fun _ b₃ h₃ => hstore b₃ (h₃.congr ?_)
    change (1 : Int) - 1 + p.size = p.size
    omega
  | _ => exact hstore b₂ h₂

/-- An arm ends at the label after all arms, or goes on at the next arm. -/
theorem Inside.arm {loops : List LoopLabels} {b₀ b : Body} {done : Label}
    (hb : Place base loops known room b₀) (h : Inside base loops b₀ [done] [] b) (tok : Token)
    (name : Text) {t : Ty} (ht : t.isTight = true) (hvoid : t.isVoid = false) (value : Nat)
    (hroom : 2 ≤ room) {known' : List Text} {body : Gen Unit}
    (hbody : Runs base loops (name :: known) known' room body) :
    Ensures (Gen.arm env tok name t value done body) b fun _ => Inside base loops b₀ [done] [] := by
  refine h.newLabel.andThen ?_
  rintro next b₁ ⟨h₁, -⟩
  dsimp only
  -- the test goes on at the next arm
  refine ((h₁.at hb).load (t := .object) rfl value (Int.le_refl 0)
    (by change (0 : Int) + 1 ≤ room; omega)).andThen fun _ b₂ h₂ => ?_
  refine (h₂.type (p := 1) (q := 1) ⟨rfl, rfl, rfl⟩ (instanceClass t) (by decide)
    (by change (0 : Int) + 1 + 1 - 1 ≤ room; omega)).andThen fun _ b₃ h₃ => ?_
  refine (h₁.test (k := 1) (l := next) (.inl (.head _)) (h₃.congr rfl) (by decide)
    (by omega)).andThen fun _ b₄ h₄ => ?_
  refine (h₄.runs hb (runs_armBody tok name ht hvoid value hroom hbody) (h₄.covers hb)
    fun _ => .inl).andThen fun _ b₅ h₅ => ?_
  refine (h₅.1.again hb (by omega) (.inl (.tail _ (.head _)))).andThen fun _ b₆ h₆ => ?_
  exact (h₆.bind [] [done]).mono fun _ _ h₇ => h₇.1

/-- Arms in turn, each of a type that values can have. -/
def RunsArms (base : Option Int) (env : Env) (known : List Text) (room : Int)
    (arms : List CaseArm) : Prop :=
  ∀ ⦃b₀ b : Body⦄ ⦃done : Label⦄ ⦃types : List Ty⦄ (value : Nat),
    Place base env.loops known room b₀ → Inside base env.loops b₀ [done] [] b →
    types.length = arms.length → (∀ t ∈ types, t.isTight = true ∧ t.isVoid = false) →
    Ensures (caseArms env arms types value done) b fun _ => Inside base env.loops b₀ [done] []

theorem runsArms_nil : RunsArms base env known room [] := by
  intro b₀ b done types value _ h _ _
  rw [Gen.caseArms]
  exact .pure h

theorem runsArms_cons
    (hroom : 2 ≤ room)
    (hbody : Runs base env.loops (name :: known) known' room (stmts env ss))
    (harms : RunsArms base env known room arms) :
    RunsArms base env known room (.mk tok type name (.mk tok' ss) :: arms) := by
  intro b₀ b done types value hb h hlength htypes
  cases types with
  | nil => cases hlength
  | cons t types =>
    obtain ⟨ht, hvoid⟩ := htypes t (.head _)
    rw [Gen.caseArms, Gen.caseArm]
    refine (h.arm hb tok name ht hvoid value hroom hbody).andThen fun _ b₁ h₁ => ?_
    exact harms value hb h₁ (Nat.succ.inj hlength) fun u hu => htypes u (.tail _ hu)

theorem runs_case (henv : env.Sound) (tok : Token) {x : Expr} {arms : List CaseArm}
    (hx : ∀ s : Scopes, s.Sound → s.Covers known → Obeys base env s x)
    (hroom : 8 * x.weight ≤ room) (harms : RunsArms base env known room arms) :
    Runs base env.loops known known room (stmt env (.case tok x arms)) := by
  intro b hb
  have hpos := x.weight_pos
  rw [Gen.stmt]
  refine (ensures_caseTypes henv tok x arms).andThen ?_
  rintro types b ⟨rfl, hlength, members, htype, htypes⟩
  refine hb.inScope fun hb' => ?_
  generalize hstart : ({ b with scopes := b.scopes.push } : Body) = b' at hb' ⊢
  refine .bind (.discard ((hb'.at.run ((hx _ hb'.scopes hb'.known).value (Int.le_refl _))
    (by dsimp only; omega)).mono ?_))
  rintro t b₁ ⟨h₁, htight, hsame⟩
  -- the type is the one that the arms were checked against
  obtain ⟨hsize, hmembers⟩ : t.size = 1 ∧ ∀ m ∈ members, m.isVoid = false := by
    have hadds : b.scopes.Adds (fun _ => False) b'.scopes := fun name =>
      .inl (hstart ▸ b.scopes.lookup?_push name)
    have hsame u hu := hsame u (Env.typeOf_below hadds x (fun _ _ h => h.elim) u hu)
    rcases htype with htype | htype
    · cases hsame _ htype
      exact ⟨rfl, fun m hm => (Ty.isTight_union.1 htight m hm).2⟩
    · cases hsame _ htype
      exact ⟨rfl, fun m hm => (Ty.isTight_union.1 (Ty.isTight_nullable.1 htight).2 m hm).2⟩
  refine (h₁.alloc hb'.scopes .object).andThen ?_
  rintro value b₂ ⟨h₂, hext₂, hs₂⟩
  refine (h₂.store (t := .object) rfl value (by rw [hsize]; decide)
    (by rw [hsize]; change (0 : Int) + 1 ≤ room; omega)).andThen fun _ b₃ h₃ => ?_
  obtain ⟨h₃, -⟩ := hb'.inside.seq (h₃.congr (m := 0) (by rw [hsize]; rfl)) hext₂ hs₂
  refine h₃.newLabel.andThen ?_
  rintro done b₄ ⟨h₄, -⟩
  refine (harms value hb' h₄ hlength fun t ht => ?_).andThen fun _ b₅ h₅ => ?_
  · exact ⟨(htypes t ht).1, isVoid_of_hasMember hmembers (htypes t ht).2⟩
  · exact (h₅.bind [] []).mono fun _ _ h₆ => h₆.1.ran

/-! ### All statements -/

/-- The body of a loop has the names and types of what is around it. -/
theorem sound_inLoop (henv : env.Sound) (l : LoopLabels) :
    { env with loops := l :: env.loops }.Sound :=
  ⟨henv.structs, henv.self, henv.aliases, henv.funcs⟩

theorem obeys_closed (henv : env.Sound) {x : Expr} (hx : x.isClosed known = true) (s : Scopes)
    (hs : s.Sound) (hknown : s.Covers known) : Obeys base env s x :=
  obeys_expr henv hs hknown x hx

mutual

/-- Statements start and end at one depth, if their assignments declare variables only where they
stand alone. -/
theorem runs_stmt {env : Env} {known : List Text} (henv : env.Sound) (st : Stmt) (hst : st.isSettled known = true)
    (hroom : 8 * (st.weight : Int) ≤ room) :
    Runs base env.loops known (st.declares ++ known) room (stmt env st) := by
  match st with
  | .expr x =>
    rw [Gen.stmt]
    rw [Stmt.isSettled] at hst
    rw [Stmt.weight] at hroom
    exact runs_expr henv hst (by omega)
  | .var d =>
    rw [Gen.stmt]
    rw [Stmt.isSettled] at hst
    rw [Stmt.weight] at hroom
    exact runs_var henv hst (by omega)
  | .block body =>
    rw [Gen.stmt]
    rw [Stmt.isSettled] at hst
    rw [Stmt.weight] at hroom
    exact runs_blockStmt henv body hst (by omega)
  | .cond i =>
    rw [Gen.stmt]
    rw [Stmt.isSettled] at hst
    rw [Stmt.weight] at hroom
    exact runs_ifStmt henv i hst (by omega)
  | .loop tok x body =>
    rw [Stmt.isSettled, Bool.and_eq_true] at hst
    rw [Stmt.weight] at hroom
    exact runs_loop tok (obeys_closed henv hst.1) (by omega) fun l =>
      runs_blockStmt (sound_inLoop henv l) body hst.2 (by omega)
  | .each tok name iter body =>
    rw [Stmt.weight] at hroom
    by_cases hrange : ∃ tok' first last, iter = .binary tok' .range first last
    · obtain ⟨tok', first, last, rfl⟩ := hrange
      rw [Gen.stmt]
      rw [Stmt.isSettled, Bool.and_eq_true, Bool.and_eq_true] at hst
      rw [Expr.weight] at hroom
      exact runs_forRange tok name (obeys_closed henv hst.1.1) (obeys_closed henv hst.1.2) (by omega)
        (by omega) fun l => runs_blockStmt (sound_inLoop henv l) body hst.2 (by omega)
    · have hne : ∀ tok' first last, iter = .binary tok' .range first last → False :=
        fun tok' first last h => hrange ⟨tok', first, last, h⟩
      rw [Stmt.isSettled, Bool.and_eq_true] at hst
      · rw [Gen.stmt]
        · exact runs_forEach tok name (obeys_closed henv hst.1) (by omega) fun l =>
            runs_blockStmt (sound_inLoop henv l) body hst.2 (by omega)
        · exact hne
      · exact hne
  | .case tok x arms =>
    rw [Stmt.isSettled, Bool.and_eq_true] at hst
    rw [Stmt.weight] at hroom
    exact runs_case henv tok (obeys_closed henv hst.1) (by omega)
      (runs_caseArms henv arms hst.2 (by omega))
  | .ret tok value =>
    rw [Gen.stmt]
    refine runs_ret henv tok ?_ (by omega)
    rintro x rfl
    rw [Stmt.isSettled] at hst
    rw [Stmt.weight] at hroom
    exact ⟨hst, by omega⟩
  | .branch tok =>
    rw [Gen.stmt]
    exact runs_branch tok (by omega)
  | .func d | .struct d | .typeAlias d | .use d =>
    rw [Gen.stmt]
    exact fun b _ => .refuse _ _

theorem runs_stmts {env : Env} {known : List Text} (henv : env.Sound) (ss : List Stmt)
    (hss : Stmt.areSettled known ss = true)
    (hroom : 8 * (Stmt.weights ss : Int) ≤ room) :
    Runs base env.loops known known room (stmts env ss) := by
  match ss with
  | [] => exact runs_nil
  | st :: ss =>
    rw [Stmt.areSettled, Bool.and_eq_true] at hss
    rw [Stmt.weights] at hroom
    exact runs_cons (runs_stmt henv st hss.1 (by omega)) (runs_stmts henv ss hss.2 (by omega))

theorem runs_blockStmt {env : Env} {known : List Text} (henv : env.Sound) (body : Block)
    (hbody : body.isSettled known = true)
    (hroom : 8 * (body.weight : Int) ≤ room) :
    Runs base env.loops known known room (block env body) := by
  match body with
  | .mk tok ss =>
    rw [Block.isSettled] at hbody
    rw [Block.weight] at hroom
    exact runs_block (runs_stmts henv ss hbody (by omega))

theorem runs_ifStmt {env : Env} {known : List Text} (henv : env.Sound) (i : IfStmt) (hi : i.isSettled known = true)
    (hroom : 8 * (i.weight : Int) ≤ room) :
    Runs base env.loops known known room (ifStmt env i) := by
  match i with
  | .mk tok x body other =>
    rw [IfStmt.isSettled, Bool.and_eq_true, Bool.and_eq_true] at hi
    rw [IfStmt.weight] at hroom
    exact runs_if tok (obeys_closed henv hi.1.1) (by omega) (runs_blockStmt henv body hi.1.2 (by omega))
      (ends_else henv other hi.2 (by omega))

theorem ends_else {env : Env} {known : List Text} (henv : env.Sound) (e : Else) (he : e.isSettled known = true)
    (hroom : 8 * (e.weight : Int) ≤ room) : Ends base env known room e := by
  match e with
  | .none => exact ends_none
  | .block body =>
    rw [Else.isSettled] at he
    rw [Else.weight] at hroom
    exact ends_block (by omega) (runs_blockStmt henv body he hroom)
  | .cond i =>
    rw [Else.isSettled] at he
    rw [Else.weight] at hroom
    exact ends_cond (by omega) (runs_ifStmt henv i he hroom)

theorem runs_caseArms {env : Env} {known : List Text} (henv : env.Sound) (arms : List CaseArm)
    (harms : CaseArm.areSettled known arms = true) (hroom : 8 * (CaseArm.weights arms : Int) ≤ room) :
    RunsArms base env known room arms := by
  match arms with
  | [] => exact runsArms_nil
  | .mk tok type name (.mk tok' ss) :: arms =>
    rw [CaseArm.areSettled, Bool.and_eq_true, CaseArm.isSettled, Block.isSettled] at harms
    rw [CaseArm.weights, CaseArm.weight, Block.weight] at hroom
    exact runsArms_cons (by omega) (runs_stmts henv ss harms.1 (by omega))
      (runs_caseArms henv arms harms.2 (by omega))

end

end Gen

end Classwright
