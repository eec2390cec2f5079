import Classwright.Proofs.Body.Refusals
import Classwright.Proofs.Token.Positions
import Classwright.Proofs.Unit.Members

/-!
Diagnostics point into the source. Whatever is refused of a source that has tokens, while it is parsed,
while its declarations are collected or while code is written for it, the diagnostic is at the line and
column of one of its tokens, the end marker among them (`ClassUnit.diagnostic_at_token`).
-/

namespace Classwright

/-! ### Tokens -/

/-- Tokens are in lines from the first one on. -/
theorem Source.line_pos (h : tokens src = .ok ts)
    (ht : t ∈ ts) : 1 ≤ t.line := by
  obtain ⟨offsets, hplaced, -⟩ := (run_of_tokens src).placed h
  obtain ⟨n, hn⟩ : ∃ n, StandsAt src t n := by
    have hstands := hplaced.stands
    clear hplaced h
    induction hstands with
    | nil => cases ht
    | cons hstands _ ih =>
      rcases List.mem_cons.1 ht with rfl | ht
      · exact ⟨_, hstands⟩
      · exact ih ht
  rw [hn.line, placeAt]
  dsimp only
  omega

variable {P : Int → Int → Prop}

theorem CompileFault.kind_ne_lex (fault : CompileFault) : fault.kind ≠ .lex := by
  unfold CompileFault.kind
  split <;> nofun

/-- A failure at a place has its diagnostic there, if it has one. -/
theorem Failure.At.diagnostic {e : Failure} (h : e.At P)
    (hd : e.report.diagnostic? = some d) : d.kind ≠ .lex ∧ d.tok.At P := by
  induction e with
  | lex e => exact h.elim
  | parse e =>
    rw [Failure.At] at h
    cases hd
    exact ⟨nofun, h⟩
  | compile tok fault =>
    rw [Failure.At] at h
    cases hd
    exact ⟨fault.kind_ne_lex, h⟩
  | within c e ih =>
    rw [Failure.At] at h
    exact ih h hd
  | _ => cases hd

namespace ClassUnit

/-! ### Methods -/

section
variable {env : Env} {globals : List Var} {c : ClassFile}

theorem failsAt_addMethod (access : Access) (name desc : Text) (b : Body) :
    FailsAt P (addMethod c access name desc b) := by
  refine .bind ?_ fun _ _ => .ok _
  unfold finish
  dsimp only
  split
  · exact .error trivial
  · exact .ok _

theorem fails_declareParams (hps : ∀ p ∈ ps, p.At P) (ts : List Ty) :
    Gen.Fails P (declareParams env ps ts) := by
  induction ps generalizing ts with
  | nil => exact Gen.fails_pure _
  | cons p ps ih =>
    rw [List.forall_mem_cons] at hps
    cases ts with
    | nil => exact Gen.fails_pure _
    | cons t ts => exact (Gen.fails_declare hps.1.tok _ _ _).discard.bind fun _ => ih hps.2 ts

theorem fails_functionBody (hf : f.decl.At P) :
    Gen.Fails P (functionBody env f) := by
  obtain ⟨htok, hparams, -, hbody, -⟩ := FuncDecl.at_iff.1 hf
  refine (fails_declareParams hparams _).bind fun _ => (Gen.fails_stmts hbody).bind fun _ => ?_
  refine Gen.fails_isReachable.bind fun live => ?_
  dsimp only
  split
  · exact .check (Gen.fails_refuse htok _) fun _ => Gen.fails_edit _
  · exact Gen.fails_pure _

theorem failsAt_addFunctions (hfs : ∀ f ∈ fs, f.decl.At P) :
    FailsAt P (addFunctions env globals c fs) := by
  induction fs generalizing c with
  | nil => exact .ok _
  | cons f fs ih =>
    rw [List.forall_mem_cons] at hfs
    rw [addFunctions]
    refine .bind ?_ fun c' _ => ih hfs.2
    unfold addFunction
    dsimp only
    split
    · next e he =>
      have hadded := FailsAt.bind (fails_functionBody hfs.1 _)
        (fun r _ => failsAt_addMethod (c := c) _ _ _ r.2) e he
      exact .error hadded
    · exact .ok _

theorem fails_initFields (s : StructType) (fs : List Var) : Gen.Fails P (initFields s fs) := by
  induction fs with
  | nil => exact Gen.fails_pure _
  | cons f fs ih =>
    refine (Gen.fails_alloc _).bind fun slot => (Gen.fails_edit _).bind fun _ => ?_
    exact (Gen.fails_edit _).bind fun _ => (Gen.fails_field _ _ _).bind fun _ => ih

theorem failsAt_structClasses (file : Text)
    (hss : ∀ s ∈ ss, ∀ f ∈ s.declared, f.decl.At P) :
    FailsAt P (structClasses env file globals ss) := by
  induction ss with
  | nil => exact .ok _
  | cons s ss ih =>
    rw [List.forall_mem_cons] at hss
    rw [structClasses]
    refine .bind ?_ fun _ _ => .bind (ih hss.2) fun _ _ => .ok _
    have hconstructor : Gen.Fails P (constructorBody s) :=
      (Gen.fails_edit _).bind fun _ => (Gen.fails_invoke _ _ _ _).bind fun _ =>
        (fails_initFields s _).bind fun _ => Gen.fails_edit _
    unfold structClass
    dsimp only
    refine .bind (hconstructor _) fun r _ => .bind (failsAt_addMethod _ _ _ _) fun _ _ => ?_
    exact failsAt_addFunctions hss.1

theorem fails_topLevelBody (hss : ∀ s ∈ ss, s.At P) :
    Gen.Fails P (topLevelBody env ss) := by
  induction ss with
  | nil => exact Gen.fails_pure _
  | cons s ss ih =>
    rw [List.forall_mem_cons] at hss
    rcases topLevelBody_cons env s ss with h | h
    · rw [h]
      exact ih hss.2
    · rw [h]
      exact (Gen.fails_stmt hss.1).bind fun _ => ih hss.2

theorem failsAt_addEntry : FailsAt P (addEntry env c) := by
  unfold addEntry
  split
  · exact .ok _
  · next f _ =>
    split
    · exact .ok _
    · have hentry : Gen.Fails P (entryBody f) :=
        (Gen.fails_alloc _).discard.bind fun _ => (Gen.fails_invoke _ _ _ _).bind fun _ =>
          Gen.fails_edit _
      exact .bind (hentry _) fun _ _ => failsAt_addMethod _ _ _ _

theorem failsAt_classesWithMain (file : Text)
    (hp : ∀ s ∈ p.stmts, s.At P) (hfunctions : ∀ f ∈ d.functions, f.decl.At P)
    (hstructs : ∀ s ∈ d.env.structs, ∀ f ∈ s.declared, f.decl.At P) :
    FailsAt P (classesWithMain d file p) := by
  refine .bind ?_ fun r _ => .bind (failsAt_structClasses file hstructs) fun _ _ => ?_
  · refine .bind (fails_topLevelBody hp _) fun r _ => ?_
    dsimp only
    split
    · exact .ok _
    · refine .bind ?_ fun _ _ => .ok _
      unfold finish
      dsimp only
      split
      · exact .error trivial
      · exact .ok _
  · exact .bind (failsAt_addFunctions hfunctions) fun _ _ => .bind failsAt_addEntry fun _ _ => .ok _

/-- Compiling a program fails at places where its tokens are. -/
theorem failsAt_ofProgram (options : UnitOptions) (funcs : Registry) (file : Text)
    (hp : ∀ s ∈ p.stmts, s.At P) : FailsAt P (ofProgram options funcs file p) := by
  rw [ofProgram_eq]
  split
  · exact .error trivial
  · refine .bind ?_ fun d hd => .bind ?_ fun _ _ => .ok _
    · exact (refused_declared options _ file hp).failsAt
    · obtain ⟨env, -, hmembers⟩ := members_of_declared hd
      have hfunctions : ∀ f ∈ d.functions, f.decl.At P := by
        intro f hf
        have hdecl := hp _ (hmembers.functions f hf).2
        rwa [Stmt.At] at hdecl
      have hstructs : ∀ s ∈ d.env.structs, ∀ f ∈ s.declared, f.decl.At P := by
        intro s hs f hf
        obtain ⟨sd, hsd, hmem⟩ := ((hmembers.structs s hs).declared f hf).2
        have hdecl := hp _ hsd
        rw [Stmt.At] at hdecl
        exact (StructDecl.at_iff.1 hdecl).2.2 _ hmem
      unfold classesOf
      split
      · exact failsAt_classesWithMain _ hp hfunctions hstructs
      · exact failsAt_structClasses _ hstructs

end

/-! ### Sources -/

theorem failsAt_startRegistry (config : Config) (imports : List Registry) :
    FailsAt P (startRegistry config imports) := by
  have hadd (is : List Registry) (r : Registry) : FailsAt P (addImports r is) := by
    induction is generalizing r with
    | nil => exact .ok _
    | cons i is ih =>
      rw [addImports]
      split
      · exact .error trivial
      · exact ih _
  unfold startRegistry
  split
  · exact .error trivial
  · exact hadd _ _

/-- Each failure for a source that has tokens is at a place of one of them. -/
theorem failsAt_of_tokens (hts : Source.tokens src = .ok ts)
    (hP : ∀ t ∈ ts, t.At P) :
    FailsAt P (Source.program src) ∧
      ∀ p, Source.program src = .ok p → ∀ s ∈ p.stmts, s.At P := by
  obtain ⟨herror, hok⟩ := Parser.of_program (Parser.left_of_tokens hts hP)
  unfold Source.program
  rw [hts]
  dsimp only
  cases hp : Parser.program ts with
  | error e =>
    refine ⟨.error (herror e hp), ?_⟩
    rintro _ ⟨⟩
  | ok p =>
    refine ⟨.ok _, ?_⟩
    rintro _ ⟨⟩
    exact (hok p hp).1

/-- The diagnostic of a computation that fails, if it has one. -/
def diagnosed? (x : Compiled α) : Option Diagnostic :=
  match x with
  | .ok _ => none
  | .error e => e.report.diagnostic?

theorem of_diagnosed? (h : diagnosed? x = some d) :
    ∃ e, x = .error e ∧ e.report.diagnostic? = some d := by
  cases x with
  | ok a => cases h
  | error e => exact ⟨e, rfl, h⟩

/-- Whatever is refused of a source that has tokens, the diagnostic is at the line and column of one of
them, and so it is somewhere. -/
theorem diagnostic_at_token {src : Text} {ts : List Token} (hts : Source.tokens src = .ok ts)
    {e : Failure}
    (he : Source.program src = .error e ∨
      (∃ p options funcs file, Source.program src = .ok p ∧
        ofProgram options funcs file p = .error e) ∨
      ∃ config imports file, ofSource config imports file src = .error e)
    {d : Diagnostic} (hd : e.report.diagnostic? = some d) :
    d.kind ≠ .lex ∧ (∃ t ∈ ts, t.line = d.tok.line ∧ t.col = d.tok.col) ∧
      d.tok.isNowhere = false := by
  have hP : ∀ t ∈ ts, t.At fun line col => ∃ t ∈ ts, t.line = line ∧ t.col = col :=
    fun t ht => ⟨t, ht, rfl, rfl⟩
  obtain ⟨hprogram, hstmts⟩ := failsAt_of_tokens hts hP
  have hat : e.At fun line col => ∃ t ∈ ts, t.line = line ∧ t.col = col := by
    rcases he with he | ⟨p, options, funcs, file, hp, he⟩ | ⟨config, imports, file, he⟩
    · exact hprogram e he
    · exact failsAt_ofProgram options funcs file (hstmts p hp) e he
    · refine FailsAt.bind (failsAt_startRegistry config imports) (fun funcs _ => ?_) e he
      exact .bind hprogram fun p hp => failsAt_ofProgram _ funcs file (hstmts p hp)
  obtain ⟨hkind, t, ht, hline, hcol⟩ := hat.diagnostic hd
  refine ⟨hkind, ⟨t, ht, hline, hcol⟩, ?_⟩
  have hpos := Source.line_pos hts ht
  rw [Token.isNowhere, beq_eq_false_iff_ne]
  intro hnowhere
  rw [hline, hnowhere] at hpos
  exact absurd hpos (by decide)

/-- A source with an index access, whose callee is none of its tokens. -/
def sampleIndex : Text := "def f(x: int) \x7b\n  x[1]\n\x7d"

theorem diagnostic_at_token_sampleIndex :
    ∃ ts e d, Source.tokens sampleIndex = .ok ts ∧ ofSource {} [] "a.ix" sampleIndex = .error e ∧
      e.report.diagnostic? = some d ∧ d.kind = .call ∧ d.tok ∉ ts ∧
      ∃ t ∈ ts, t.line = d.tok.line ∧ t.col = d.tok.col := by
  have hrun : (((Source.tokens sampleIndex).toOption.bind fun ts =>
      (diagnosed? (ofSource {} [] "a.ix" sampleIndex)).map fun d =>
        decide (d.kind = .call ∧ d.tok ∉ ts)) = some true) := by
    decide +kernel
  obtain ⟨ts, hts, hrun⟩ := Option.bind_eq_some_iff.1 hrun
  obtain ⟨d, hd, hrun⟩ := Option.map_eq_some_iff.1 hrun
  obtain ⟨e, he, hd⟩ := of_diagnosed? hd
  obtain ⟨hkind, hmem⟩ := of_decide_eq_true hrun
  have hat := diagnostic_at_token (of_toOption hts) (.inr (.inr ⟨_, _, _, he⟩)) hd
  exact ⟨ts, e, d, of_toOption hts, he, hd, hkind, hmem, hat.2.1⟩

end ClassUnit

end Classwright
