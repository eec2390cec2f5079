import Classwright.Proofs.Syntax.Lines

/-!
The text of a program is read back as the program. Blocks and what is built of them are read by
recursion over the tree; what follows an `if` statement must not be an `else` branch of its own
(`EndsIf`), and the items of a struct are told apart by their first token (`StartsItem`).
-/

open Classwright.Grammar Classwright.Parser

namespace Classwright

/-! ### Blocks -/

/-- The text of a block below `depth` others is read as the block. -/
def Block.Reads (depth : Nat) (b : Block) : Prop :=
  ∀ pos : Pos, ∃ t ts pos' b', Source.Scans pos (Layout.block depth b) Source.Any (t :: ts) pos'
    ∧ t.kind = .symbol .lbrace ∧ t.line = pos.line ∧ b'.bare = b.bare
    ∧ Takes (fun ts => plain (block ts)) (t :: ts) b'

theorem Layout.stmts_eq_flatMap (depth : Nat) (ss : List Stmt) :
    Layout.stmts depth ss = ss.flatMap (Layout.stmt depth) := by
  induction ss with
  | nil => rw [stmts, List.flatMap_nil]
  | cons s ss ih => rw [stmts, ih, List.flatMap_cons]

theorem Layout.block_mk (depth : Nat) (tok : Token) (ss : List Stmt) :
    Layout.block depth (.mk tok ss) = Symbol.lbrace.spelling
      ++ ((if ss.isEmpty then [] else ("\n" : Text) ++ (ss.flatMap (Layout.stmt (depth + 1)) ++ tabs depth))
      ++ Symbol.rbrace.spelling) := by
  cases ss with
  | nil => rw [block]; rfl
  | cons s ss =>
    rw [block, stmts_eq_flatMap, List.flatMap_cons]
    simp only [List.isEmpty_cons, Bool.false_eq_true, if_false, List.append_assoc]
    rfl

theorem Block.Reads.mk
    (h : Stmt.RowReads (ss.flatMap (Layout.stmt (depth + 1))) ss) (tok : Token) :
    (Block.mk tok ss).Reads depth := by
  intro pos
  have hopen := Source.Scans.bracket pos (s := .lbrace) (by decide)
  -- between the braces stand the statements, unless there are none
  have hitems : ∃ ts pos' ss', Source.Scans (pos.after Symbol.lbrace.spelling)
      (if ss.isEmpty then [] else "\n" ++ (ss.flatMap (Layout.stmt (depth + 1)) ++ Layout.tabs depth))
      Source.Any ts pos' ∧ Stmt.bares ss' = Stmt.bares ss ∧ ∀ stop us, stop.kind = .symbol .rbrace →
        plain (blockItems (ts ++ stop :: us)) = .ok (ss', us) := by
    cases ss with
    | nil => exact ⟨[], _, [], .nil, rfl, fun stop us hstop => RunsTo.nil.blockItems hstop⟩
    | cons s ss =>
      obtain ⟨ts, pos₁, ss', hscan, hbares, -, -, hrun⟩ :=
        h ⟨(pos.after Symbol.lbrace.spelling).line + 1, 1⟩
      obtain ⟨pos₂, htabs⟩ := Source.Scans.tabs pos₁ depth
      have hscan' := (Source.Scans.newline _).skip (hscan.andThen htabs)
      rw [List.append_nil] at hscan'
      exact ⟨ts, pos₂, ss', hscan', hbares, fun stop us hstop =>
        (hrun stop us (.inl hstop)).blockItems hstop⟩
  obtain ⟨ts, pos₁, ss', hscan, hbares, hread⟩ := hitems
  have hclose := Source.Scans.bracket pos₁ (s := .rbrace) (by decide)
  have hall := hopen.consThen (hscan.andThen hclose)
  rw [Layout.block_mk]
  refine ⟨_, _, _, .mk (pos.token (.symbol .lbrace) Symbol.lbrace.spelling) ss', hall, rfl, rfl, ?_,
    fun rest => ?_⟩
  · rw [Block.bare, Block.bare, hbares]
  · dsimp only
    rw [List.cons_append, List.append_assoc, block]
    exact plain_expect_bind rfl fun _ => plain_bind_of_ok (hread _ _ rfl) fun _ => rfl

theorem scans_spaced (pos : Pos) (s : Symbol) : ∃ t pos',
    Source.Scans pos (" " ++ (s.spelling ++ " ")) Source.Any [t] pos' ∧ t.kind = .symbol s :=
  ⟨_, _, .spaced pos s, rfl⟩

section
variable {depth : Nat} {x : Expr} {b : Block}

/-- An expression and a block after it. -/
theorem scans_head (hx : x.Sound) (hb : b.Reads depth) (pos : Pos) :
    ∃ ts pos' y b', Source.Scans pos (Layout.expr x ++ (" " ++ Layout.block depth b)) Source.Any ts pos'
      ∧ y.bare = x.bare ∧ b'.bare = b.bare
      ∧ ∀ rest, ∃ mid, plain (expr 0 (ts ++ rest)) = .ok (y, mid) ∧ plain (block mid) = .ok (b', rest) := by
  obtain ⟨ts, pos₁, hscan₁, -, y, hy, -, hbarex⟩ := hx.reprinted.whole pos
  obtain ⟨t, us, pos₂, b', hscan₂, ht, -, hbareb, hread⟩ := hb (pos₁.after " ")
  have hscan := hscan₁.append ((Source.Scans.space pos₁).skip hscan₂) fun rest _ =>
    Source.endsBoth_of_blank (by decide) _
  refine ⟨_, pos₂, y, b', hscan, hbarex, hbareb, fun rest => ⟨_, ?_, hread rest⟩⟩
  rw [List.append_assoc]
  exact plain_expr_before hy (by rw [ht]; rfl) _

/-! ### Loops and branches -/

/-- A block is read as a statement. -/
theorem plain_stmt_block (ht : t.kind = .symbol .lbrace)
    (h : plain (block (t :: ts)) = .ok (b, rest)) : plain (stmt (t :: ts)) = .ok (.block b, rest) := by
  rw [stmt.eq_def]
  dsimp only
  rw [ht]
  exact plain_bind_of_ok h fun _ => rfl

theorem Stmt.LineReads.block (hb : b.Reads depth) : (Stmt.block b).LineReads (Layout.block depth b) := by
  intro pos
  obtain ⟨t, ts, pos', b', hscan, ht, hline, hbare, hread⟩ := hb pos
  refine ⟨t, ts, pos', .block b', hscan.mono fun _ _ => trivial, hline, .inr ht, ?_, fun next us _ => ?_⟩
  · rw [Stmt.bare, Stmt.bare, hbare]
  · exact plain_stmt_block ht (hread (next :: us))

theorem Stmt.LineReads.loop (hx : x.Sound) (hb : b.Reads depth) (tok : Token) :
    (Stmt.loop tok x b).LineReads (Keyword.while_.spelling ++ " "
      ++ (Layout.expr x ++ (" " ++ Layout.block depth b))) := by
  intro pos
  obtain ⟨ts, pos', y, b', hscan, hbarex, hbareb, hread⟩ := scans_head hx hb _
  refine ⟨_, ts, pos', .loop (pos.word .while_) y b',
    ((Source.Scans.word pos .while_).consThen hscan).mono fun _ _ => trivial, rfl,
    .inl ⟨.while_, nofun, rfl⟩, ?_, fun next us _ => ?_⟩
  · rw [Stmt.bare, Stmt.bare, hbarex, hbareb]
  · obtain ⟨mid, hexpr, hblock⟩ := hread (next :: us)
    rw [List.cons_append, stmt.eq_def]
    exact plain_bind_of_ok hexpr fun _ => plain_bind_of_ok hblock fun _ => rfl

theorem Stmt.LineReads.each (hname : IsName name) (hx : x.Sound) (hb : b.Reads depth)
    (tok : Token) : (Stmt.each tok name x b).LineReads (Keyword.for_.spelling ++ " "
      ++ (name ++ (" " ++ (Symbol.colon.spelling ++ " ")
      ++ (Layout.expr x ++ (" " ++ Layout.block depth b))))) := by
  intro pos
  have hword := Source.Scans.word pos .for_
  generalize (pos.after Keyword.for_.spelling).after " " = pos₁ at hword
  obtain ⟨colon, pos₂, hspaced, hcolon⟩ := scans_spaced (pos₁.after name) .colon
  obtain ⟨ts, pos', y, b', hscan, hbarex, hbareb, hread⟩ := scans_head hx hb pos₂
  have hall := hword.consThen ((hname.scans pos₁).cons (hspaced.consThen hscan) fun _ _ =>
    Source.endsWord_of_blank (by decide) _)
  refine ⟨_, _, pos', .each (pos.word .for_) name y b', hall.mono fun _ _ => trivial, rfl,
    .inl ⟨.for_, nofun, rfl⟩, ?_, fun next us _ => ?_⟩
  · rw [Stmt.bare, Stmt.bare, hbarex, hbareb]
  · obtain ⟨mid, hexpr, hblock⟩ := hread (next :: us)
    rw [List.cons_append, List.cons_append, List.cons_append, stmt.eq_def]
    exact plain_expect_bind rfl fun _ => plain_expect_bind hcolon fun _ =>
        plain_bind_of_ok hexpr fun _ => plain_bind_of_ok hblock fun _ => rfl

end

/-- What follows the block of an `if` statement is read as its last part. -/
inductive EndsIf : List Token → Else → List Token → Prop where
  | none {t : Token} {ts : List Token} (ht : t.kind ≠ .keyword .else_) : EndsIf (t :: ts) .none (t :: ts)
  | block {t u : Token} {ts rest : List Token} {b : Block} (ht : t.kind = .keyword .else_)
    (hu : u.kind = .symbol .lbrace) (h : plain (Parser.block (u :: ts)) = .ok (b, rest)) :
    EndsIf (t :: u :: ts) (.block b) rest
  | cond {t u : Token} {ts rest : List Token} {c : IfStmt} (ht : t.kind = .keyword .else_)
    (hu : u.kind = .keyword .if_) (h : plain (ifStmt u ts) = .ok (c, rest)) :
    EndsIf (t :: u :: ts) (.cond c) rest

theorem EndsIf.read
    (h : EndsIf ts₂ e rest) (hx : plain (expr 0 ts) = .ok (x, ts₁))
    (hb : plain (Parser.block ts₁) = .ok (b, ts₂)) (tok : Token) :
    plain (ifStmt tok ts) = .ok (.mk tok x b e, rest) := by
  rw [ifStmt]
  refine plain_bind_of_ok hx fun _ => plain_bind_of_ok hb fun _ => ?_
  cases h with
  | none ht =>
    dsimp only
    rw [pass_cons_of_ne ht]
    rfl
  | block ht hu h =>
    dsimp only
    rw [pass_of_kind ht]
    dsimp only
    rw [hu]
    exact plain_bind_of_ok h fun _ => rfl
  | cond ht hu h =>
    dsimp only
    rw [pass_of_kind ht]
    dsimp only
    rw [hu]
    exact plain_bind_of_ok h fun _ => rfl

/-- The text of an `if` statement is read before any token but `else`. -/
def IfStmt.Reads (depth : Nat) (c : IfStmt) : Prop :=
  ∀ pos : Pos, ∃ ts pos' c', Source.Scans pos (Layout.ifStmt depth c) Source.Any (pos.word .if_ :: ts) pos'
    ∧ c'.bare = c.bare ∧ ∀ next us, next.kind ≠ .keyword .else_ →
      plain (ifStmt (pos.word .if_) (ts ++ next :: us)) = .ok (c', next :: us)

def Else.Reads (depth : Nat) (e : Else) : Prop :=
  ∀ pos : Pos, ∃ ts pos' e', Source.Scans pos (Layout.elseBranch depth e) Source.Any ts pos'
    ∧ e'.bare = e.bare ∧ ∀ next us, next.kind ≠ .keyword .else_ →
      EndsIf (ts ++ next :: us) e' (next :: us)

section
variable {depth : Nat} {x : Expr} {b : Block} {e : Else} {c : IfStmt}

theorem Else.Reads.none : Else.none.Reads depth :=
  fun pos => ⟨[], pos, .none, .nil, rfl, fun _ _ hnext => .none hnext⟩

theorem scans_else (pos : Pos) : ∃ t pos', Source.Scans pos " else " Source.Any [t] pos'
    ∧ t.kind = .keyword .else_ :=
  ⟨_, _, (Source.Scans.space pos).skip (Source.Scans.word _ .else_), rfl⟩

theorem Else.Reads.block (hb : b.Reads depth) : (Else.block b).Reads depth := by
  intro pos
  obtain ⟨t, pos₁, helse, ht⟩ := scans_else pos
  obtain ⟨u, us, pos', b', hscan, hu, -, hbare, hread⟩ := hb pos₁
  refine ⟨_, pos', .block b', helse.consThen hscan, ?_, fun next vs _ => .block ht hu (hread _)⟩
  rw [Else.bare, Else.bare, hbare]

theorem Else.Reads.cond (hc : c.Reads depth) : (Else.cond c).Reads depth := by
  intro pos
  obtain ⟨t, pos₁, helse, ht⟩ := scans_else pos
  obtain ⟨us, pos', c', hscan, hbare, hread⟩ := hc pos₁
  refine ⟨_, pos', .cond c', helse.consThen hscan, ?_, fun next vs hnext =>
    .cond ht rfl (hread next vs hnext)⟩
  rw [Else.bare, Else.bare, hbare]

theorem IfStmt.Reads.mk (hx : x.Sound) (hb : b.Reads depth) (he : e.Reads depth) (tok : Token) :
    (IfStmt.mk tok x b e).Reads depth := by
  intro pos
  obtain ⟨ts, pos₁, y, b', hscan₁, hbarex, hbareb, hread⟩ := scans_head hx hb _
  obtain ⟨us, pos₂, e', hscan₂, hbaree, hends⟩ := he pos₁
  have hscan := (Source.Scans.word pos .if_).consThen (hscan₁.andThen hscan₂)
  have htext : Layout.ifStmt depth (.mk tok x b e) = Keyword.if_.spelling ++ " "
      ++ (Layout.expr x ++ (" " ++ Layout.block depth b) ++ Layout.elseBranch depth e) := by
    rw [Layout.ifStmt]
    simp only [List.append_assoc]
    rfl
  rw [htext]
  refine ⟨_, pos₂, .mk (pos.word .if_) y b' e', hscan, ?_, fun next vs hnext => ?_⟩
  · rw [IfStmt.bare, IfStmt.bare, hbarex, hbareb, hbaree]
  · obtain ⟨mid, hexpr, hblock⟩ := hread (us ++ next :: vs)
    rw [List.append_assoc]
    exact (hends next vs hnext).read hexpr hblock _

theorem Stmt.LineReads.cond (hc : c.Reads depth) : (Stmt.cond c).LineReads (Layout.ifStmt depth c) := by
  intro pos
  obtain ⟨ts, pos', c', hscan, hbare, hread⟩ := hc pos
  refine ⟨_, ts, pos', .cond c', hscan.mono fun _ _ => trivial, rfl, .inl ⟨.if_, nofun, rfl⟩, ?_,
    fun next us hnext => ?_⟩
  · rw [Stmt.bare, Stmt.bare, hbare]
  · rw [List.cons_append, stmt.eq_def]
    exact plain_bind_of_ok (hread next us hnext.branch) fun _ => rfl

end

/-! ### Cases -/

/-- The text of the arms of a case is read up to the closing brace. -/
def CaseArm.RowReads (depth : Nat) (arms : List CaseArm) : Prop :=
  ∀ pos : Pos, ∃ ts pos' arms', Source.Scans pos (Layout.caseArms depth arms) Source.Any ts pos'
    ∧ CaseArm.bares arms' = CaseArm.bares arms ∧ ∀ stop us, stop.kind = .symbol .rbrace →
      plain (caseArms (ts ++ stop :: us)) = .ok (arms', us)

section
variable {depth : Nat}

theorem CaseArm.RowReads.nil : CaseArm.RowReads depth [] := by
  intro pos
  rw [Layout.caseArms]
  refine ⟨[], pos, [], .nil, rfl, fun stop us hstop => ?_⟩
  rw [List.nil_append, caseArms.eq_def, peek, List.headD_cons, hstop]
  exact plain_expect_bind hstop fun _ => rfl

theorem CaseArm.RowReads.cons {type : TypeName} {name : Text} {body : Block}
    (htype : type.Wf) (hname : IsName name) (hbody : body.Reads depth)
    (harms : CaseArm.RowReads depth arms) (tok : Token) :
    CaseArm.RowReads depth (.mk tok type name body :: arms) := by
  intro pos
  obtain ⟨pos₁, htabs⟩ := Source.Scans.tabs pos depth
  obtain ⟨ts, pos₂, hscan₁, ⟨t, ts', rfl, ht, -⟩, type', hnamed, hbaretype⟩ := htype.reads pos₁
  have hscan₂ := hname.scans (pos₂.after " ")
  obtain ⟨arrow, posa, hscan₃, harrow⟩ := scans_spaced ((pos₂.after " ").after name) .arrow
  obtain ⟨u, us, pos₃, body', hscan₄, hu, -, hbarebody, hread⟩ := hbody posa
  obtain ⟨vs, pos₄, arms', hscan₅, hbares, hreads⟩ := harms ⟨pos₃.line + 1, 1⟩
  have hlast := hscan₄.andThen ((Source.Scans.newline pos₃).skip hscan₅)
  have hnamed' := hscan₂.cons (hscan₃.consThen hlast) fun _ _ => Source.endsWord_of_blank (by decide) _
  have hall := htabs.skip (hscan₁.append ((Source.Scans.space pos₂).skip hnamed') fun _ _ =>
    Source.endsWord_of_blank (by decide) _)
  have htext : Layout.caseArms depth (.mk tok type name body :: arms) = Layout.tabs depth
      ++ (type.layout ++ (" " ++ (name ++ (" " ++ (Symbol.arrow.spelling ++ " ")
      ++ (Layout.block depth body ++ ("\n" ++ Layout.caseArms depth arms)))))) := by
    rw [Layout.caseArms]
    simp only [List.append_assoc]
    rfl
  rw [htext]
  refine ⟨_, pos₄, .mk ((pos₂.after " ").token .ident name) type' name body' :: arms', hall, ?_,
    fun stop ws hstop => ?_⟩
  · rw [CaseArm.bares, CaseArm.bares, CaseArm.bare, CaseArm.bare, hbaretype, hbarebody, hbares]
  · have hends : EndsType type' ((pos₂.after " ").token .ident name :: arrow
        :: (u :: us ++ (vs ++ stop :: ws))) := by
      rintro _ _ ⟨⟩ -
      exact ⟨nofun, fun _ => ⟨nofun, nofun⟩⟩
    have hstmt : plain (stmt (u :: us ++ (vs ++ stop :: ws))) = .ok (.block body', vs ++ stop :: ws) :=
      plain_stmt_block hu (hread _)
    have htokens : t :: ts' ++ (pos₂.after " ").token .ident name :: arrow :: (u :: us ++ vs) ++ stop :: ws
        = t :: (ts' ++ (pos₂.after " ").token .ident name :: arrow :: (u :: us ++ (vs ++ stop :: ws))) := by
      simp only [List.cons_append, List.append_assoc]
    refine (congrArg (fun ts => plain (caseArms ts)) htokens).trans ?_
    rw [caseArms.eq_def, peek, List.headD_cons, ht]
    exact plain_bind_of_ok (plain_typeName_of_named hnamed hends) fun _ =>
      plain_expect_bind rfl fun _ => plain_expect_bind harrow fun _ =>
          plain_bind_of_ok hstmt fun _ => plain_bind_of_ok (hreads stop ws hstop) fun _ => rfl

theorem Stmt.LineReads.case (hx : x.Sound)
    (harms : CaseArm.RowReads (depth + 1) arms) (tok : Token) :
    (Stmt.case tok x arms).LineReads (Keyword.case_.spelling ++ " " ++ (Layout.expr x ++ (" "
      ++ (Symbol.lbrace.spelling ++ ("\n" ++ (Layout.caseArms (depth + 1) arms
      ++ (Layout.tabs depth ++ Symbol.rbrace.spelling))))))) := by
  intro pos
  have hword := Source.Scans.word pos .case_
  obtain ⟨ts, pos₁, hscan₁, -, y, hy, -, hbarex⟩ := hx.reprinted.whole _
  have hopen := Source.Scans.bracket (pos₁.after " ") (s := .lbrace) (by decide)
  obtain ⟨us, pos₂, arms', hscan₂, hbares, hread⟩ := harms _
  obtain ⟨pos₃, htabs⟩ := Source.Scans.tabs pos₂ depth
  have hclose := Source.Scans.bracket pos₃ (s := .rbrace) (by decide)
  have hbody := hopen.consThen ((Source.Scans.newline _).skip (hscan₂.andThen (htabs.skip hclose)))
  have hall := hword.consThen (hscan₁.append ((Source.Scans.space pos₁).skip hbody) fun _ _ =>
    Source.endsBoth_of_blank (by decide) _)
  refine ⟨_, _, _, .case (pos.word .case_) y arms', hall.mono fun _ _ => trivial, rfl,
    .inl ⟨.case_, nofun, rfl⟩, ?_, fun next vs _ => ?_⟩
  · rw [Stmt.bare, Stmt.bare, hbarex, hbares]
  · rw [List.cons_append, List.append_assoc, stmt.eq_def]
    have hread := hread (pos₃.token (.symbol .rbrace) Symbol.rbrace.spelling) (next :: vs) rfl
    rw [← List.singleton_append, ← List.append_assoc] at hread
    exact plain_bind_of_ok (plain_expr_before hy rfl _) fun _ =>
      plain_expect_bind rfl fun _ => plain_bind_of_ok hread fun _ => rfl

end

/-! ### Functions -/

/-- The text of a function after its keyword. -/
def FuncDecl.tail (depth : Nat) : FuncDecl → Text
  | .mk _ _ name params res body =>
    name ++ (Symbol.lparen.spelling ++ (Text.join ", " (params.map Layout.binding)
      ++ Symbol.rparen.spelling ++ (Layout.result res ++ (" " ++ Layout.block depth body))))

/-- The text of a function is read as the function, be it exported or not. -/
def FuncDecl.Reads (depth : Nat) (d : FuncDecl) : Prop :=
  ∀ pos : Pos, ∃ (ts : List Token) (pos' : Pos) (d' : Bool → FuncDecl),
    Source.Scans pos (d.tail depth) Source.Any ts pos' ∧ (d' d.pub).bare = d.bare ∧
      ∀ pub, Takes (fun ts => plain (funcDecl pub ts)) ts (d' pub)

theorem Layout.func_eq (depth : Nat) (shown : Bool) (d : FuncDecl) :
    Layout.func depth shown d = tabs depth ++ (pub shown
      ++ (Keyword.def_.spelling ++ " " ++ d.tail depth)) ++ "\n" := by
  cases d with
  | mk tok pub name params res body =>
    rw [func, FuncDecl.tail]
    simp only [List.append_assoc]
    rfl

theorem FuncDecl.Reads.mk {name : Text} {params : List Binding}
    {body : Block} (hname : IsName name) (hparams : ∀ b ∈ params, b.Wf)
    (hres : ∀ t, res = some t → t.Wf) (hbody : body.Reads depth) (tok : Token) (pub : Bool) :
    (FuncDecl.mk tok pub name params res body).Reads depth := by
  intro pos
  have hopen := Source.Scans.bracket (pos.after name) (s := .lparen) (by decide)
  obtain ⟨ts, pos₁, params', hscan₁, hbareparams, hreadparams⟩ := scans_params hparams _
  obtain ⟨us, pos₂, res', hscan₂, hbareres, hreadres⟩ := scans_result hres pos₁
  obtain ⟨t, vs, pos₃, body', hscan₃, ht, -, hbarebody, hreadbody⟩ := hbody (pos₂.after " ")
  have hlast := hscan₂.append ((Source.Scans.space pos₂).skip hscan₃) fun _ _ =>
    Source.endsWord_of_blank (by decide) _
  have hall := (hname.scans pos).cons (hopen.consThen (hscan₁.andThen hlast)) fun rest _ =>
    Source.endsWord_symbol (s := .lparen) (by decide) _
  refine ⟨_, pos₃, fun pub => .mk (pos.token .ident name) pub name params' res' body', hall, ?_,
    fun pub rest => ?_⟩
  · rw [FuncDecl.bare, FuncDecl.bare, hbareparams, hbareres, hbarebody]
    rfl
  · dsimp only
    rw [List.cons_append, List.cons_append, List.append_assoc, List.append_assoc, funcDecl]
    exact plain_expect_bind rfl fun _ =>
      plain_expect_bind rfl fun _ => plain_bind_of_ok (hreadparams _) fun _ =>
        plain_bind_of_ok (hreadres _ _ (by rw [ht]; rfl)) fun _ =>
          plain_bind_of_ok (hreadbody _) fun _ => rfl

theorem Stmt.ExportReads.func (h : d.Reads depth) :
    (Stmt.func d).ExportReads d.pub (Keyword.def_.spelling ++ " " ++ d.tail depth) := by
  intro pos
  obtain ⟨ts, pos', d', hscan, hbare, hread⟩ := h _
  refine ⟨.def_, ts, pos', .func (d' d.pub),
    ((Source.Scans.word pos .def_).consThen hscan).mono fun _ _ => trivial, nofun, ?_,
    fun pubs line next us hpubs _ => ?_⟩
  · rw [Stmt.bare, Stmt.bare, hbare]
  · exact plain_stmt_def hpubs rfl (hread d.pub (next :: us))

/-! ### Structs -/

/-- Tokens that start with an item of a struct or its closing brace. -/
def StartsItem (ts : List Token) : Prop :=
  ∃ t us, ts = t :: us ∧ (t.kind = .ident ∨ t.kind = .keyword .def_ ∨ t.kind = .symbol .rbrace)

theorem StartsItem.follows (h : StartsItem ts) :
    ∃ t us, ts = t :: us ∧ endsTypes t.kind = true ∧ t.kind ≠ .symbol .comma := by
  obtain ⟨t, us, rfl, ht⟩ := h
  refine ⟨t, us, rfl, ?_⟩
  rcases ht with ht | ht | ht <;> rw [ht] <;> exact ⟨rfl, nofun⟩

section
variable {depth : Nat}

/-- The text of methods is read as methods up to the closing brace. -/
theorem scans_methods (h : ∀ m ∈ methods, m.pub = true ∧ m.Reads depth)
    (pos : Pos) : ∃ ts pos' methods', Source.Scans pos (Layout.funcs depth methods) Source.Any ts pos'
      ∧ FuncDecl.bares methods' = FuncDecl.bares methods ∧ ∀ stop us, stop.kind = .symbol .rbrace →
        StartsItem (ts ++ stop :: us) ∧ plain (structItems (ts ++ stop :: us)) = .ok (([], methods'), us) := by
  induction methods generalizing pos with
  | nil =>
    rw [Layout.funcs]
    refine ⟨[], pos, [], .nil, rfl, fun stop us hstop => ⟨⟨stop, us, rfl, .inr (.inr hstop)⟩, ?_⟩⟩
    rw [List.nil_append, structItems, hstop]
    rfl
  | cons m methods ih =>
    obtain ⟨⟨hpub, hm⟩, hmethods⟩ := List.forall_mem_cons.1 h
    obtain ⟨pos₁, htabs⟩ := Source.Scans.tabs ⟨pos.line + 1, 1⟩ depth
    have hword := Source.Scans.word pos₁ .def_
    obtain ⟨ts, pos₂, m', hscan₁, hbare, hread⟩ := hm _
    obtain ⟨us, pos₃, methods', hscan₂, hbares, hreads⟩ := ih hmethods ⟨pos₂.line + 1, 1⟩
    have hall := (Source.Scans.newline pos).skip (htabs.skip ((hword.consThen hscan₁).andThen
      ((Source.Scans.newline pos₂).skip hscan₂)))
    have htext : Layout.funcs depth (m :: methods) = "\n" ++ (Layout.tabs depth
        ++ (Keyword.def_.spelling ++ " " ++ m.tail depth ++ ("\n" ++ Layout.funcs depth methods))) := by
      rw [Layout.funcs, Layout.func_eq]
      simp only [List.append_assoc]
      rfl
    rw [htext]
    refine ⟨_, pos₃, m' true :: methods', hall, ?_, fun stop vs hstop =>
      ⟨⟨_, _, rfl, .inr (.inl rfl)⟩, ?_⟩⟩
    · rw [FuncDecl.bares, FuncDecl.bares, ← hbare, hpub, hbares]
    · rw [List.cons_append, List.cons_append, List.append_assoc, structItems]
      exact plain_bind_of_ok (hread true _) fun _ => plain_bind_of_ok (hreads stop vs hstop).2 fun _ => rfl

/-- The text of fields is read as fields before the other items. -/
theorem scans_fields {fields : List Binding} (h : ∀ b ∈ fields, b.Wf) (depth : Nat) (pos : Pos) :
    ∃ ts pos' fields', Source.Scans pos (fields.flatMap (Layout.fieldLine depth)) Source.Any ts pos'
      ∧ fields'.map Binding.bare = fields.map Binding.bare ∧ ∀ us methods rest, StartsItem us →
        plain (structItems us) = .ok (([], methods), rest) → StartsItem (ts ++ us)
          ∧ plain (structItems (ts ++ us)) = .ok ((fields', methods), rest) := by
  induction fields generalizing pos with
  | nil => exact ⟨[], pos, [], .nil, rfl, fun _ _ _ hus hread => ⟨hus, hread⟩⟩
  | cons b fields ih =>
    obtain ⟨hb, hfields⟩ := List.forall_mem_cons.1 h
    obtain ⟨pos₁, htabs⟩ := Source.Scans.tabs pos depth
    obtain ⟨name, colon, ts, pos₂, type', hscan₁, hname, htext, hcolon, hbare, hread⟩ := hb.reads pos₁
    obtain ⟨us, pos₃, fields', hscan₂, hbares, hreads⟩ := ih hfields ⟨pos₂.line + 1, 1⟩
    have hline := hscan₁.append (Source.Scans.newline pos₂) fun _ _ =>
      Source.endsWord_of_blank (by decide) _
    rw [List.append_nil] at hline
    have hall := (htabs.skip hline).andThen hscan₂
    rw [← List.append_assoc (List.replicate _ _)] at hall
    refine ⟨_, pos₃, ⟨name, b.name, type'⟩ :: fields', hall, ?_, fun vs methods rest hvs hitems => ?_⟩
    · rw [List.map_cons, List.map_cons, Binding.bare, hbare, hbares]
      rfl
    · obtain ⟨hstart, hrest⟩ := hreads vs methods rest hvs hitems
      refine ⟨⟨name, _, rfl, .inl hname⟩, ?_⟩
      obtain ⟨t, ws, hws, htype, hcomma⟩ := hstart.follows
      have hfield : plain (field name (colon :: (ts ++ (us ++ vs)))) = .ok (⟨name, b.name, type'⟩, us ++ vs) := by
        rw [field, hws]
        refine plain_expect_bind hcolon fun _ => plain_bind_of_ok (hread t ws htype) fun _ => ?_
        dsimp only
        rw [pass_cons_of_ne hcomma, htext]
        rfl
      rw [List.append_assoc, List.cons_append, List.cons_append, structItems, hname]
      exact plain_bind_of_ok hfield fun _ => plain_bind_of_ok hrest fun _ => rfl

theorem plain_typeDecl_struct
    (hname : name.kind = .ident)
    (hmark : mark.kind = .symbol .assign) (hword : word.kind = .keyword .struct_)
    (hbrace : brace.kind = .symbol .lbrace) (h : plain (structItems ts) = .ok ((fields, methods), rest)) :
    plain (typeDecl pub (name :: mark :: word :: brace :: ts))
      = .ok (.struct (.mk name pub name.text fields methods), rest) := by
  rw [typeDecl]
  refine plain_expect_bind hname fun _ => plain_expect_bind hmark fun _ => ?_
  dsimp only [peek, List.headD_cons]
  rw [hword]
  exact plain_expect_bind hword fun _ =>
    plain_expect_bind hbrace fun _ => plain_bind_of_ok h fun _ => rfl

theorem Stmt.ExportReads.struct
    (hname : IsName name) (hfields : ∀ b ∈ fields, b.Wf)
    (hmethods : ∀ m ∈ methods, m.pub = true ∧ m.Reads (depth + 1)) (tok : Token) (pub : Bool) :
    (Stmt.struct (.mk tok pub name fields methods)).ExportReads pub (Keyword.type_.spelling ++ " "
      ++ (name ++ (" " ++ (Symbol.assign.spelling ++ " ") ++ (Keyword.struct_.spelling ++ " "
      ++ (Symbol.lbrace.spelling ++ "\n" ++ (fields.flatMap (Layout.fieldLine (depth + 1))
      ++ (Layout.funcs (depth + 1) methods ++ (Layout.tabs depth ++ Symbol.rbrace.spelling)))))))) := by
  intro pos
  have hword := Source.Scans.word pos .type_
  generalize (pos.after Keyword.type_.spelling).after " " = pos₁ at hword
  obtain ⟨mark, pos₂, hassign, hmark⟩ := scans_spaced (pos₁.after name) .assign
  have hstruct := Source.Scans.word pos₂ .struct_
  have hopen := (Source.Scans.bracket ((pos₂.after Keyword.struct_.spelling).after " ") (s := .lbrace)
    (by decide)).append (Source.Scans.newline _) fun _ _ => trivial
  obtain ⟨ts, pos₃, fields', hscan₁, hbarefields, hreadfields⟩ := scans_fields hfields
    (depth + 1) ⟨(((pos₂.after Keyword.struct_.spelling).after " ").after Symbol.lbrace.spelling).line + 1, 1⟩
  obtain ⟨us, pos₄, methods', hscan₂, hbaremethods, hreadmethods⟩ := scans_methods hmethods pos₃
  obtain ⟨pos₅, htabs⟩ := Source.Scans.tabs pos₄ depth
  have hclose := Source.Scans.bracket pos₅ (s := .rbrace) (by decide)
  have hitems := hscan₁.andThen (hscan₂.andThen (htabs.skip hclose))
  have hall := hword.consThen ((hname.scans pos₁).cons
    (hassign.consThen (hstruct.consThen (hopen.consThen hitems))) fun _ _ =>
      Source.endsWord_of_blank (by decide) _)
  refine ⟨.type_, _, _, .struct (.mk (pos₁.token .ident name) pub name fields' methods'),
    hall.mono fun _ _ => trivial, nofun, ?_, fun pubs line next vs hpubs _ => ?_⟩
  · rw [Stmt.bare, Stmt.bare, StructDecl.bare, StructDecl.bare, hbarefields, hbaremethods]
  · refine plain_stmt_type hpubs rfl ?_
    obtain ⟨hstart, hread⟩ := hreadmethods (pos₅.token (.symbol .rbrace) Symbol.rbrace.spelling) (next :: vs) rfl
    rw [List.cons_append, List.cons_append, List.cons_append, List.cons_append, List.append_assoc,
      List.append_assoc]
    exact plain_typeDecl_struct rfl hmark rfl rfl (hreadfields _ _ _ hstart hread).2

end

/-! ### Programs -/

theorem Stmt.LineReads.reads_stmt (h : s.LineReads text)
    (htext : Layout.stmt depth s = Layout.tabs depth ++ text ++ "\n") : s.Reads (Layout.stmt depth s) := by
  rw [htext]
  exact h.reads depth

section
variable (depth : Nat)

theorem Layout.stmt_struct (tok : Token) (p : Bool) (name : Text) (fields : List Binding)
    (methods : List FuncDecl) : Layout.stmt depth (.struct (.mk tok p name fields methods)) = tabs depth
      ++ (pub p ++ (Keyword.type_.spelling ++ " " ++ (name ++ (" " ++ (Symbol.assign.spelling ++ " ")
      ++ (Keyword.struct_.spelling ++ " " ++ (Symbol.lbrace.spelling ++ "\n"
      ++ (fields.flatMap (fieldLine (depth + 1)) ++ (funcs (depth + 1) methods
      ++ (tabs depth ++ Symbol.rbrace.spelling))))))))) ++ "\n" := by
  rw [stmt]
  simp only [List.append_assoc]
  rfl

theorem Layout.stmt_case (tok : Token) (x : Expr) (arms : List CaseArm) :
    Layout.stmt depth (.case tok x arms) = tabs depth ++ (Keyword.case_.spelling ++ " " ++ (expr x ++ (" "
      ++ (Symbol.lbrace.spelling ++ ("\n" ++ (caseArms (depth + 1) arms
      ++ (tabs depth ++ Symbol.rbrace.spelling))))))) ++ "\n" := by
  rw [stmt]
  simp only [List.append_assoc]
  rfl

theorem Layout.stmt_var (d : VarDecl) : Layout.stmt depth (.var d) = tabs depth ++ (pub d.pub
    ++ ((if d.const then Keyword.const_ else .var_).spelling ++ " " ++ (d.name ++ (result d.type
    ++ (" " ++ (Symbol.assign.spelling ++ " ") ++ expr d.value))))) ++ "\n" := by
  rw [stmt, varDecl]
  cases d.const <;> (simp only [List.append_assoc]; rfl)

end

mutual

theorem Stmt.reads (s : Stmt) (hs : s.Sound) (depth : Nat) : s.Reads (Layout.stmt depth s) :=
  match s, hs with
  | .use d, hs => (Stmt.LineReads.use hs).reads_stmt (by
      rw [Layout.stmt]; simp only [List.append_assoc]; rfl)
  | .var d, ⟨hname, htype, hvalue⟩ =>
    ((Stmt.ExportReads.var hname htype hvalue).line fun w hw => .inl ⟨w, hw, rfl⟩).reads_stmt
      (Layout.stmt_var depth d)
  | .func d, hs => by
    have h := (Stmt.ExportReads.func (d.reads hs depth)).line fun w hw => .inl ⟨w, hw, rfl⟩
    refine h.reads_stmt ?_
    rw [Layout.stmt, Layout.func_eq]
  | .struct (.mk tok p name fields methods), ⟨hname, hfields, hmethods⟩ =>
    ((Stmt.ExportReads.struct hname hfields (FuncDecl.allRead methods hmethods (depth + 1)) tok p).line
      fun w hw => .inl ⟨w, hw, rfl⟩).reads_stmt (Layout.stmt_struct ..)
  | .typeAlias d, ⟨hname, htype⟩ =>
    ((Stmt.ExportReads.typeAlias hname htype).line fun w hw => .inl ⟨w, hw, rfl⟩).reads_stmt (by
      rw [Layout.stmt]; simp only [List.append_assoc]; rfl)
  | .block b, hs => (Stmt.LineReads.block (b.reads hs depth)).reads_stmt (by rw [Layout.stmt])
  | .cond c, hs => (Stmt.LineReads.cond (c.reads hs depth)).reads_stmt (by rw [Layout.stmt])
  | .loop tok x b, ⟨hx, hb⟩ => (Stmt.LineReads.loop hx (b.reads hb depth) tok).reads_stmt (by
      rw [Layout.stmt]; simp only [List.append_assoc]; rfl)
  | .each tok name x b, ⟨hname, hx, hb⟩ =>
    (Stmt.LineReads.each hname hx (b.reads hb depth) tok).reads_stmt (by
      rw [Layout.stmt]; simp only [List.append_assoc]; rfl)
  | .case tok x arms, ⟨hx, harms⟩ =>
    (Stmt.LineReads.case hx (CaseArm.rowReads arms harms (depth + 1)) tok).reads_stmt (Layout.stmt_case ..)
  | .ret tok none, _ => (Stmt.LineReads.return tok).reads_stmt (by
      rw [Layout.stmt]; simp only [List.append_assoc]; rfl)
  | .ret tok (some x), hs => (Stmt.LineReads.returnValue (hs x rfl) tok).reads_stmt (by
      rw [Layout.stmt]; simp only [List.append_assoc]; rfl)
  | .branch _, hs => (Stmt.LineReads.branch hs).reads_stmt (by rw [Layout.stmt])
  | .expr _, hs => (Stmt.LineReads.expr hs).reads_stmt (by rw [Layout.stmt])

theorem Stmt.allRead (ss : List Stmt) (h : Stmt.AreSound ss) (depth : Nat) :
    ∀ s ∈ ss, s.Reads (Layout.stmt depth s) :=
  match ss, h with
  | [], _ => nofun
  | s :: ss, ⟨hs, _, hss⟩ =>
    List.forall_mem_cons.2 ⟨s.reads hs depth, Stmt.allRead ss hss depth⟩

theorem Block.reads (b : Block) (hb : b.Sound) (depth : Nat) : b.Reads depth :=
  match b, hb with
  | .mk tok ss, hb => .mk (Stmt.rowReads_flatMap hb (Stmt.allRead ss hb (depth + 1))) tok

theorem FuncDecl.reads (d : FuncDecl) (hd : d.Sound) (depth : Nat) : d.Reads depth :=
  match d, hd with
  | .mk tok pub _ _ _ body, ⟨hname, hparams, hres, hbody⟩ =>
    .mk hname hparams hres (body.reads hbody depth) tok pub

theorem FuncDecl.allRead (fs : List FuncDecl) (h : FuncDecl.AreSound fs) (depth : Nat) :
    ∀ f ∈ fs, f.pub = true ∧ f.Reads depth :=
  match fs, h with
  | [], _ => nofun
  | f :: fs, ⟨hpub, hf, hfs⟩ =>
    List.forall_mem_cons.2 ⟨⟨hpub, f.reads hf depth⟩, FuncDecl.allRead fs hfs depth⟩

theorem IfStmt.reads (c : IfStmt) (hc : c.Sound) (depth : Nat) : c.Reads depth :=
  match c, hc with
  | .mk tok _ b e, ⟨hx, hb, he⟩ => .mk hx (b.reads hb depth) (e.reads he depth) tok

theorem Else.reads (e : Else) (he : e.Sound) (depth : Nat) : e.Reads depth :=
  match e, he with
  | .none, _ => .none
  | .block b, he => .block (b.reads he depth)
  | .cond c, he => .cond (c.reads he depth)

theorem CaseArm.rowReads (arms : List CaseArm) (h : CaseArm.AreSound arms) (depth : Nat) :
    CaseArm.RowReads depth arms :=
  match arms, h with
  | [], _ => .nil
  | .mk tok _ _ body :: arms, ⟨⟨htype, hname, hbody⟩, harms⟩ =>
    .cons htype hname (body.reads hbody depth) (CaseArm.rowReads arms harms depth) tok

end

theorem Stmt.Reads.laterStmt {s : Stmt} (h : s.Reads (Layout.stmt 0 s)) :
    s.Reads (Layout.laterStmt s) := by
  rw [Layout.laterStmt]
  split
  · exact h.newline
  · exact h

theorem Program.rowReads (p : Program) (h : Stmt.AreSound p.stmts) :
    Stmt.RowReads (Layout.program p) p.stmts := by
  rw [Layout.program]
  cases hp : p.stmts with
  | nil => exact .nil
  | cons s ss =>
    rw [hp] at h
    obtain ⟨hs, hapart, hss⟩ := h
    exact .cons (s.reads hs 0) hapart (Stmt.rowReads_flatMap hss fun s' hs' =>
      (Stmt.allRead ss hss 0 s' hs').laterStmt)

/-- The text of a sound program is read as a program that differs in places only. -/
theorem Program.read_back (h : Stmt.AreSound p.stmts) :
    ∃ q, Source.program (Layout.program p) = .ok q ∧ q.bare = p.bare := by
  obtain ⟨ts, pos, ss, hscan, hbares, -, -, hrun⟩ := p.rowReads h .start
  have htokens := hscan.tokens trivial
  have hparse : Parser.program (ts ++ [pos.token .eof []])
      = .ok ⟨peek (ts ++ [pos.token .eof []]), ss⟩ :=
    ok_bind ((hrun (pos.token .eof []) [] (.inr rfl)).stmtsOnto rfl []) rfl
  refine ⟨⟨peek (ts ++ [pos.token .eof []]), ss⟩, ?_, congrArg (Program.mk Token.nowhere) hbares⟩
  rw [Source.program, htokens]
  dsimp only
  rw [hparse]

theorem Source.program_eq_ok (h : Source.program src = .ok p) :
    ∃ ts, Source.tokens src = .ok ts ∧ Parser.program ts = .ok p := by
  rw [Source.program] at h
  cases htokens : Source.tokens src with
  | error e =>
    rw [htokens] at h
    cases h
  | ok ts =>
    rw [htokens] at h
    dsimp only at h
    cases hparse : Parser.program ts with
    | error e =>
      rw [hparse] at h
      cases h
    | ok q =>
      rw [hparse] at h
      cases h
      exact ⟨ts, rfl, hparse⟩

/-- Formatting keeps a steady program and is stable: the text of a parsed program is read as the same
program up to places, whose text it is as well. -/
theorem Program.format_stable {src : Text} {p : Program} (hp : Source.program src = .ok p)
    (hindent : Layout.stmtsIndent p.stmts ≤ Layout.maxIndent) (hsteady : p.isSteady = true) :
    ∃ text q, p.format? = some text ∧ Source.program text = .ok q ∧ q.bare = p.bare
      ∧ q.format? = some text := by
  obtain ⟨ts, htokens, hparse⟩ := Source.program_eq_ok hp
  have hleft := Parser.left_of_tokens (P := fun _ _ => True) htokens fun _ _ => trivial
  have hsound := (((Parser.of_program hleft).2 p hparse).2 trivial).2 hsteady
  obtain ⟨q, hq, hbare⟩ := Program.read_back hsound
  have hformat : p.format? = some (Layout.program p) := if_pos hindent
  exact ⟨_, q, hformat, hq, hbare, (Program.format?_of_bare hbare).trans hformat⟩

/-- A source with most kinds of statements. -/
def Source.sampleLoop : Text := "use <a/b> var a: int[]? = [1, 2] a[1] = (a[0] + 2) ** -2 - 1
while !(a[0] >= 3 || false) \x7b a = [a[0] + 1,] x++ \x7d
if a == null \x7b\x7d else if true \x7b println(\"a\\n\") \x7d
pub def g(p: a.B | int, q: char): bool \x7b return p == 'c' \x7d
type P = struct \x7b f: int[], def m() \x7b return \x7d \x7d
for i : 0..new P(1, 'c').get() \x7b case i \x7b int n => break C? c => \x7b\x7d \x7d \x7d"

theorem Program.format_stable_sampleLoop : ∃ p, Source.program Source.sampleLoop = .ok p
    ∧ Layout.stmtsIndent p.stmts ≤ Layout.maxIndent ∧ p.isSteady = true
    ∧ ∃ text q, p.format? = some text ∧ Source.program text = .ok q ∧ q.bare = p.bare
      ∧ q.format? = some text := by
  have hsample : (Source.program Source.sampleLoop).toOption.any (fun p =>
      decide (Layout.stmtsIndent p.stmts ≤ Layout.maxIndent) && p.isSteady) = true := by decide +kernel
  cases hp : Source.program Source.sampleLoop with
  | error e =>
    rw [hp] at hsample
    cases hsample
  | ok p =>
    rw [hp] at hsample
    obtain ⟨hindent, hsteady⟩ := (Bool.and_eq_true _ _).mp hsample
    have hindent := of_decide_eq_true hindent
    exact ⟨p, rfl, hindent, hsteady, Program.format_stable hp hindent hsteady⟩

/-- Without steadiness, formatting is not stable: the text of the second statement of `a` and
`new P().x` starts with a parenthesis, which makes a call of the two. -/
theorem Program.format_not_stable : ¬ ∀ src p, Source.program src = .ok p →
    Layout.stmtsIndent p.stmts ≤ Layout.maxIndent →
    ∃ text q, p.format? = some text ∧ Source.program text = .ok q ∧ q.bare = p.bare
      ∧ q.format? = some text := by
  intro h
  have honce : ((Source.program "a\nnew P().x").toOption.bind Program.format?)
      = some "a\n(new P()).x\n" := by decide +kernel
  have htwice : ((Source.program "a\n(new P()).x\n").toOption.bind Program.format?)
      = some "a(new P()).x\n" := by decide +kernel
  cases hp : Source.program "a\nnew P().x" with
  | error e =>
    rw [hp] at honce
    cases honce
  | ok p =>
    rw [hp] at honce
    have honce : p.format? = some "a\n(new P()).x\n" := honce
    have hindent : Layout.stmtsIndent p.stmts ≤ Layout.maxIndent := by
      rw [Program.format?] at honce
      split at honce
      · assumption
      · cases honce
    obtain ⟨text, q, htext, hq, -, hagain⟩ := h _ p hp hindent
    cases honce.symm.trans htext
    rw [hq] at htwice
    exact absurd (hagain.symm.trans htwice) (by decide)

end Classwright
