import Classwright.Proofs.Syntax.Reread

/-!
The text of a statement on one line is read back as the statement. A statement is told apart from what
follows by the first token of that (`Stmt.Before`): that of the next statement, the closing brace or
the end marker. So statements whose texts are read apart are read in a row (`Stmt.RowReads`).
-/

open Classwright.Grammar Classwright.Parser

namespace Classwright

/-! ### Statements in a row -/

/-- How the tokens of a statement may start. -/
def Stmt.StartsWith : Stmt → Kind → Prop
  | .expr x, k => k = Layout.leading x ∧ starts k = true
  | _, k => (∃ w, w ≠ .else_ ∧ k = .keyword w) ∨ k = .symbol .lbrace

/-- A token that may follow a statement which starts on a line. -/
structure Stmt.Before (s : Stmt) (line : Int) (next : Token) : Prop where
  expr : s.endsInExpr = true → Continuation.ofKind? next.kind = none
  type : next.kind ≠ .symbol .pipe ∧ next.kind ≠ .symbol .question ∧ next.kind ≠ .symbol .dot
  name : s.endsInName = true → next.kind ≠ .symbol .lbrack
  branch : next.kind ≠ .keyword .else_
  value : next.kind = .symbol .rbrace ∨ next.kind = .eof ∨ next.line ≠ line

section
variable {s n : Stmt} {line : Int} {next : Token}

theorem Stmt.before_of_kind (h : next.kind = k) (hexpr : Continuation.ofKind? k = none)
    (htype : endsTypes k = true) (helse : k ≠ .keyword .else_)
    (hvalue : next.kind = .symbol .rbrace ∨ next.kind = .eof ∨ next.line ≠ line) :
    s.Before line next := by
  subst h
  have hne {k : Kind} (hk : endsTypes k = false) : next.kind ≠ k := by
    intro h
    rw [h, hk] at htype
    cases htype
  exact ⟨fun _ => hexpr, ⟨hne rfl, hne rfl, hne rfl⟩, fun _ => hne rfl, helse, hvalue⟩

theorem Stmt.before_stop (h : next.kind = .symbol .rbrace ∨ next.kind = .eof) : s.Before line next := by
  rcases h with h | h
  · exact before_of_kind h rfl rfl nofun (.inl h)
  · exact before_of_kind h rfl rfl nofun (.inr (.inl h))

theorem Stmt.before_stmt (hapart : s.Apart n) (hstart : n.StartsWith next.kind)
    (hline : next.line ≠ line) : s.Before line next := by
  by_cases hn : ∃ x, n = .expr x
  · obtain ⟨x, rfl⟩ := hn
    obtain ⟨hkind, hstarts⟩ := hstart
    have hne {k : Kind} (hk : starts k = false) : next.kind ≠ k := by
      intro h
      rw [h, hk] at hstarts
      cases hstarts
    refine ⟨?_, ⟨hne rfl, hne rfl, hne rfl⟩, ?_, hne rfl, .inr (.inr hline)⟩
    · rw [hkind]
      exact fun hs => hapart.expr hs x rfl
    · rw [hkind]
      exact fun hs => hapart.name hs x rfl
  · have hkind : (∃ w, w ≠ .else_ ∧ next.kind = .keyword w) ∨ next.kind = .symbol .lbrace := by
      cases n with
      | expr x => exact absurd ⟨x, rfl⟩ hn
      | _ => exact hstart
    rcases hkind with ⟨w, hw, h⟩ | h
    · exact before_of_kind h rfl (by cases w <;> rfl) (fun heq => hw (Kind.keyword.inj heq))
        (.inr (.inr hline))
    · exact before_of_kind h rfl rfl nofun (.inr (.inr hline))

end

/-- A text is read as a statement that starts below some line and ends above the next one. -/
def Stmt.Reads (text : Text) (s : Stmt) : Prop :=
  ∀ pos : Pos, ∃ t ts pos' s', Source.Scans pos text Source.Any (t :: ts) pos'
    ∧ pos.line ≤ t.line ∧ t.line < pos'.line ∧ s.StartsWith t.kind ∧ s'.bare = s.bare
    ∧ ∀ next us, s.Before t.line next → plain (stmt (t :: ts ++ next :: us)) = .ok (s', next :: us)

/-- The parser reads statements up to some tokens. -/
inductive RunsTo (stop : List Token) : List Token → List Stmt → Prop where
  | nil : RunsTo stop stop []
  | cons {t : Token} {ts rest : List Token} {s : Stmt} {ss : List Stmt}
    (hkind : t.kind ≠ .symbol .rbrace ∧ t.kind ≠ .eof) (hs : plain (stmt (t :: ts)) = .ok (s, rest))
    (hss : RunsTo stop rest ss) : RunsTo stop (t :: ts) (s :: ss)

theorem RunsTo.blockItems
    (h : RunsTo (r :: us) ts ss) (hr : r.kind = .symbol .rbrace) :
    plain (Parser.blockItems ts) = .ok (ss, us) := by
  induction h with
  | nil =>
    rw [Parser.blockItems.eq_def, peek, List.headD_cons, hr]
    exact plain_expect_bind hr fun _ => rfl
  | @cons t ts rest s ss hkind hs _ ih =>
    rw [Parser.blockItems.eq_def, peek, List.headD_cons]
    split
    · next h => exact absurd h hkind.1
    · next h => exact absurd h hkind.2
    · exact plain_bind_of_ok hs fun _ => plain_bind_of_ok ih fun _ => rfl

theorem RunsTo.stmtsOnto
    (h : RunsTo (e :: us) ts ss) (he : e.kind = .eof) (read : List Stmt) :
    Parser.stmtsOnto read ts = .ok (read.reverse ++ ss) := by
  induction h generalizing read with
  | nil => rw [stmtsOnto_cons, if_pos he, List.append_nil]
  | @cons t ts rest s ss hkind hs _ ih =>
    rw [stmtsOnto_cons, if_neg hkind.2]
    refine ok_bind hs ((ih _).trans ?_)
    rw [List.reverse_cons, List.append_assoc, List.singleton_append]

theorem Stmt.StartsWith.ne_stop {s : Stmt} (h : s.StartsWith k) :
    k ≠ .symbol .rbrace ∧ k ≠ .eof := by
  cases s with
  | expr x =>
    obtain ⟨-, h⟩ := h
    constructor <;> rintro rfl <;> cases h
  | _ =>
    rcases h with ⟨w, -, rfl⟩ | rfl
    · exact ⟨nofun, nofun⟩
    · exact ⟨nofun, nofun⟩

/-- A text is read as statements in a row, up to a closing brace or the end marker. -/
def Stmt.RowReads (text : Text) (ss : List Stmt) : Prop :=
  ∀ pos : Pos, ∃ ts pos' ss', Source.Scans pos text Source.Any ts pos'
    ∧ Stmt.bares ss' = Stmt.bares ss
    ∧ (ss = [] → ts = [])
    ∧ (∀ s ∈ ss.head?, ∃ t us, ts = t :: us ∧ s.StartsWith t.kind ∧ pos.line ≤ t.line)
    ∧ ∀ stop us, stop.kind = .symbol .rbrace ∨ stop.kind = .eof →
      RunsTo (stop :: us) (ts ++ stop :: us) ss'

theorem Stmt.RowReads.nil : Stmt.RowReads [] [] :=
  fun pos => ⟨[], pos, [], .nil, rfl, fun _ => rfl, nofun, fun _ _ _ => .nil⟩

theorem Stmt.RowReads.cons {s : Stmt} (hs : s.Reads text)
    (hapart : ∀ next ∈ ss.head?, s.Apart next) (hss : Stmt.RowReads text' ss) :
    Stmt.RowReads (text ++ text') (s :: ss) := by
  intro pos
  obtain ⟨t, ts, pos₁, s', hscan₁, hline, hnewline, hstart, hbare, hread⟩ := hs pos
  obtain ⟨us, pos₂, ss', hscan₂, hbares, hnil, hhead, hrun⟩ := hss pos₁
  refine ⟨_, pos₂, s' :: ss', hscan₁.andThen hscan₂, ?_, nofun, ?_, fun stop vs hstop => ?_⟩
  · rw [Stmt.bares, hbare, hbares, Stmt.bares]
  · rintro _ ⟨⟩
    exact ⟨t, ts ++ us, rfl, hstart, hline⟩
  · -- what follows the first statement is the next one, or the end
    have hnext : ∃ next ws, us ++ stop :: vs = next :: ws ∧ s.Before t.line next := by
      cases ss with
      | nil =>
        rw [hnil rfl]
        exact ⟨stop, vs, rfl, Stmt.before_stop hstop⟩
      | cons n ss =>
        obtain ⟨u, us', rfl, hstart', hline'⟩ := hhead n rfl
        exact ⟨u, _, rfl, Stmt.before_stmt (hapart n rfl) hstart' (by omega)⟩
    obtain ⟨next, ws, hws, hbefore⟩ := hnext
    rw [List.append_assoc, hws]
    refine .cons hstart.ne_stop (hread next ws hbefore) ?_
    rw [← hws]
    exact hrun stop vs hstop

/-- Statements that are read apart are read in a row. -/
theorem Stmt.rowReads_flatMap (hsound : Stmt.AreSound ss)
    (h : ∀ s ∈ ss, s.Reads (text s)) : Stmt.RowReads (ss.flatMap text) ss := by
  induction ss with
  | nil => exact .nil
  | cons s ss ih =>
    obtain ⟨-, hapart, hsounds⟩ := hsound
    obtain ⟨hs, hss⟩ := List.forall_mem_cons.1 h
    exact .cons hs hapart (ih hsounds hss)

/-! ### Statements on one line -/

/-- The text of a statement without the tabs before it and the line break after it. -/
def Stmt.LineReads (text : Text) (s : Stmt) : Prop :=
  ∀ pos : Pos, ∃ t ts pos' s', Source.Scans pos text Source.EndsBoth (t :: ts) pos'
    ∧ t.line = pos.line ∧ s.StartsWith t.kind ∧ s'.bare = s.bare
    ∧ ∀ next us, s.Before t.line next → plain (stmt (t :: ts ++ next :: us)) = .ok (s', next :: us)

theorem Stmt.LineReads.reads {s : Stmt} (h : s.LineReads text) (depth : Nat) :
    s.Reads (Layout.tabs depth ++ text ++ "\n") := by
  intro pos
  obtain ⟨pos₁, htabs⟩ := Source.Scans.tabs pos depth
  obtain ⟨t, ts, pos₂, s', hscan, hline, hstart, hbare, hread⟩ := h pos₁
  have hscan' := (htabs.andThen hscan).append (.newline pos₂) fun rest _ =>
    Source.endsBoth_of_blank (by decide) _
  rw [List.nil_append, List.append_nil] at hscan'
  have hle := htabs.line
  have hlt := hscan.line
  refine ⟨t, ts, _, s', hscan', ?_, ?_, hstart, hbare, hread⟩
  · omega
  · rw [hline]
    exact_mod_cast Nat.lt_succ_of_le hlt

/-- A blank line before a statement. -/
theorem Stmt.Reads.newline {s : Stmt} (h : s.Reads text) : s.Reads ("\n" ++ text) := by
  intro pos
  obtain ⟨t, ts, pos', s', hscan, hline, hrest⟩ := h ⟨pos.line + 1, 1⟩
  refine ⟨t, ts, pos', s', (Source.Scans.newline pos).andThen hscan, ?_, hrest⟩
  dsimp only at hline
  omega

section
variable {x : Expr} {ts : List Token}

theorem plain_expr_before (h : Spells 0 ts x) (ht : Continuation.ofKind? t.kind = none)
    (us : List Token) : plain (expr 0 (ts ++ t :: us)) = .ok (x, t :: us) :=
  plain_expr_of_spells h ⟨ends_of_kind rfl ht, fun _ => ends_of_kind rfl ht⟩

theorem Expr.Sound.reprinted (h : x.Sound) : Reprinted x := x.reprinted h.wf h.steady

/-- What starts an expression starts no other statement. -/
theorem plain_stmt_of_starts (h : starts t.kind = true)
    (hx : plain (expr 0 (t :: ts)) = .ok (x, rest)) : plain (stmt (t :: ts)) = .ok (.expr x, rest) := by
  rw [stmt.eq_def]
  dsimp only
  generalize t.kind = k at h
  cases k with
  | keyword w => cases w <;> first | exact plain_bind_of_ok hx fun _ => rfl | cases h
  | symbol s => cases s <;> first | exact plain_bind_of_ok hx fun _ => rfl | cases h
  | _ => exact plain_bind_of_ok hx fun _ => rfl

theorem Stmt.LineReads.expr (h : x.Sound) : (Stmt.expr x).LineReads (Layout.expr x) := by
  intro pos
  obtain ⟨ts, pos', hscan, ⟨t, us, rfl, hkind, hline⟩, y, hy, -, hbare⟩ := h.reprinted.whole pos
  have hstarts : starts t.kind = true := by
    obtain ⟨u, vs, heq, hu⟩ := hy.starts
    obtain ⟨rfl, -⟩ := List.cons.inj heq
    exact hu
  refine ⟨t, us, pos', .expr y, hscan, hline, ⟨hkind, hstarts⟩, ?_, fun next vs hnext => ?_⟩
  · rw [Stmt.bare, hbare, Stmt.bare]
  · exact plain_stmt_of_starts hstarts (plain_expr_before hy (hnext.expr rfl) vs)

theorem Stmt.LineReads.returnValue (h : x.Sound) (tok : Token) :
    (Stmt.ret tok (some x)).LineReads (Keyword.return_.spelling ++ " " ++ Layout.expr x) := by
  intro pos
  have hword := Source.Scans.word pos .return_
  obtain ⟨ts, pos', hscan, ⟨t, us, rfl, hkind, hline⟩, y, hy, -, hbare⟩ := h.reprinted.whole _
  have hstarts : starts t.kind = true := by
    obtain ⟨u, vs, heq, hu⟩ := hy.starts
    obtain ⟨rfl, -⟩ := List.cons.inj heq
    exact hu
  refine ⟨_, _, pos', .ret (pos.word .return_) (some y), hword.consThen hscan, rfl, .inl ⟨.return_, nofun, rfl⟩, ?_,
    fun next vs hnext => ?_⟩
  · rw [Stmt.bare, Option.map_some, hbare]
    rfl
  · have hvalue : ¬ (t.kind = .symbol .rbrace ∨ t.kind = .eof
        ∨ t.line ≠ (pos.word .return_).line) := by
      rintro (ht | ht | ht)
      · rw [ht] at hstarts
        cases hstarts
      · rw [ht] at hstarts
        cases hstarts
      · refine ht (hline.trans ?_)
        rw [Pos.line_after (by decide), Pos.line_after (by decide)]
        rfl
    rw [List.cons_append, stmt.eq_def]
    refine plain_bind_of_ok (x := some y) (l := next :: vs) ?_ fun _ => rfl
    rw [Parser.returnValue]
    refine (congrArg plain (if_neg hvalue)).trans ?_
    exact plain_bind_of_ok (plain_expr_before hy (hnext.expr rfl) vs) fun _ => rfl

end

theorem Stmt.LineReads.return (tok : Token) :
    (Stmt.ret tok none).LineReads Keyword.return_.spelling := by
  intro pos
  refine ⟨_, [], _, .ret (pos.word .return_) none, (Source.Scans.keyword pos .return_).mono fun _ h => h.word, rfl,
    .inl ⟨.return_, nofun, rfl⟩, rfl, fun next us hnext => ?_⟩
  rw [List.cons_append, stmt.eq_def]
  refine plain_bind_of_ok (x := none) (l := next :: us) ?_ fun _ => rfl
  rw [Parser.returnValue]
  exact congrArg plain (if_pos hnext.value)

theorem Stmt.LineReads.branch {tok : Token}
    (h : tok.kind = .keyword .break_ ∨ tok.kind = .keyword .continue_) :
    (Stmt.branch tok).LineReads tok.kind.name := by
  intro pos
  rcases h with h | h
  · rw [h]
    refine ⟨_, [], _, .branch (pos.word .break_), (Source.Scans.keyword pos .break_).mono fun _ h => h.word, rfl,
      .inl ⟨.break_, nofun, rfl⟩, ?_, fun next us _ => by rw [List.cons_append, stmt.eq_def]; rfl⟩
    rw [Stmt.bare, Stmt.bare, h]
    rfl
  · rw [h]
    refine ⟨_, [], _, .branch (pos.word .continue_),
      (Source.Scans.keyword pos .continue_).mono fun _ h => h.word, rfl,
      .inl ⟨.continue_, nofun, rfl⟩, ?_, fun next us _ => by rw [List.cons_append, stmt.eq_def]; rfl⟩
    rw [Stmt.bare, Stmt.bare, h]
    rfl

theorem Stmt.LineReads.use (h : IsPath "/" d.path) :
    (Stmt.use d).LineReads (Keyword.use_.spelling ++ " " ++ (Symbol.lt.spelling
      ++ (d.path ++ Symbol.gt.spelling))) := by
  intro pos
  obtain ⟨first, parts, hfirst, hparts, hpath⟩ := h
  have hlt := Source.Scans.symbol ((pos.after Keyword.use_.spelling).after " ") .lt
  obtain ⟨ts, pos₁, hscan, hread⟩ := scans_pathTail hparts
    ((((pos.after Keyword.use_.spelling).after " ").after Symbol.lt.spelling).after first)
  have hgt := hscan.append (.symbol pos₁ .gt) fun rest _ => Source.endsWord_symbol (by decide) rest
  have hname := (hfirst.scans _).cons hgt fun rest hrest => by
    cases parts with
    | nil => exact Source.endsWord_symbol (s := .gt) (by decide) rest
    | cons => exact Source.endsWord_cons (by decide) _
  have hall := (Source.Scans.word pos .use_).consThen (hlt.cons hname fun rest _ => .inr (by
    rw [List.append_assoc]
    exact hfirst.endsSymbol _))
  rw [← List.append_assoc first] at hall
  rw [hpath]
  refine ⟨_, _, _, .use ⟨pos.word .use_, first ++ parts.flatMap (Symbol.div.spelling ++ ·)⟩,
    hall.mono fun _ hrest => .inr hrest.symbol, rfl, .inl ⟨.use_, nofun, rfl⟩, ?_,
    fun next us _ => ?_⟩
  · rw [Stmt.bare, Stmt.bare, hpath]
    rfl
  · dsimp only [List.cons_append]
    rw [List.append_assoc, stmt.eq_def]
    refine plain_bind_of_ok (x := ⟨pos.word .use_, _⟩) (l := next :: us) ?_ fun _ => rfl
    exact plain_expect_bind rfl fun _ => plain_expect_bind rfl fun _ =>
        plain_bind_of_ok (hread _ _ _ nofun) fun _ => plain_expect_bind rfl fun _ => rfl

/-! ### Declarations -/

/-- The keyword before what is exported. -/
inductive Exports : List Token → Bool → Prop where
  | none : Exports [] false
  | mark {t : Token} (h : t.kind = .keyword .pub_) : Exports [t] true

section
variable {pubs ts rest : List Token} {pub : Bool} {t : Token}

theorem plain_stmt_def (hpubs : Exports pubs pub) (ht : t.kind = .keyword .def_)
    (h : plain (funcDecl pub ts) = .ok (d, rest)) :
    plain (stmt (pubs ++ t :: ts)) = .ok (.func d, rest) := by
  cases hpubs with
  | none =>
    rw [List.nil_append, stmt.eq_def]
    dsimp only
    rw [ht]
    exact plain_bind_of_ok h fun _ => rfl
  | mark hpub =>
    rw [List.singleton_append, stmt.eq_def]
    dsimp only
    rw [hpub]
    dsimp only
    rw [ht]
    exact plain_bind_of_ok h fun _ => rfl

theorem plain_stmt_type (hpubs : Exports pubs pub) (ht : t.kind = .keyword .type_)
    (h : plain (typeDecl pub ts) = .ok (s, rest)) : plain (stmt (pubs ++ t :: ts)) = .ok (s, rest) := by
  cases hpubs with
  | none =>
    rw [List.nil_append, stmt.eq_def]
    dsimp only
    rw [ht]
    exact plain_bind_of_ok h fun _ => rfl
  | mark hpub =>
    rw [List.singleton_append, stmt.eq_def]
    dsimp only
    rw [hpub]
    dsimp only
    rw [ht]
    exact plain_bind_of_ok h fun _ => rfl

theorem plain_typeDecl_alias
    (hname : name.kind = .ident) (hmark : mark.kind = .symbol .assign) (ht : t.kind = .ident)
    (h : plain (typeRef (t :: ts)) = .ok (type, rest)) :
    plain (typeDecl pub (name :: mark :: t :: ts))
      = .ok (.typeAlias ⟨name, pub, name.text, type⟩, rest) := by
  rw [typeDecl]
  refine plain_expect_bind hname fun _ => plain_expect_bind hmark fun _ => ?_
  dsimp only [peek, List.headD_cons]
  rw [ht]
  exact plain_bind_of_ok h fun _ => rfl

theorem plain_stmt_var (hpubs : Exports pubs pub)
    (ht : t.kind = .keyword (if const then .const_ else .var_))
    (h : plain (varDecl pub const ts) = .ok (d, rest)) :
    plain (stmt (pubs ++ t :: ts)) = .ok (.var d, rest) := by
  cases hpubs with
  | none =>
    rw [List.nil_append, stmt.eq_def]
    cases const <;> (dsimp only; rw [ht]; exact plain_bind_of_ok h fun _ => rfl)
  | mark hpub =>
    rw [List.singleton_append, stmt.eq_def]
    dsimp only
    rw [hpub]
    cases const <;> (dsimp only; rw [ht]; exact plain_bind_of_ok h fun _ => rfl)

end

/-- A text that starts with a keyword is read as a statement, be it exported or not. -/
def Stmt.ExportReads (pub : Bool) (text : Text) (s : Stmt) : Prop :=
  ∀ pos : Pos, ∃ w ts pos' s', Source.Scans pos text Source.EndsBoth (pos.word w :: ts) pos'
    ∧ w ≠ .else_ ∧ s'.bare = s.bare ∧ ∀ pubs line next us, Exports pubs pub → s.Before line next →
      plain (stmt (pubs ++ (pos.word w :: (ts ++ next :: us)))) = .ok (s', next :: us)

theorem Stmt.ExportReads.line {s : Stmt} (h : s.ExportReads pub text)
    (hs : ∀ w, w ≠ .else_ → s.StartsWith (.keyword w)) : s.LineReads (Layout.pub pub ++ text) := by
  intro pos
  cases pub with
  | false =>
    obtain ⟨w, ts, pos', s', hscan, hw, hbare, hread⟩ := h pos
    exact ⟨_, ts, pos', s', hscan, rfl, hs w hw, hbare, fun next us => hread _ _ next us .none⟩
  | true =>
    obtain ⟨w, ts, pos', s', hscan, hw, hbare, hread⟩ := h _
    exact ⟨_, _, pos', s', (Source.Scans.word pos .pub_).consThen hscan, rfl, hs _ nofun, hbare,
      fun next us => hread [pos.word .pub_] _ next us (.mark rfl)⟩

theorem Stmt.ExportReads.var (hname : IsName d.name)
    (htype : ∀ t, d.type = some t → t.Wf) (hvalue : d.value.Sound) :
    (Stmt.var d).ExportReads d.pub ((if d.const then Keyword.const_ else .var_).spelling ++ " "
      ++ (d.name ++ (Layout.result d.type ++ (" " ++ (Symbol.assign.spelling ++ " ")
      ++ Layout.expr d.value)))) := by
  intro pos
  have hword := Source.Scans.word pos (if d.const then .const_ else .var_)
  generalize hpos : (pos.after (if d.const then Keyword.const_ else .var_).spelling).after " " = pos₁
    at hword
  have hscan₁ := hname.scans pos₁
  obtain ⟨ts, pos₂, type', hscan₂, hbaretype, hreadtype⟩ := scans_result htype (pos₁.after d.name)
  have hscan₃ := Source.Scans.spaced pos₂ .assign
  obtain ⟨us, pos₄, hscan₄, -, y, hy, -, hbare⟩ := hvalue.reprinted.whole _
  have hscan := hword.consThen (hscan₁.cons (hscan₂.append (hscan₃.consThen hscan₄) fun _ _ =>
    Source.endsWord_of_blank (by decide) _) fun _ _ => by
      rw [List.append_assoc]
      exact endsWord_result _ (Source.endsWord_of_blank (by decide) _))
  refine ⟨_, _, pos₄, .var ⟨pos₁.token .ident d.name, d.pub, d.const, d.name, type', y⟩, hscan, ?_, ?_,
    fun pubs line next vs hpubs hnext => ?_⟩
  · cases d.const <;> nofun
  · rw [Stmt.bare, VarDecl.bare, hbaretype, hbare]
    rfl
  · refine plain_stmt_var hpubs rfl ?_
    rw [List.cons_append, List.append_assoc]
    exact plain_expect_bind rfl fun _ => plain_bind_of_ok (hreadtype _ _ rfl) fun _ =>
        plain_expect_bind rfl fun _ =>
          plain_bind_of_ok (plain_expr_before hy (hnext.expr rfl) vs) fun _ => rfl

theorem Stmt.ExportReads.typeAlias (hname : IsName d.name) (htype : d.type.Wf) :
    (Stmt.typeAlias d).ExportReads d.pub (Keyword.type_.spelling ++ " "
      ++ (d.name ++ (" " ++ (Symbol.assign.spelling ++ " ") ++ d.type.layout))) := by
  intro pos
  have hword := Source.Scans.word pos .type_
  generalize hpos : (pos.after Keyword.type_.spelling).after " " = pos₁ at hword
  have hscan₁ := hname.scans pos₁
  have hscan₂ := Source.Scans.spaced (pos₁.after d.name) .assign
  obtain ⟨ts, pos₃, hscan₃, ⟨t, us, rfl, ht, -⟩, type', hbare, hread⟩ := htype.reads _
  have hscan := hword.consThen (hscan₁.cons (hscan₂.consThen hscan₃) fun _ _ =>
    Source.endsWord_of_blank (by decide) _)
  refine ⟨.type_, _, pos₃, .typeAlias ⟨pos₁.token .ident d.name, d.pub, d.name, type'⟩,
    hscan.mono fun _ h => h.word, nofun, ?_, fun pubs line next vs hpubs hnext => ?_⟩
  · rw [Stmt.bare, hbare]
    rfl
  · have hends : EndsRef d.type (next :: vs) := by
      refine ⟨?_, ?_⟩
      · rintro _ _ ⟨⟩ hnullable
        refine ⟨hnext.type.2.1, fun hlist => ⟨hnext.name ?_, hnext.type.2.2⟩⟩
        rw [Stmt.endsInName, hlist, hnullable]
        rfl
      · rintro _ _ ⟨⟩
        exact hnext.type.1
    exact plain_stmt_type hpubs rfl (plain_typeDecl_alias rfl rfl ht (hread _ hends))

end Classwright
