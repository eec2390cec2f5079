import Classwright.Proofs.Syntax.Lines

/-!
Reading moves on and stops before the end marker. Whatever the place in a stream where a statement, a
block, a type or an expression is read, it is refused or some tokens are taken, and the end marker is
not among them (`Parser.Advances`). A program is therefore read as a run of statements that leaves the
end marker and nothing else.
-/

namespace Classwright.Parser

/-- A stream as a source gives it: the end marker is its last token and stands nowhere else. -/
def Ended (ts : List Token) : Prop :=
  ∃ init e, ts = init ++ [e] ∧ e.kind = .eof ∧ ∀ t ∈ init, t.kind ≠ .eof

/-- What comes of reading from tokens: they are refused, or some are taken, and no end marker. -/
def Advances {α : Type} (ts : List Token) (outcome : Except ParseError (α × List Token)) : Prop :=
  (∃ e, outcome = .error e) ∨ ∃ x taken rest, outcome = .ok (x, rest) ∧ ts = taken ++ rest ∧
    taken ≠ [] ∧ ∀ t ∈ taken, t.kind ≠ .eof

section
variable {ts rest : List Token} {α : Type}

/-- Any place, which all tokens have. -/
def Anywhere (_ _ : Int) : Prop := True

theorem Ended.left (h : Ended ts) : Left Anywhere False ts := by
  obtain ⟨init, e, rfl, he, -⟩ := h
  exact ⟨fun _ _ => trivial, False.elim, init, e, rfl, he⟩

theorem Ended.suffix (h : Ended ts) (hrest : rest <:+ ts) (hne : rest ≠ []) : Ended rest := by
  obtain ⟨init, e, rfl, he, hinit⟩ := h
  obtain ⟨taken, htaken⟩ := hrest
  obtain ⟨init', e', rfl⟩ : ∃ init' e', rest = init' ++ [e'] :=
    ⟨_, _, (List.dropLast_concat_getLast hne).symm⟩
  rw [← List.append_assoc] at htaken
  obtain ⟨rfl, rfl⟩ := List.append_inj' htaken rfl |>.imp_right fun h => (List.cons.inj h).1
  exact ⟨init', e', rfl, he, fun t ht => hinit t (List.mem_append_right _ ht)⟩

/-- What is taken before some tokens that are left holds no end marker. -/
theorem Ended.not_eof (h : Ended (ts ++ rest)) (hrest : rest ≠ []) : ∀ t ∈ ts, t.kind ≠ .eof := by
  obtain ⟨init, e, heq, -, hinit⟩ := h
  obtain ⟨init', e', rfl⟩ : ∃ init' e', rest = init' ++ [e'] :=
    ⟨_, _, (List.dropLast_concat_getLast hrest).symm⟩
  rw [← List.append_assoc] at heq
  obtain ⟨rfl, -⟩ := List.append_inj' heq rfl
  exact fun t ht => hinit t (List.mem_append_left _ ht)

/-- What reads tokens and leaves an end marker advances. -/
theorem Ended.advances (h : Ended ts) {m : Parsed α ts}
    (hm : Reads Anywhere False Q m) : Advances ts (plain m) := by
  cases m with
  | error e => exact .inl ⟨e, rfl⟩
  | ok r =>
    obtain ⟨x, rest, ⟨taken, rfl⟩, hlen⟩ := r
    refine .inr ⟨x, taken, rest, rfl, rfl, ?_, h.not_eof ?_⟩
    · rintro rfl
      exact Nat.lt_irrefl _ hlen
    · rintro rfl
      exact hm.2.nonempty

/-- From every place of a stream, past its end too, what refuses to read nothing and leaves an end
marker advances. -/
theorem Ended.advances_drop (h : Ended ts) {Q : List Token → α → List Token → Prop}
    (m : ∀ ts : List Token, Parsed α ts) (hnil : ∃ e, plain (m []) = .error e)
    (hm : ∀ ts, Left Anywhere False ts → Reads Anywhere False (Q ts) (m ts)) (n : Nat) :
    Advances (ts.drop n) (plain (m (ts.drop n))) := by
  cases hdrop : ts.drop n with
  | nil => exact .inl hnil
  | cons t us =>
    have hleft : Ended (t :: us) := h.suffix (hdrop ▸ List.drop_suffix n ts) (List.cons_ne_nil _ _)
    exact hleft.advances (hm _ hleft.left)

end

/-! ### Programs -/

/-- No statement starts with a closing brace. -/
theorem stmt_rbrace (ht : t.kind = .symbol .rbrace) :
    plain (stmt (t :: ts)) = .error ⟨.expression, t⟩ := by
  have hexpr : plain (expr 0 (t :: ts)) = .error ⟨.expression, t⟩ := by
    rw [expr]
    refine plain_bind_of_error ?_
    rw [operand, ht]
    rfl
  rw [stmt.eq_def]
  dsimp only
  rw [ht]
  exact plain_bind_of_error hexpr

/-- The statements that are read up to the end marker are a run of statements that leaves it. -/
theorem Ended.runsTo (h : Ended ts) {read : List Stmt}
    (hread : stmtsOnto read ts = .ok ss) :
    ∃ init e ss', ts = init ++ [e] ∧ e.kind = .eof ∧ ss = read.reverse ++ ss' ∧ RunsTo [e] ts ss' := by
  fun_induction stmtsOnto read ts with
  | case1 read => exact h.left.nonempty.elim
  | case2 read t rest ht =>
    cases hread
    obtain ⟨init, e, heq, -, hinit⟩ := h
    cases init with
    | nil =>
      cases heq
      exact ⟨[], t, [], rfl, ht, (List.append_nil _).symm, .nil⟩
    | cons u init =>
      cases heq
      exact absurd ht (hinit t (.head _))
  | case3 => cases hread
  | case4 read t rest ht s r hr heq _ ih =>
    have hstmt := reads_stmt h.left
    rw [heq] at hstmt
    have hplain : plain (stmt (t :: rest)) = .ok (s, r) := by rw [heq]; rfl
    have hbrace : t.kind ≠ .symbol .rbrace := by
      intro hkind
      rw [stmt_rbrace hkind] at hplain
      cases hplain
    have hne : r ≠ [] := by
      rintro rfl
      exact hstmt.2.nonempty
    obtain ⟨init, e, ss', rfl, he, rfl, hrun⟩ := ih (h.suffix hr.1 hne) hread
    obtain ⟨taken, htaken⟩ := hr.1
    refine ⟨taken ++ init, e, s :: ss', ?_, he, ?_, .cons ⟨hbrace, ht⟩ hplain hrun⟩
    · rw [← htaken, List.append_assoc]
    · rw [List.reverse_cons, List.append_assoc, List.singleton_append]

/-- A program is refused, or it is a run of statements that takes all tokens before the end marker. -/
theorem Ended.program (h : Ended ts) : (∃ e, program ts = .error e) ∨
    ∃ p init e, program ts = .ok p ∧ ts = init ++ [e] ∧ e.kind = .eof ∧ RunsTo [e] ts p.stmts := by
  unfold Parser.program
  cases hss : stmtsOnto [] ts with
  | error e => exact .inl ⟨e, rfl⟩
  | ok ss =>
    obtain ⟨init, e, ss', heq, he, rfl, hrun⟩ := h.runsTo hss
    exact .inr ⟨_, init, e, rfl, heq, he, hrun⟩

/-- From every place of a stream, past its end too, a statement, a block, a type or an expression is
refused or takes at least one token, and never the end marker. A program is refused or takes all tokens
before the end marker. -/
theorem reading_advances {ts : List Token} (h : Ended ts) (n : Nat) :
    Advances (ts.drop n) (plain (stmt (ts.drop n)))
    ∧ Advances (ts.drop n) (plain (block (ts.drop n)))
    ∧ Advances (ts.drop n) (plain (typeName (ts.drop n)))
    ∧ Advances (ts.drop n) (plain (typeRef (ts.drop n)))
    ∧ (∀ level, Advances (ts.drop n) (plain (expr level (ts.drop n))))
    ∧ (n < ts.length → (∃ e, program (ts.drop n) = .error e) ∨
      ∃ p init e, program (ts.drop n) = .ok p ∧ ts.drop n = init ++ [e] ∧ e.kind = .eof ∧
        RunsTo [e] (ts.drop n) p.stmts) := by
  refine ⟨?_, ?_, ?_, ?_, fun level => ?_, fun hn => ?_⟩
  · exact h.advances_drop stmt ⟨_, by rw [stmt]; rfl⟩ (fun _ h => reads_stmt h) n
  · exact h.advances_drop block ⟨_, by rw [block]; rfl⟩ (fun _ h => reads_block h) n
  · exact h.advances_drop typeName ⟨_, rfl⟩ (fun _ h => reads_typeName h) n
  · exact h.advances_drop typeRef ⟨_, rfl⟩ (fun _ h => reads_typeRef h) n
  · exact h.advances_drop (expr level) ⟨_, by rw [expr]; rfl⟩ (fun _ h => reads_expr level h) n
  · have hne : ts.drop n ≠ [] := by
      rw [Ne, List.drop_eq_nil_iff]
      omega
    exact (h.suffix (List.drop_suffix n ts) hne).program

/-- The tokens of `[x, ] }` with the end marker after them. -/
def sampleTokens : List Token :=
  [⟨.symbol .lbrack, "[", 1, 1⟩, ⟨.ident, "x", 1, 2⟩, ⟨.symbol .comma, ",", 1, 3⟩,
    ⟨.symbol .rbrack, "]", 1, 5⟩, ⟨.symbol .rbrace, "\x7d", 1, 7⟩, ⟨.eof, [], 1, 8⟩]

theorem reading_advances_sampleTokens : Ended sampleTokens ∧ 0 < sampleTokens.length
    ∧ Advances sampleTokens (plain (stmt sampleTokens))
    ∧ ((∃ e, program sampleTokens = .error e) ∨ ∃ p init e, program sampleTokens = .ok p
      ∧ sampleTokens = init ++ [e] ∧ e.kind = .eof ∧ RunsTo [e] sampleTokens p.stmts) := by
  have h : Ended sampleTokens := ⟨sampleTokens.dropLast, ⟨.eof, [], 1, 8⟩, rfl, rfl, by decide⟩
  exact ⟨h, by decide, (reading_advances h 0).1, (reading_advances h 0).2.2.2.2.2 (by decide)⟩

end Classwright.Parser
