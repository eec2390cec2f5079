import Classwright.Compile
import Classwright.Proofs.Syntax.Located
import Classwright.Proofs.Syntax.Names

/-!
What the parser reads. Every token that a parsed tree keeps is at a place of the source, and so is the
token that a failure to parse points at: the end marker is never read over, so there is always a token
left to point at. A tree that is read from scanned tokens is well formed, and what is steady of it can
be read back (`Parser.reads_stmt`, `Parser.of_program`).
-/

open Classwright.Grammar Classwright.Parser

namespace Classwright

section
variable {t : Token}

theorem Token.IsScanned.rescans (h : t.IsScanned) (heof : t.kind ≠ .eof)
    (hsymbol : ∀ s, t.kind ≠ .symbol s) : t.Rescans := by
  rcases h with h | ⟨s, h⟩ | h
  · exact absurd h heof
  · exact absurd h (hsymbol s)
  · exact h

theorem Token.IsScanned.isName (h : t.IsScanned) (ht : t.kind = .ident) : IsName t.text := by
  have := h.rescans (by rw [ht]; nofun) (by rw [ht]; nofun)
  unfold Token.Rescans at this
  rw [ht] at this
  exact this

theorem isName_indexName : IsName Expr.indexName := by
  have h := Source.rescans_word (b := ascii 'a') (w := [ascii 't']) (by decide) (by decide +kernel)
    0 0
  exact h

theorem wf_literal (ht : Parser.isLiteral t.kind = true) (h : t.IsScanned) : (Expr.literal t).Wf := by
  refine ⟨ht, h.rescans ?_ fun s hs => ?_⟩
  · intro heof
    rw [heof] at ht
    cases ht
  · rw [hs] at ht
    cases ht

end

/-! ### Starts -/

namespace Grammar

section
variable {ts : List Token}

/-- The text of an expression starts as its tokens do, unless one of them starts with a
parenthesis. -/
def StartsAs (ts : List Token) (k : Kind) : Prop :=
  ∃ t us, ts = t :: us ∧ (k = t.kind ∨ k = .symbol .lparen ∨ t.kind = .symbol .lparen)

theorem StartsAs.append (h : StartsAs ts k) (us : List Token) : StartsAs (ts ++ us) k := by
  obtain ⟨t, ts', rfl, h⟩ := h
  exact ⟨t, ts' ++ us, rfl, h⟩

theorem StartsAs.operand (h : StartsAs ts k) :
    StartsAs ts (Layout.leadingOperand x k) := by
  unfold Layout.leadingOperand
  split
  · obtain ⟨t, us, rfl, -⟩ := h
    exact ⟨t, us, rfl, .inr (.inl rfl)⟩
  · exact h

theorem StartsAs.call (h : StartsAs ts (Layout.leading f)) (tok : Token)
    (args : List Expr) : StartsAs ts (Layout.leading (.call tok f args)) := by
  unfold Layout.leading
  split
  · next hindexed =>
    cases f with
    | ident t name => exact h
    | _ => cases hindexed
  · exact h.operand

mutual

theorem Spells.startsAs {level : Nat} {ts : List Token} {x : Expr} (h : Spells level ts x) :
    StartsAs ts (Layout.leading x) :=
  match h with
  | .assign _ hx _ => hx.startsAs.append _
  | .left _ _ _ _ hx _ => (hx.startsAs.append _).operand
  | .power _ _ hx _ => (hx.startsAs.append _).operand
  | .unary ht _ => ⟨_, _, rfl, .inl ht.symm⟩
  | .suffixed h => h.startsAs

theorem Suffixed.startsAs {level : Nat} {ts : List Token} {x : Expr} (h : Suffixed level ts x) :
    StartsAs ts (Layout.leading x) :=
  match h with
  | .literal _ => ⟨_, _, rfl, .inl rfl⟩
  | .ident ht => ⟨_, _, rfl, .inl ht.symm⟩
  | .group hl _ _ => ⟨_, _, rfl, .inr (.inr hl)⟩
  | .list hl _ => ⟨_, _, rfl, .inl hl.symm⟩
  | .construct ht _ _ _ => ⟨_, _, rfl, .inl ht.symm⟩
  | .step _ hx _ => (hx.startsAs.append _).operand
  | .index _ hx _ _ _ => hx.startsAs.append _
  | .call _ hx _ _ => (hx.startsAs.append _).call _ _
  | .property _ hx _ _ => (hx.startsAs.append _).operand

end

end

end Grammar

/-! ### Tokens that are left -/

namespace Parser

/-- The tokens that are left of a source: they are at places of it, and scanned if those of the source
are, and the end marker is the last. -/
structure Left (P : Int → Int → Prop) (S : Prop) (ts : List Token) : Prop where
  places : ∀ t ∈ ts, t.At P
  scanned : S → ∀ t ∈ ts, t.IsScanned
  ends : ∃ init e, ts = init ++ [e] ∧ e.kind = .eof

/-- A tree that is read and the tokens after it have a property, and those tokens are left of the
source; what is refused is so at a place of it. -/
def Reads (P : Int → Int → Prop) (S : Prop) {α : Type} {p : List Token → Prop}
    (Q : α → List Token → Prop) : Except ParseError (α × { rest : List Token // p rest }) → Prop
  | .error e => e.tok.At P
  | .ok (a, rest) => Q a rest.1 ∧ Left P S rest.1

section
variable {P : Int → Int → Prop} {S : Prop} {ts rest us : List Token} {t : Token}

theorem Left.nonempty (h : Left P S []) : False := by
  obtain ⟨-, -, init, e, heq, -⟩ := h
  exact List.cons_ne_nil _ _ (List.append_eq_nil_iff.1 heq.symm).2

theorem Left.head (h : Left P S (t :: ts)) : t.At P := h.places t (.head _)

theorem Left.isName (h : Left P S (t :: ts)) (ht : t.kind = .ident) (hS : S) : IsName t.text :=
  (h.scanned hS t (.head _)).isName ht

theorem Left.suffix (h : Left P S (us ++ ts)) (hts : ts ≠ []) : Left P S ts := by
  obtain ⟨hplaces, hscanned, init, e, heq, he⟩ := h
  refine ⟨fun t ht => hplaces t (List.mem_append_right _ ht),
    fun hS t ht => hscanned hS t (List.mem_append_right _ ht), ts.dropLast, e, ?_, he⟩
  have hlast : ts.getLast hts = e := by
    rw [← List.getLast_append_of_ne_nil (l := us) (by simp [hts]) hts]
    simp [heq]
  rw [← hlast, List.dropLast_concat_getLast]

theorem Left.tail (h : Left P S (t :: ts)) (ht : t.kind ≠ .eof) : Left P S ts := by
  refine Left.suffix (show Left P S ([t] ++ ts) from h) ?_
  rintro rfl
  obtain ⟨-, -, init, e, heq, he⟩ := h
  cases init with
  | nil =>
    cases heq
    exact ht he
  | cons => simp at heq

/-- What is left after a token of a kind other than the end marker. -/
theorem Left.after (h : Left P S (t :: ts)) (ht : t.kind = kind)
    (hkind : kind ≠ .eof := by decide) : Left P S ts := h.tail (ht ▸ hkind)

theorem Left.peek (h : Left P S ts) : (peek ts).At P := by
  match ts, h with
  | [], h => exact h.nonempty.elim
  | t :: rest, h => exact h.head

variable {α β : Type} {p p' : List Token → Prop} {Q : α → List Token → Prop}
  {R : β → List Token → Prop}

theorem Reads.bind {m : Except ParseError (α × { rest : List Token // p rest })}
    {f : α × { rest : List Token // p rest } →
      Except ParseError (β × { rest : List Token // p' rest })} (h : Reads P S Q m)
    (hf : ∀ a rest h, Q a rest → Left P S rest → Reads P S R (f (a, ⟨rest, h⟩))) :
    Reads P S R (m >>= f) := by
  cases m with
  | error e => exact h
  | ok r => exact hf r.1 r.2.1 r.2.2 h.1 h.2

theorem reads_expect (h : Left P S ts) (fault : ParseFault)
    (hkind : kind ≠ .eof := by decide) :
    Reads P S (fun t _ => t.At P ∧ (kind = .ident → S → IsName t.text)) (expect kind fault ts) := by
  match ts, h with
  | [], h => exact h.nonempty.elim
  | t :: rest, h =>
    unfold expect
    dsimp only
    split
    · next heq => exact ⟨⟨h.head, fun hident => h.isName (heq.trans hident)⟩, h.after heq hkind⟩
    · exact h.head

theorem left_pass (h : Left P S ts) (kind : Kind) (hkind : kind ≠ .eof := by decide) :
    Left P S (pass kind ts).2.1 := by
  match ts, h with
  | [], h => exact h.nonempty.elim
  | t :: rest, h =>
    unfold pass
    dsimp only
    split
    · next heq => exact h.after heq hkind
    · exact h

/-! ### Types -/

/-- A text is another one with parts after it, each with a separator before it. -/
def Extends (sep name full : Text) : Prop :=
  ∃ parts : List Text, (∀ p ∈ parts, IsName p) ∧ full = name ++ parts.flatMap (sep ++ ·)

theorem Extends.rfl : Extends sep name name :=
  ⟨[], List.forall_mem_nil _, (List.append_nil _).symm⟩

theorem Extends.cons (h : Extends sep (name ++ sep ++ part) full)
    (hpart : IsName part) : Extends sep name full := by
  obtain ⟨parts, hparts, rfl⟩ := h
  exact ⟨part :: parts, List.forall_mem_cons.2 ⟨hpart, hparts⟩, by simp⟩

theorem reads_dottedTail (name : Text) {ts : List Token} (h : Left P S ts) :
    Reads P S (fun full _ => S → Extends "." name full) (dottedTail name ts) := by
  match ts, h with
  | [], h => exact h.nonempty.elim
  | t :: rest, h =>
    rw [dottedTail.eq_def]
    dsimp only
    split
    · next ht =>
      refine (reads_expect (h.after ht) _).bind fun part r1 h1 hpart hr1 => ?_
      exact (reads_dottedTail _ hr1).bind fun full r2 h2 hfull hr2 =>
        ⟨fun hS => (hfull hS).cons (hpart.2 rfl hS), hr2⟩
    · exact ⟨fun _ => .rfl, h⟩
termination_by ts.length

theorem reads_listMark (h : Left P S ts) : Reads P S (fun _ _ => True) (listMark ts) := by
  have hpass := left_pass h (.symbol .lbrack)
  unfold listMark
  split
  · next r1 h1 heq =>
    rw [heq] at hpass
    exact (reads_expect hpass _).bind fun _ r2 h2 _ hr2 => ⟨trivial, hr2⟩
  · next rest heq =>
    rw [heq] at hpass
    exact ⟨trivial, hpass⟩

theorem reads_typeName (h : Left P S ts) :
    Reads P S (fun n _ => n.At P ∧ (S → n.Wf)) (typeName ts) := by
  refine (reads_expect h _).bind fun tok r1 h1 htok hr1 => ?_
  refine (reads_dottedTail _ hr1).bind fun name r2 h2 hname hr2 => ?_
  refine (reads_listMark hr2).bind fun list r3 h3 _ hr3 => ?_
  exact ⟨⟨htok.1, fun hS => ⟨_, (hname hS).imp fun _ h => ⟨htok.2 rfl hS, h⟩⟩⟩, left_pass hr3 _⟩

theorem reads_alternatives {ts : List Token} (h : Left P S ts) :
    Reads P S (fun ns _ => ∀ n ∈ ns, n.At P ∧ (S → n.Wf)) (alternatives ts) := by
  match ts, h with
  | [], h => exact h.nonempty.elim
  | t :: rest, h =>
    rw [alternatives.eq_def]
    dsimp only
    split
    · next ht =>
      refine (reads_typeName (h.after ht)).bind fun alt r1 h1 halt hr1 => ?_
      refine (reads_alternatives hr1).bind fun alts r2 h2 halts hr2 => ?_
      exact ⟨List.forall_mem_cons.2 ⟨halt, halts⟩, hr2⟩
    · exact ⟨List.forall_mem_nil _, h⟩
termination_by ts.length

theorem reads_typeRef (h : Left P S ts) :
    Reads P S (fun r _ => r.At P ∧ (S → r.Wf)) (typeRef ts) := by
  refine (reads_typeName h).bind fun first r1 h1 hfirst hr1 => ?_
  refine (reads_alternatives hr1).bind fun others r2 h2 hothers hr2 => ?_
  have hall : ∀ n ∈ first :: others, n.At P ∧ (S → n.Wf) := List.forall_mem_cons.2 ⟨hfirst, hothers⟩
  exact ⟨⟨fun n hn => (hall n hn).1, fun hS n hn => (hall n hn).2 hS⟩, hr2⟩

theorem reads_typeMark (h : Left P S ts) :
    Reads P S (fun r _ => ∀ type, r = some type → type.At P ∧ (S → type.Wf)) (typeMark ts) := by
  have hpass := left_pass h (.symbol .colon)
  unfold typeMark
  split
  · next r1 h1 heq =>
    rw [heq] at hpass
    refine (reads_typeRef hpass).bind fun type r2 h2 htype hr2 => ⟨?_, hr2⟩
    rintro _ ⟨⟩
    exact htype
  · next rest heq =>
    rw [heq] at hpass
    exact ⟨by rintro _ ⟨⟩, hpass⟩

/-! ### Expressions -/

theorem Left.of_continuation (h : Left P S (t :: ts))
    (hc : Continuation.ofKind? t.kind = some c) : Left P S ts := by
  refine h.tail fun heof => ?_
  rw [heof] at hc
  cases hc

theorem Left.of_unaryOp (h : Left P S (t :: ts)) (hop : unaryOp? t.kind = some op) :
    Left P S ts := by
  refine h.tail fun heof => ?_
  rw [heof] at hop
  cases hop

/-- What is known of an expression: it is at places, and well formed if its tokens were scanned. -/
def Known (P : Int → Int → Prop) (S : Prop) (x : Expr) (_ : List Token) : Prop := x.At P ∧ (S → x.Wf)

def AllKnown (P : Int → Int → Prop) (S : Prop) (xs : List Expr) (_ : List Token) : Prop :=
  Expr.AllAt P xs ∧ (S → Expr.AreWf xs)

mutual

/-- The token that starts an operand may be the end marker; it is refused then. -/
theorem reads_operand {t : Token} {ts : List Token} (h : Left P S (t :: ts)) :
    Reads P S (Known P S) (operand t ts) := by
  rw [operand.eq_def]
  split
  · next hlit =>
    refine ⟨⟨h.head, fun hS => wf_literal hlit (h.scanned hS t (.head _))⟩, h.tail fun heof => ?_⟩
    rw [heof] at hlit
    cases hlit
  split
  · next hid => exact ⟨⟨h.head, h.isName hid⟩, h.after hid⟩
  split
  · next hparen =>
    refine (reads_expr 0 (h.after hparen)).bind fun x r1 h1 hx hr1 => ?_
    exact (reads_expect hr1 _).bind fun _ r2 h2 _ hr2 => ⟨hx, hr2⟩
  split
  · next hbrack =>
    refine (reads_exprs _ _ (h.after hbrack)).bind fun xs r1 h1 hxs hr1 => ?_
    exact ⟨⟨⟨h.head, hxs.1⟩, hxs.2⟩, hr1⟩
  split
  · next hnew =>
    refine (reads_typeName (h.after hnew)).bind fun type r1 h1 htype hr1 => ?_
    refine (reads_expect hr1 _).bind fun _ r2 h2 _ hr2 => ?_
    refine (reads_exprs _ _ hr2).bind fun xs r3 h3 hxs hr3 => ?_
    exact ⟨⟨⟨h.head, htype.1, hxs.1⟩, fun hS => ⟨htype.2 hS, hxs.2 hS⟩⟩, hr3⟩
  split
  · next op hop =>
    refine (reads_expr _ (h.of_unaryOp hop)).bind fun x r1 h1 hx hr1 => ?_
    exact ⟨⟨⟨h.head, hx.1⟩, hx.2⟩, hr1⟩
  · exact h.head
termination_by 3 * ts.length + 2

theorem reads_resume (c : Continuation) {x : Expr} {t : Token} {us ts : List Token}
    (hx : Known P S x us) (ht : t.At P) (h : Left P S ts) :
    Reads P S (Known P S) (resume c x t ts) := by
  rw [resume.eq_def]
  cases c with
  | binary op =>
    refine (reads_expr _ h).bind fun y r1 h1 hy hr1 => ?_
    exact ⟨⟨⟨ht, hx.1, hy.1⟩, fun hS => ⟨hx.2 hS, hy.2 hS⟩⟩, hr1⟩
  | assign op =>
    refine (reads_expr _ h).bind fun y r1 h1 hy hr1 => ?_
    exact ⟨⟨⟨ht, hx.1, hy.1⟩, fun hS => ⟨hx.2 hS, hy.2 hS⟩⟩, hr1⟩
  | step op => exact ⟨⟨⟨ht, hx.1⟩, hx.2⟩, h⟩
  | index =>
    dsimp only
    split
    · split
      · exact h.peek
      · refine (reads_expr _ h).bind fun i r1 h1 hi hr1 => ?_
        refine (reads_expect hr1 _).bind fun _ r2 h2 _ hr2 => ⟨⟨?_, fun hS => ?_⟩, hr2⟩
        · -- the name of the function that is called stands at the bracket
          have hcallee : (indexCallee t).At P := by
            rw [indexCallee, Expr.At]
            exact ht
          rw [Expr.At, Expr.AllAt, Expr.AllAt, Expr.AllAt]
          exact ⟨hx.1.tok, hcallee, hx.1, hi.1, trivial⟩
        · exact ⟨isName_indexName, hx.2 hS, hi.2 hS, trivial⟩
    · exact ht
  | call =>
    refine (reads_exprs _ _ h).bind fun xs r1 h1 hxs hr1 => ?_
    exact ⟨⟨⟨hx.1.tok, hx.1, hxs.1⟩, fun hS => ⟨hx.2 hS, hxs.2 hS⟩⟩, hr1⟩
  | property =>
    refine (reads_expect h _).bind fun name r1 h1 hname hr1 => ?_
    exact ⟨⟨⟨hname.1, hx.1⟩, fun hS => ⟨hx.2 hS, hname.2 rfl hS⟩⟩, hr1⟩
termination_by 3 * ts.length + 2

theorem reads_expr (level : Nat) {ts : List Token} (h : Left P S ts) :
    Reads P S (Known P S) (expr level ts) := by
  match ts, h with
  | [], h => exact h.nonempty.elim
  | t :: rest, h =>
    rw [expr.eq_def]
    refine (reads_operand h).bind fun x r1 h1 hx hr1 => ?_
    exact (reads_extend level hx hr1).bind fun y r2 h2 hy hr2 => ⟨hy, hr2⟩
termination_by 3 * ts.length

theorem reads_extend (level : Nat) {x : Expr} {us ts : List Token} (hx : Known P S x us)
    (h : Left P S ts) : Reads P S (Known P S) (extend level x ts) := by
  match ts, h with
  | [], h => exact h.nonempty.elim
  | t :: rest, h =>
    rw [extend.eq_def]
    dsimp only
    split
    · exact ⟨hx, h⟩
    · next c hc =>
      split
      · refine (reads_resume c hx h.head (h.of_continuation hc)).bind fun y r1 h1 hy hr1 => ?_
        exact (reads_extend level hy hr1).bind fun z r2 h2 hz hr2 => ⟨hz, hr2⟩
      · exact ⟨hx, h⟩
termination_by 3 * ts.length

theorem reads_exprs (close : Symbol) (fault : ParseFault) {ts : List Token} (h : Left P S ts) :
    Reads P S (AllKnown P S) (exprs close fault ts) := by
  rw [exprs.eq_def]
  split
  · refine (reads_expect h _ (by simp)).bind fun _ rest _ _ hrest => ⟨⟨?_, fun _ => trivial⟩, hrest⟩
    rw [Expr.AllAt]
    trivial
  · refine (reads_expr _ h).bind fun x r1 h1 hx hr1 => ?_
    have hpass := left_pass hr1 (.symbol .comma)
    dsimp only
    split
    · next r2 h2 heq =>
      rw [heq] at hpass
      refine (reads_exprs _ _ hpass).bind fun xs r3 h3 hxs hr3 => ?_
      exact ⟨⟨⟨hx.1, hxs.1⟩, fun hS => ⟨hx.2 hS, hxs.2 hS⟩⟩, hr3⟩
    · refine (reads_expect hr1 _ (by simp)).bind fun _ r2 h2 _ hr2 =>
        ⟨⟨?_, fun hS => ⟨hx.2 hS, trivial⟩⟩, hr2⟩
      rw [Expr.AllAt, Expr.AllAt]
      exact ⟨hx.1, trivial⟩
termination_by 3 * ts.length + 1

end

/-- What is known of a whole expression that was read from tokens and of those left. -/
structure ValueFrom (P : Int → Int → Prop) (S : Prop) (ts : List Token) (x : Expr)
    (rest : List Token) : Prop where
  at_places : x.At P
  sound : S → x.isSteady = true → x.Sound
  ends : Ends 0 rest
  starts : StartsAs ts (Layout.leading x)

theorem reads_value (h : Left P S ts) : Reads P S (ValueFrom P S ts) (expr 0 ts) := by
  have hread := reads_expr 0 h
  cases hx : expr 0 ts with
  | error e => rwa [hx] at hread
  | ok r =>
    obtain ⟨x, rest, hrest⟩ := r
    rw [hx] at hread
    obtain ⟨span, hts, hspan, hstops⟩ := exprSound ts 0 x rest (by rw [hx]; rfl)
    refine ⟨⟨hread.1.1, fun hS hsteady => ⟨hread.1.2 hS, hsteady⟩, hstops.ends, ?_⟩, hread.2⟩
    rw [hts]
    exact hspan.startsAs.append rest

/-! ### Declarations -/

/-- What is known of a statement that was read from tokens and of those left. -/
structure ReadFrom (ts : List Token) (s : Stmt) (rest : List Token) : Prop where
  sound : s.Sound
  ends : s.endsInExpr = true → Ends 0 rest
  starts : ∀ x, s = .expr x → StartsAs ts (Layout.leading x)

/-- What is known of statements in a row that were read from tokens. -/
structure AllReadFrom (ts : List Token) (ss : List Stmt) : Prop where
  sound : Stmt.AreSound ss
  starts : ∀ s ∈ ss.head?, ∀ x, s = .expr x → StartsAs ts (Layout.leading x)

/-- A statement is at places. If its tokens were scanned, then it has plain names of types, and is
sound if it is steady. -/
def StmtFrom (P : Int → Int → Prop) (S : Prop) (ts : List Token) (s : Stmt) (rest : List Token) : Prop :=
  s.At P ∧ (S → s.IsPlain ∧ (s.isSteady = true → ReadFrom ts s rest))

theorem ReadFrom.of_sound (hs : s.endsInExpr = false) (h : s.Sound) :
    ReadFrom ts s rest := by
  refine ⟨h, fun hends => ?_, ?_⟩
  · cases hs.symm.trans hends
  · rintro x rfl
    cases hs

theorem StmtFrom.of_sound (hat : s.At P) (hends : s.endsInExpr = false)
    (hplain : s.IsPlain) (h : S → s.isSteady = true → s.Sound) : StmtFrom P S ts s rest :=
  ⟨hat, fun hS => ⟨hplain, fun hs => .of_sound hends (h hS hs)⟩⟩

theorem reads_pathTail (path : Text) {ts : List Token} (h : Left P S ts) :
    Reads P S (fun full _ => S → Extends "/" path full) (pathTail path ts) := by
  match ts, h with
  | [], h => exact h.nonempty.elim
  | t :: rest, h =>
    rw [pathTail.eq_def]
    dsimp only
    split
    · next ht =>
      refine (reads_expect (h.after ht) _).bind fun part r1 h1 hpart hr1 => ?_
      exact (reads_pathTail _ hr1).bind fun full r2 h2 hfull hr2 =>
        ⟨fun hS => (hfull hS).cons (hpart.2 rfl hS), hr2⟩
    · exact ⟨fun _ => .rfl, h⟩
termination_by ts.length

theorem reads_useDecl (ht : t.At P) (h : Left P S ts) :
    Reads P S (fun d => StmtFrom P S us (.use d)) (useDecl t ts) := by
  refine (reads_expect h _).bind fun _ r1 h1 _ hr1 => ?_
  refine (reads_expect hr1 _).bind fun part r2 h2 hpart hr2 => ?_
  refine (reads_pathTail _ hr2).bind fun path r3 h3 hpath hr3 => ?_
  refine (reads_expect hr3 _).bind fun _ r4 h4 _ hr4 => ⟨.of_sound ht rfl trivial fun hS _ => ?_, hr4⟩
  exact ⟨_, (hpath hS).imp fun _ h => ⟨hpart.2 rfl hS, h⟩⟩

theorem reads_varDecl (pub const : Bool) (h : Left P S ts) :
    Reads P S (fun d => StmtFrom P S us (.var d)) (varDecl pub const ts) := by
  refine (reads_expect h _).bind fun name r1 h1 hname hr1 => ?_
  refine (reads_typeMark hr1).bind fun type r2 h2 htype hr2 => ?_
  refine (reads_expect hr2 _).bind fun _ r3 h3 _ hr3 => ?_
  refine (reads_value hr3).bind fun value r4 h4 hvalue hr4 => ⟨⟨?_, fun hS => ⟨trivial, fun hs => ?_⟩⟩, hr4⟩
  · exact ⟨hname.1, fun r hr => (htype r hr).1, hvalue.at_places⟩
  · exact ⟨⟨hname.2 rfl hS, fun r hr => (htype r hr).2 hS, hvalue.sound hS hs⟩, fun _ => hvalue.ends,
      nofun⟩

theorem reads_params {ts : List Token} (h : Left P S ts) :
    Reads P S (fun ps _ => ∀ p ∈ ps, p.At P ∧ (S → p.Wf)) (params ts) := by
  rw [params.eq_def]
  split
  · refine (reads_expect h _).bind fun _ rest _ _ hrest => ?_
    exact ⟨List.forall_mem_nil _, hrest⟩
  · refine (reads_expect h _).bind fun name r1 h1 hname hr1 => ?_
    refine (reads_expect hr1 _).bind fun _ r2 h2 _ hr2 => ?_
    refine (reads_typeRef hr2).bind fun type r3 h3 htype hr3 => ?_
    have hp : Binding.At P ⟨name, name.text, type⟩ ∧ (S → Binding.Wf ⟨name, name.text, type⟩) :=
      ⟨⟨hname.1, htype.1⟩, fun hS => ⟨hname.2 rfl hS, htype.2 hS⟩⟩
    have hpass := left_pass hr3 (.symbol .comma)
    dsimp only
    split
    · next r4 h4 heq =>
      rw [heq] at hpass
      refine (reads_params hpass).bind fun ps r5 h5 hps hr5 => ?_
      exact ⟨List.forall_mem_cons.2 ⟨hp, hps⟩, hr5⟩
    · refine (reads_expect hr3 _).bind fun _ r4 h4 _ hr4 => ?_
      exact ⟨List.forall_mem_singleton.2 hp, hr4⟩
termination_by ts.length

theorem reads_field (h : Left P S (t :: ts)) (ht : t.kind = .ident) :
    Reads P S (fun b _ => b.At P ∧ (S → b.Wf)) (field t ts) := by
  refine (reads_expect (h.after ht) _).bind fun _ r1 h1 _ hr1 => ?_
  refine (reads_typeRef hr1).bind fun type r2 h2 htype hr2 => ?_
  exact ⟨⟨⟨h.head, htype.1⟩, fun hS => ⟨h.isName ht hS, htype.2 hS⟩⟩, left_pass hr2 _⟩

theorem reads_returnValue (ht : t.At P) (h : Left P S ts) :
    Reads P S (fun value => StmtFrom P S us (.ret t value)) (returnValue t ts) := by
  unfold returnValue
  dsimp only
  split
  · exact ⟨.of_sound ⟨ht, nofun⟩ rfl trivial fun _ _ => nofun, h⟩
  · refine (reads_value h).bind fun x r1 h1 hx hr1 => ⟨⟨⟨ht, ?_⟩, fun hS => ⟨trivial, fun hs => ?_⟩⟩, hr1⟩
    · rintro _ ⟨⟩
      exact hx.at_places
    · refine ⟨?_, fun _ => hx.ends, nofun⟩
      rintro _ ⟨⟩
      exact hx.sound hS hs

/-! ### Statements -/

theorem apart_of_starts {s next : Stmt} (hends : s.endsInExpr = true → Ends 0 rest)
    (hstarts : ∀ x, next = .expr x → StartsAs rest (Layout.leading x))
    (hruns : s.runsInto next = false) : s.Apart next := by
  constructor
  · rintro hs x rfl
    obtain ⟨t, us, rfl, hkind⟩ := hstarts x rfl
    -- a continuation of any level would have been read as part of the statement
    have hnone : Continuation.ofKind? t.kind = none := by
      cases hc : Continuation.ofKind? t.kind with
      | none => rfl
      | some c =>
        have hle := hends hs c hc
        have hbounds := c.level_bounds
        omega
    rcases hkind with hkind | hkind | hkind
    · rw [hkind, hnone]
    · rw [Stmt.runsInto, hs, hkind] at hruns
      cases hruns
    · rw [hkind] at hnone
      cases hnone
  · rintro hs x rfl hkind
    rw [Stmt.runsInto, hs, hkind] at hruns
    simp at hruns

theorem AllReadFrom.cons {s : Stmt} {ss : List Stmt} (hs : ReadFrom ts s rest)
    (hss : AllReadFrom rest ss) (hruns : ss.head?.any s.runsInto = false) :
    AllReadFrom ts (s :: ss) := by
  refine ⟨⟨hs.sound, fun next hnext => ?_, hss.sound⟩, ?_⟩
  · rw [Option.mem_def] at hnext
    rw [hnext] at hruns
    exact apart_of_starts hs.ends (hss.starts next hnext) hruns
  · rintro _ ⟨⟩
    exact hs.starts

theorem armBody_sound (hs : (armBody s).isSteady = true)
    (h : s.isSteady = true → s.Sound) : (armBody s).Sound := by
  cases s with
  | block b => exact h hs
  | _ =>
    have hs : Stmt.areSteady [_] = true := hs
    rw [Stmt.areSteady, Bool.and_eq_true, Bool.and_eq_true] at hs
    exact ⟨h hs.1.1, nofun, trivial⟩

theorem at_armBody (h : s.At P) : (armBody s).At P := by
  unfold armBody
  split
  · rwa [Stmt.At] at h
  · rw [Block.At, Stmt.AllAt, Stmt.AllAt]
    exact ⟨h.tok, h, trivial⟩

/-- What is known of a function that was read as public or not. -/
def FuncFrom (P : Int → Int → Prop) (S : Prop) (pub : Bool) (d : FuncDecl) (_ : List Token) : Prop :=
  d.At P ∧ (S → d.IsPlain ∧ (d.isSteady = true → d.pub = pub ∧ d.Sound))

theorem FuncFrom.stmt (h : FuncFrom P S pub d rest) :
    StmtFrom P S ts (.func d) rest :=
  ⟨h.1, fun hS => ⟨(h.2 hS).1, fun hs => .of_sound rfl ((h.2 hS).2 hs).2⟩⟩

/-- What is known of the statements of a block. -/
def RowFrom (P : Int → Int → Prop) (S : Prop) (ts : List Token) (ss : List Stmt) (_ : List Token) : Prop :=
  Stmt.AllAt P ss ∧ (S → Stmt.areSteady ss = true → AllReadFrom ts ss)

/-- What is known of the fields and methods of a struct. -/
def ItemsFrom (P : Int → Int → Prop) (S : Prop) (r : List Binding × List FuncDecl) (_ : List Token) : Prop :=
  ((∀ f ∈ r.1, f.At P) ∧ FuncDecl.AllAt P r.2) ∧ (S → (∀ b ∈ r.1, b.Wf) ∧
    (∀ m ∈ r.2, m.IsPlain) ∧ (FuncDecl.areSteady r.2 = true → FuncDecl.AreSound r.2))

def IfFrom (P : Int → Int → Prop) (S : Prop) (c : IfStmt) (_ : List Token) : Prop :=
  c.At P ∧ (S → c.isSteady = true → c.Sound)

def ArmsFrom (P : Int → Int → Prop) (S : Prop) (as : List CaseArm) (_ : List Token) : Prop :=
  CaseArm.AllAt P as ∧ (S → CaseArm.areSteady as = true → CaseArm.AreSound as)

mutual

theorem reads_block {ts : List Token} (h : Left P S ts) :
    Reads P S (fun b _ => b.At P ∧ (S → b.isSteady = true → b.Sound)) (block ts) := by
  rw [block.eq_def]
  refine (reads_expect h _).bind fun tok r1 h1 htok hr1 => ?_
  refine (reads_blockItems hr1).bind fun ss r2 h2 hss hr2 => ?_
  exact ⟨⟨⟨htok.1, hss.1⟩, fun hS hs => (hss.2 hS hs).sound⟩, hr2⟩
termination_by 3 * ts.length

theorem reads_funcDecl (pub : Bool) {ts : List Token} (h : Left P S ts) :
    Reads P S (FuncFrom P S pub) (funcDecl pub ts) := by
  rw [funcDecl.eq_def]
  refine (reads_expect h _).bind fun name r1 h1 hname hr1 => ?_
  refine (reads_expect hr1 _).bind fun _ r2 h2 _ hr2 => ?_
  refine (reads_params hr2).bind fun ps r3 h3 hps hr3 => ?_
  refine (reads_typeMark hr3).bind fun result r4 h4 hresult hr4 => ?_
  refine (reads_block hr4).bind fun body r5 h5 hbody hr5 => ⟨⟨?_, fun hS => ⟨?_, fun hs => ?_⟩⟩, hr5⟩
  · exact ⟨hname.1, fun p hp => (hps p hp).1, fun r hr => (hresult r hr).1, hbody.1⟩
  · exact ⟨(hname.2 rfl hS).isWord, fun p hp => ((hps p hp).2 hS).type.isPlain,
      fun hr => ((hresult _ hr).2 hS).isPlain⟩
  · exact ⟨rfl, hname.2 rfl hS, fun p hp => (hps p hp).2 hS, fun r hr => (hresult r hr).2 hS,
      hbody.2 hS hs⟩
termination_by 3 * ts.length

theorem reads_typeDecl (pub : Bool) {us ts : List Token} (h : Left P S ts) :
    Reads P S (StmtFrom P S us) (typeDecl pub ts) := by
  rw [typeDecl.eq_def]
  refine (reads_expect h _).bind fun name r1 h1 hname hr1 => ?_
  refine (reads_expect hr1 _).bind fun _ r2 h2 _ hr2 => ?_
  dsimp only
  split
  · refine (reads_expect hr2 _).bind fun _ r3 h3 _ hr3 => ?_
    refine (reads_expect hr3 _).bind fun _ r4 h4 _ hr4 => ?_
    refine (reads_structItems hr4).bind fun items r5 h5 hitems hr5 => ?_
    refine ⟨⟨⟨hname.1, hitems.1⟩, fun hS => ?_⟩, hr5⟩
    obtain ⟨hfs, hms, hsound⟩ := hitems.2 hS
    have hname := hname.2 rfl hS
    exact ⟨⟨hname.isWord, fun f hf => (hfs f hf).type.isPlain, hms⟩,
      fun hs => .of_sound rfl ⟨hname, hfs, hsound hs⟩⟩
  · exact hr2.peek
  · refine (reads_typeRef hr2).bind fun type r3 h3 htype hr3 => ?_
    exact ⟨⟨⟨hname.1, htype.1⟩, fun hS => ⟨(htype.2 hS).isPlain,
      fun _ => .of_sound rfl ⟨hname.2 rfl hS, htype.2 hS⟩⟩⟩, hr3⟩
termination_by 3 * ts.length

theorem reads_stmt {ts : List Token} (h : Left P S ts) : Reads P S (StmtFrom P S ts) (stmt ts) := by
  match ts, h with
  | [], h => exact h.nonempty.elim
  | t :: rest, h =>
    rw [stmt.eq_def]
    dsimp only
    split
    · next ht => exact (reads_useDecl h.head (h.after ht)).bind fun d r h hd hr => ⟨hd, hr⟩
    · next ht =>
      have hl := h.after ht
      cases rest with
      | nil => exact hl.nonempty.elim
      | cons u rest' =>
        dsimp only
        split
        · next hu => exact (reads_funcDecl true (hl.after hu)).bind fun d r h hd hr => ⟨hd.stmt, hr⟩
        · next hu => exact (reads_typeDecl true (hl.after hu)).bind fun s r h hs hr => ⟨hs, hr⟩
        · next hu => exact (reads_varDecl _ _ (hl.after hu)).bind fun d r h hd hr => ⟨hd, hr⟩
        · next hu => exact (reads_varDecl _ _ (hl.after hu)).bind fun d r h hd hr => ⟨hd, hr⟩
        · exact hl.head
    · next ht =>
      exact (reads_typeDecl false (h.after ht)).bind fun s r h hs hr => ⟨hs, hr⟩
    · next ht =>
      exact (reads_funcDecl false (h.after ht)).bind fun d r h hd hr => ⟨hd.stmt, hr⟩
    · next ht => exact (reads_varDecl _ _ (h.after ht)).bind fun d r h hd hr => ⟨hd, hr⟩
    · next ht => exact (reads_varDecl _ _ (h.after ht)).bind fun d r h hd hr => ⟨hd, hr⟩
    · next ht =>
      exact (reads_ifStmt (h.after ht) h.head).bind fun c r h hc hr =>
        ⟨.of_sound hc.1 rfl trivial hc.2, hr⟩
    · next ht =>
      refine (reads_value (h.after ht)).bind fun x r1 h1 hx hr1 => ?_
      refine (reads_block hr1).bind fun b r2 h2 hb hr2 =>
        ⟨.of_sound ⟨h.head, hx.at_places, hb.1⟩ rfl trivial fun hS hs => ?_, hr2⟩
      rw [Stmt.isSteady, Bool.and_eq_true] at hs
      exact ⟨hx.sound hS hs.1, hb.2 hS hs.2⟩
    · next ht =>
      refine (reads_expect (h.after ht) _).bind fun name r1 h1 hname hr1 => ?_
      refine (reads_expect hr1 _).bind fun _ r2 h2 _ hr2 => ?_
      refine (reads_value hr2).bind fun x r3 h3 hx hr3 => ?_
      refine (reads_block hr3).bind fun b r4 h4 hb hr4 =>
        ⟨.of_sound ⟨h.head, hx.at_places, hb.1⟩ rfl trivial fun hS hs => ?_, hr4⟩
      rw [Stmt.isSteady, Bool.and_eq_true] at hs
      exact ⟨hname.2 rfl hS, hx.sound hS hs.1, hb.2 hS hs.2⟩
    · next ht =>
      refine (reads_value (h.after ht)).bind fun x r1 h1 hx hr1 => ?_
      refine (reads_expect hr1 _).bind fun _ r2 h2 _ hr2 => ?_
      refine (reads_caseArms hr2).bind fun arms r3 h3 harms hr3 =>
        ⟨.of_sound ⟨h.head, hx.at_places, harms.1⟩ rfl trivial fun hS hs => ?_, hr3⟩
      rw [Stmt.isSteady, Bool.and_eq_true] at hs
      exact ⟨hx.sound hS hs.1, harms.2 hS hs.2⟩
    · next ht => exact (reads_returnValue h.head (h.after ht)).bind fun x r h' hx hr => ⟨hx, hr⟩
    · next ht => exact ⟨.of_sound h.head rfl trivial fun _ _ => .inl ht, h.after ht⟩
    · next ht => exact ⟨.of_sound h.head rfl trivial fun _ _ => .inr ht, h.after ht⟩
    · exact (reads_block h).bind fun b r h hb hr => ⟨.of_sound hb.1 rfl trivial hb.2, hr⟩
    · refine (reads_value h).bind fun x r h hx hr => ⟨⟨hx.at_places, fun hS => ⟨trivial, fun hs => ?_⟩⟩, hr⟩
      refine ⟨hx.sound hS hs, fun _ => hx.ends, ?_⟩
      rintro _ ⟨⟩
      exact hx.starts
termination_by 3 * ts.length + 1

theorem reads_blockItems {ts : List Token} (h : Left P S ts) :
    Reads P S (RowFrom P S ts) (blockItems ts) := by
  rw [blockItems.eq_def]
  split
  · refine (reads_expect h _).bind fun _ rest _ _ hrest =>
      ⟨⟨?_, fun _ _ => ⟨trivial, by rintro _ ⟨⟩⟩⟩, hrest⟩
    rw [Stmt.AllAt]
    trivial
  · exact h.peek
  · refine (reads_stmt h).bind fun s r1 h1 hs hr1 => ?_
    refine (reads_blockItems hr1).bind fun ss r2 h2 hss hr2 =>
      ⟨⟨⟨hs.1, hss.1⟩, fun hS hsteady => ?_⟩, hr2⟩
    rw [Stmt.areSteady, Bool.and_eq_true, Bool.and_eq_true, Bool.not_eq_true'] at hsteady
    exact .cons ((hs.2 hS).2 hsteady.1.1) (hss.2 hS hsteady.2) hsteady.1.2
termination_by 3 * ts.length + 2

theorem reads_structItems {ts : List Token} (h : Left P S ts) :
    Reads P S (ItemsFrom P S) (structItems ts) := by
  match ts, h with
  | [], h => exact h.nonempty.elim
  | t :: rest, h =>
    rw [structItems.eq_def]
    dsimp only
    split
    · next ht =>
      refine ⟨⟨⟨List.forall_mem_nil _, ?_⟩, fun _ => ?_⟩, h.after ht⟩
      · rw [FuncDecl.AllAt]
        trivial
      · exact ⟨List.forall_mem_nil _, List.forall_mem_nil _, fun _ => trivial⟩
    · next ht =>
      refine (reads_field h ht).bind fun f r1 h1 hf hr1 => ?_
      refine (reads_structItems hr1).bind fun items r2 h2 hitems hr2 => ?_
      exact ⟨⟨⟨List.forall_mem_cons.2 ⟨hf.1, hitems.1.1⟩, hitems.1.2⟩,
        fun hS => ⟨List.forall_mem_cons.2 ⟨hf.2 hS, (hitems.2 hS).1⟩, (hitems.2 hS).2⟩⟩, hr2⟩
    · next ht =>
      refine (reads_funcDecl true (h.after ht)).bind fun m r1 h1 hm hr1 => ?_
      refine (reads_structItems hr1).bind fun items r2 h2 hitems hr2 =>
        ⟨⟨⟨hitems.1.1, hm.1, hitems.1.2⟩, fun hS => ?_⟩, hr2⟩
      obtain ⟨hfs, hms, hsound⟩ := hitems.2 hS
      refine ⟨hfs, List.forall_mem_cons.2 ⟨(hm.2 hS).1, hms⟩, fun hsteady => ?_⟩
      rw [FuncDecl.areSteady, Bool.and_eq_true] at hsteady
      obtain ⟨hpub, hm⟩ := (hm.2 hS).2 hsteady.1
      exact ⟨hpub, hm, hsound hsteady.2⟩
    · exact h.head
termination_by 3 * ts.length

theorem reads_ifStmt {t : Token} {ts : List Token} (h : Left P S ts) (ht : t.At P) :
    Reads P S (IfFrom P S) (ifStmt t ts) := by
  rw [ifStmt.eq_def]
  refine (reads_value h).bind fun x r1 h1 hx hr1 => ?_
  refine (reads_block hr1).bind fun b r2 h2 hb hr2 => ?_
  -- whatever follows, the condition and the block are known
  have hcond : ∀ {e : Else}, e.At P → (S → e.isSteady = true → e.Sound) →
      (IfStmt.mk t x b e).At P ∧ (S → (IfStmt.mk t x b e).isSteady = true → (IfStmt.mk t x b e).Sound) := by
    intro e he hsound
    refine ⟨⟨ht, hx.at_places, hb.1, he⟩, fun hS hs => ?_⟩
    rw [IfStmt.isSteady, Bool.and_eq_true, Bool.and_eq_true] at hs
    exact ⟨hx.sound hS hs.1.1, hb.2 hS hs.1.2, hsound hS hs.2⟩
  have hpass := left_pass hr2 (.keyword .else_)
  dsimp only
  split
  · next r3 h3 heq =>
    rw [heq] at hpass
    exact ⟨hcond trivial fun _ _ => trivial, hpass⟩
  · next r3 h3 heq =>
    rw [heq] at hpass
    dsimp only at hpass
    cases r3 with
    | nil => exact hpass.nonempty.elim
    | cons next r4 =>
      have hr4 : r4.length + 1 ≤ r2.length := h3.2
      dsimp only
      split
      · next hnext =>
        refine (reads_ifStmt (hpass.after hnext) hpass.head).bind fun c r5 h5 hc hr5 => ?_
        exact ⟨hcond hc.1 hc.2, hr5⟩
      · refine (reads_block hpass).bind fun c r5 h5 hc hr5 => ?_
        exact ⟨hcond hc.1 hc.2, hr5⟩
      · exact hpass.head
termination_by 3 * ts.length

theorem reads_caseArms {ts : List Token} (h : Left P S ts) :
    Reads P S (ArmsFrom P S) (caseArms ts) := by
  rw [caseArms.eq_def]
  split
  · refine (reads_expect h _).bind fun _ rest _ _ hrest => ⟨⟨?_, fun _ _ => trivial⟩, hrest⟩
    rw [CaseArm.AllAt]
    trivial
  · exact h.peek
  · refine (reads_typeName h).bind fun type r1 h1 htype hr1 => ?_
    refine (reads_expect hr1 _).bind fun name r2 h2 hname hr2 => ?_
    refine (reads_expect hr2 _).bind fun _ r3 h3 _ hr3 => ?_
    refine (reads_stmt hr3).bind fun s r4 h4 hs hr4 => ?_
    refine (reads_caseArms hr4).bind fun arms r5 h5 harms hr5 => ⟨⟨?_, fun hS hsteady => ?_⟩, hr5⟩
    · rw [CaseArm.AllAt, CaseArm.At]
      exact ⟨⟨hname.1, htype.1, at_armBody hs.1⟩, harms.1⟩
    · rw [CaseArm.areSteady, Bool.and_eq_true] at hsteady
      have hbody := armBody_sound hsteady.1 fun hsteady => ((hs.2 hS).2 hsteady).sound
      exact ⟨⟨htype.2 hS, hname.2 rfl hS, hbody⟩, harms.2 hS hsteady.2⟩
termination_by 3 * ts.length

end

/-! ### Programs -/

/-- Statements are read up to the end marker after those already read, or refused at a place. -/
def ReadsAll (P : Int → Int → Prop) (S : Prop) (read : List Stmt) (ts : List Token) :
    Except ParseError (List Stmt) → Prop
  | .error e => e.tok.At P
  | .ok ss => ∃ new, ss = read.reverse ++ new ∧ (∀ s ∈ new, s.At P) ∧
    (S → (∀ s ∈ new, s.IsPlain) ∧ (Stmt.areSteady new = true → AllReadFrom ts new))

theorem readsAll_stmtsOnto {read : List Stmt} {ts : List Token} (h : Left P S ts) :
    ReadsAll P S read ts (stmtsOnto read ts) := by
  fun_induction stmtsOnto read ts with
  | case1 read => exact h.nonempty.elim
  | case2 read t rest ht =>
    exact ⟨[], (List.append_nil _).symm, List.forall_mem_nil _,
      fun _ => ⟨List.forall_mem_nil _, fun _ => ⟨trivial, nofun⟩⟩⟩
  | case3 read t rest ht e heq =>
    have hstmt := reads_stmt h
    rwa [heq] at hstmt
  | case4 read t rest ht s r hr heq _ ih =>
    have hstmt := reads_stmt h
    rw [heq] at hstmt
    have ih := ih hstmt.2
    cases hss : stmtsOnto (s :: read) r with
    | error e => rwa [hss] at ih
    | ok ss =>
      rw [hss] at ih
      obtain ⟨new, rfl, hat, hnew⟩ := ih
      refine ⟨s :: new, ?_, List.forall_mem_cons.2 ⟨hstmt.1.1, hat⟩, fun hS => ?_⟩
      · rw [List.reverse_cons, List.append_assoc, List.singleton_append]
      obtain ⟨hplain, hsound⟩ := hstmt.1.2 hS
      refine ⟨List.forall_mem_cons.2 ⟨hplain, (hnew hS).1⟩, fun hsteady => ?_⟩
      rw [Stmt.areSteady, Bool.and_eq_true, Bool.and_eq_true, Bool.not_eq_true'] at hsteady
      exact .cons (hsound hsteady.1.1) ((hnew hS).2 hsteady.2) hsteady.1.2

/-- The statements of a program that is read from tokens are at their places, and if it is refused, then
at one of them. If the tokens were scanned, then the statements have plain names of types, and are sound
if they are steady. -/
theorem of_program (h : Left P S ts) : (∀ e, program ts = .error e → e.tok.At P) ∧
    ∀ p, program ts = .ok p → (∀ s ∈ p.stmts, s.At P) ∧
      (S → (∀ s ∈ p.stmts, s.IsPlain) ∧ (p.isSteady = true → Stmt.AreSound p.stmts)) := by
  have hread : ReadsAll P S [] ts _ := readsAll_stmtsOnto h
  unfold Parser.program
  cases hss : stmtsOnto [] ts with
  | error e =>
    rw [hss] at hread
    constructor
    · rintro _ ⟨⟩
      exact hread
    · rintro _ ⟨⟩
  | ok ss =>
    rw [hss] at hread
    obtain ⟨new, rfl, hat, hnew⟩ := hread
    constructor
    · rintro _ ⟨⟩
    · rintro _ ⟨⟩
      exact ⟨hat, fun hS => (hnew hS).imp_right fun hsound hp => (hsound hp).sound⟩

theorem left_of_tokens (h : Source.tokens src = .ok ts) (hP : ∀ t ∈ ts, t.At P) :
    Left P True ts :=
  ⟨hP, fun _ => (Source.isScanned_of_tokens h).1, (Source.isScanned_of_tokens h).2⟩

end

end Parser

/-- The declarations of a source have plain names of types. -/
theorem Source.isPlain_of_program (h : Source.program src = .ok p) :
    ∀ s ∈ p.stmts, s.IsPlain := by
  unfold Source.program at h
  split at h
  · cases h
  · next ts hts =>
    split at h
    · cases h
    · next q hq =>
      cases h
      have hleft := left_of_tokens (P := fun _ _ => True) hts fun _ _ => trivial
      exact (((of_program hleft).2 p hq).2 trivial).1

end Classwright
