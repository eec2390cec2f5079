import Classwright.Proofs.Syntax.Bare
import Classwright.Proofs.Syntax.Parsed

/-!
The text of a type or an expression spells it again. Operands are followed by any text that does not
go on with a word; a whole expression may end in an operator, so what follows must not go on with a
symbol either.
-/

open Classwright.Grammar Classwright.Parser

namespace Classwright

/-- Tokens of which the first has a kind and stands on a line. -/
def StartsAt (line : Nat) (k : Kind) (ts : List Token) : Prop :=
  ∃ t us, ts = t :: us ∧ t.kind = k ∧ t.line = line

theorem StartsAt.append (h : StartsAt line k ts)
    (us : List Token) : StartsAt line k (ts ++ us) := by
  obtain ⟨t, ts', rfl, h⟩ := h
  exact ⟨t, ts' ++ us, rfl, h⟩

/-- At every place, a text that is followed as required is read as tokens of some form, of which the
first has a kind and stands at that place. -/
def ReadsAs (text : Text) (F : Text → Prop) (k : Kind) (R : List Token → Prop) : Prop :=
  ∀ pos : Pos, ∃ ts pos', Source.Scans pos text F ts pos' ∧ StartsAt pos.line k ts ∧ R ts

theorem ReadsAs.mono
    (h : ReadsAs text F k R) (hF : ∀ rest, G rest → F rest) (hR : ∀ ts, R ts → S ts) :
    ReadsAs text G k S := by
  intro pos
  obtain ⟨ts, pos', hscan, hstart, hts⟩ := h pos
  exact ⟨ts, pos', hscan.mono hF, hstart, hR ts hts⟩

/-! ### Names -/

theorem Text.isDigit_of_isLetter (h : Text.isLetter b = true) : Text.isDigit b = false := by
  unfold Text.isLetter ascii at h
  unfold Text.isDigit ascii
  grind

namespace IsName

variable {name : Text} (h : IsName name)
include h

theorem letter : ∃ b w, name = b :: w ∧ Text.isLetter b = true := by
  obtain ⟨b, w, htext, -, -, hlexeme⟩ := h
  exact ⟨b, w, htext, Source.isLetter_of_ident (hlexeme [] ⟨nofun, nofun, rfl⟩)⟩

theorem scans (pos : Pos) :
    Source.Scans pos name Source.EndsWord [pos.token .ident name] (pos.after name) :=
  .token pos h

theorem endsSymbol (rest : Text) : Source.EndsSymbol (name ++ rest) :=
  Token.Rescans.endsSymbol h nofun rest

/-- A point and a name end a number. -/
theorem endsWord_dot (rest : Text) : Source.EndsWord (Symbol.dot.spelling ++ name ++ rest) := by
  obtain ⟨b, w, rfl, hb⟩ := h.letter
  refine ⟨Source.endsDigits_cons (by decide) _, fun | _, _, rfl => by decide, ?_⟩
  exact if_neg (by rw [Text.isDigit_of_isLetter hb]; decide)

end IsName

/-! ### Types -/

section
variable {rest : Text}

theorem endsWord_parts {parts : List Text} (hparts : ∀ p ∈ parts, IsName p)
    (hrest : Source.EndsWord rest) :
    Source.EndsWord (parts.flatMap (Symbol.dot.spelling ++ ·) ++ rest) := by
  cases parts with
  | nil => exact hrest
  | cons part parts =>
    rw [List.flatMap_cons, List.append_assoc]
    exact (hparts part (.head _)).endsWord_dot _

theorem scans_parts {parts : List Text} (hparts : ∀ p ∈ parts, IsName p) (pos : Pos) :
    ∃ ts pos', Source.Scans pos (parts.flatMap (Symbol.dot.spelling ++ ·)) Source.EndsWord ts pos'
      ∧ Parts ts (parts.flatMap (Symbol.dot.spelling ++ ·)) := by
  induction parts generalizing pos with
  | nil => exact ⟨[], pos, .nil, .nil⟩
  | cons part parts ih =>
    obtain ⟨hpart, hparts⟩ := List.forall_mem_cons.1 hparts
    have hdot := Source.Scans.symbol pos .dot
    have hname := hdot.append (hpart.scans _) fun rest _ => .inr (hpart.endsSymbol rest)
    obtain ⟨ts, pos', hscan, hts⟩ := ih hparts _
    exact ⟨_, pos', hname.append hscan fun rest => endsWord_parts hparts, .cons rfl rfl hts⟩

theorem scans_brackets (list : Bool) (pos : Pos) :
    ∃ ts pos', Source.Scans pos (.ofString (if list then "[]" else "")) Source.Any ts pos' ∧ Brackets ts list := by
  cases list with
  | false => exact ⟨[], pos, .nil, .none⟩
  | true =>
    have h := (Source.Scans.bracket pos (s := .lbrack) (by decide)).andThen
      (.bracket _ (s := .rbrack) (by decide))
    exact ⟨_, _, h, .pair rfl rfl⟩

theorem scans_question (nullable : Bool) (pos : Pos) :
    ∃ ts pos', Source.Scans pos (.ofString (if nullable then "?" else "")) Source.Any ts pos'
      ∧ Question ts nullable := by
  cases nullable with
  | false => exact ⟨[], pos, .nil, .none⟩
  | true => exact ⟨_, _, .bracket pos (s := .question) (by decide), .mark rfl⟩

theorem endsWord_brackets (list : Bool) (hrest : Source.EndsWord rest) :
    Source.EndsWord (Text.ofString (if list then "[]" else "") ++ rest) := by
  cases list with
  | false => exact hrest
  | true => exact Source.endsWord_cons (by decide) _

theorem endsWord_question (nullable : Bool) (hrest : Source.EndsWord rest) :
    Source.EndsWord (Text.ofString (if nullable then "?" else "") ++ rest) := by
  cases nullable with
  | false => exact hrest
  | true => exact Source.endsWord_cons (by decide) _

end

theorem TypeName.Wf.reads {type : TypeName} (h : type.Wf) :
    ReadsAs type.layout Source.EndsWord .ident
      fun ts => ∃ type', Named ts type' ∧ type'.bare = type.bare := by
  intro pos
  obtain ⟨tok, name, list, nullable⟩ := type
  obtain ⟨first, parts, hfirst, hparts, hname⟩ := h
  change name = _ at hname
  subst hname
  obtain ⟨ts, pos₁, hscan₁, hts⟩ := scans_parts hparts (pos.after first)
  obtain ⟨us, pos₂, hscan₂, hus⟩ := scans_brackets list pos₁
  obtain ⟨vs, pos₃, hscan₃, hvs⟩ := scans_question nullable pos₂
  have h₁ := (hfirst.scans pos).append hscan₁ fun _ => endsWord_parts hparts
  have h₂ := h₁.append (hscan₂.mono fun rest (_ : Source.EndsWord rest) => trivial)
    fun _ => endsWord_brackets list
  have h₃ := h₂.append (hscan₃.mono fun rest (_ : Source.EndsWord rest) => trivial)
    fun _ => endsWord_question nullable
  exact ⟨_, pos₃, h₃, ⟨_, _, rfl, rfl, rfl⟩, _, .mk rfl hts hus hvs, rfl⟩

/-! ### Expressions -/

/-- The text of an expression spells it again, alone and as an operand. -/
structure Reprinted (x : Expr) : Prop where
  whole : ReadsAs (Layout.expr x) Source.EndsBoth (Layout.leading x) fun ts =>
    ∃ y, Spells 0 ts y ∧ (x.isAssign = false → Spells 1 ts y) ∧ y.bare = x.bare
  operand : ReadsAs (Layout.parens x (Layout.expr x)) Source.EndsWord
    (Layout.leadingOperand x (Layout.leading x)) fun ts => ∃ y, Suffixed 9 ts y ∧ y.bare = x.bare
  starts : ∀ rest, Source.EndsSymbol (Layout.parens x (Layout.expr x) ++ rest)

namespace Reprinted

section
variable {x y : Expr}

theorem of_tight (hx : Layout.isLoose x = false)
    (h : ReadsAs (Layout.expr x) Source.EndsWord (Layout.leading x) fun ts =>
      ∃ y, Suffixed 9 ts y ∧ y.bare = x.bare)
    (hstarts : ∀ rest, Source.EndsSymbol (Layout.expr x ++ rest)) : Reprinted x := by
  refine ⟨h.mono (fun _ hrest => hrest.word) ?_, ?_, ?_⟩
  · rintro ts ⟨y, hy, hbare⟩
    exact ⟨y, .suffixed (hy.lower (by decide)), fun _ => .suffixed (hy.lower (by decide)), hbare⟩
  · rw [Layout.parens, Layout.leadingOperand, hx]
    exact h
  · rw [Layout.parens, hx]
    exact hstarts

/-- An operand in parentheses. -/
theorem of_loose (hx : Layout.isLoose x = true)
    (h : ReadsAs (Layout.expr x) Source.EndsBoth (Layout.leading x) fun ts =>
      ∃ y, Spells 0 ts y ∧ (x.isAssign = false → Spells 1 ts y) ∧ y.bare = x.bare) :
    Reprinted x := by
  refine ⟨h, ?_, ?_⟩
  · rw [Layout.parens, Layout.leadingOperand, if_pos hx, if_pos hx]
    intro pos
    have hl := Source.Scans.bracket pos (s := .lparen) (by decide)
    obtain ⟨ts, pos₁, hscan, -, y, hy, -, hbare⟩ := h (pos.after Symbol.lparen.spelling)
    have hr := Source.Scans.bracket pos₁ (s := .rparen) (by decide)
    have hscan' := (hl.andThen hscan).append hr fun rest _ =>
      Source.endsBoth_cons (by decide) _
    exact ⟨_, _, hscan'.mono fun _ _ => trivial, ⟨_, _, rfl, rfl, rfl⟩, y, .group rfl hy rfl, hbare⟩
  · rw [Layout.parens, if_pos hx]
    exact fun rest => Source.endsSymbol_cons (by decide) _

theorem literal (ht : isLiteral t.kind = true) (h : t.Rescans) :
    Reprinted (.literal t) := by
  have hkind : ∀ s, t.kind ≠ .symbol s := by
    intro s hs
    rw [hs] at ht
    cases ht
  exact of_tight rfl (fun pos => ⟨_, _, .token pos h, ⟨_, _, rfl, rfl, rfl⟩, _, .literal ht, rfl⟩)
    (h.endsSymbol hkind)

theorem ident (h : IsName name) (tok : Token) : Reprinted (.ident tok name) :=
  of_tight rfl (fun pos => ⟨_, _, h.scans pos, ⟨_, _, rfl, rfl, rfl⟩, _, .ident rfl, rfl⟩)
    h.endsSymbol

theorem unary (hx : Reprinted x) (tok : Token) (op : UnaryOp) : Reprinted (.unary tok op x) := by
  refine of_loose rfl fun pos => ?_
  obtain ⟨ts, pos', hscan, -, y, hy, hbare⟩ := hx.operand (pos.after op.symbol.spelling)
  have hscan' := (Source.Scans.symbol pos op.symbol).append hscan fun rest _ =>
    .inr (hx.starts rest)
  refine ⟨_, pos', hscan'.mono fun _ hrest => hrest.word, ⟨_, _, rfl, rfl, rfl⟩, ?_⟩
  refine ⟨.unary _ op y, .unary rfl (.suffixed hy), fun _ => .unary rfl (.suffixed hy), ?_⟩
  rw [Expr.bare, hbare, Expr.bare]

theorem step (hx : Reprinted x) (tok : Token) (op : StepOp) : Reprinted (.step tok op x) := by
  refine of_loose rfl fun pos => ?_
  obtain ⟨ts, pos', hscan, hstart, y, hy, hbare⟩ := hx.operand pos
  have hscan' := hscan.append (.symbol pos' op.symbol) fun rest _ =>
    Source.endsWord_symbol (by cases op <;> decide) rest
  have hsuffixed : Suffixed 9 _ (.step (pos'.token (.symbol op.symbol) op.symbol.spelling) op y) :=
    .step (by decide) hy rfl
  refine ⟨_, _, hscan'.mono fun _ hrest => .inr hrest.symbol, hstart.append _, ?_⟩
  refine ⟨_, .suffixed (hsuffixed.lower (by decide)),
    fun _ => .suffixed (hsuffixed.lower (by decide)), ?_⟩
  rw [Expr.bare, hbare, Expr.bare]

theorem scans_operator (op : BinaryOp) (pos : Pos) : ∃ t pos',
    Source.Scans pos (Layout.operator op) Source.EndsSymbol [t] pos' ∧ t.kind = .symbol op.symbol := by
  by_cases hop : op = .range
  · subst hop
    exact ⟨_, _, (Source.Scans.symbol pos .range).mono fun _ hrest => .inr hrest, rfl⟩
  · have hspaced : Layout.operator op = " " ++ (op.symbol.spelling ++ " ") := by
      cases op <;> first | exact absurd rfl hop | rfl
    rw [hspaced]
    exact ⟨_, _, (Source.Scans.spaced pos op.symbol).mono fun _ _ => trivial, rfl⟩

theorem endsWord_operator (op : BinaryOp) (rest : Text) :
    Source.EndsWord (Layout.operator op ++ rest) := by
  cases op with
  | range => exact Source.endsWord_symbol (s := .range) (by decide) rest
  | _ => exact Source.endsWord_of_blank (by decide) _

theorem binary (hx : Reprinted x) (hy : Reprinted y) (tok : Token) (op : BinaryOp) :
    Reprinted (.binary tok op x y) := by
  refine of_loose rfl fun pos => ?_
  obtain ⟨ts, pos₁, hscan₁, hstart, x', hx', hbarex⟩ := hx.operand pos
  obtain ⟨t, pos₂, hscan₂, ht⟩ := scans_operator op pos₁
  obtain ⟨us, pos₃, hscan₃, -, y', hy', hbarey⟩ := hy.operand pos₂
  have hscan := (hscan₁.append hscan₂ fun rest _ => endsWord_operator op rest).append hscan₃
    fun rest _ => hy.starts rest
  have hlevels : leftLevel op ≤ 9 ∧ rightLevel op ≤ 9 ∧ 1 < binaryLevel op := by
    cases op <;> decide
  have hspells {level : Nat} (hlevel : level < binaryLevel op) :
      Spells level (ts ++ t :: us) (.binary t op x' y') :=
    .binary ht hlevel (.suffixed (hx'.lower hlevels.1)) (.suffixed (hy'.lower hlevels.2.1))
  rw [List.append_assoc ts] at hscan
  refine ⟨_, pos₃, hscan.mono fun _ hrest => hrest.word, hstart.append _, .binary t op x' y', ?_⟩
  refine ⟨hspells (by omega), fun _ => hspells hlevels.2.2, ?_⟩
  rw [Expr.bare, hbarex, hbarey, Expr.bare]

/-- The target of an assignment is none itself. -/
theorem assign (hx : Reprinted x) (hy : Reprinted y) (hassign : x.isAssign = false) (tok : Token)
    (op : AssignOp) : Reprinted (.assign tok op x y) := by
  refine of_loose rfl fun pos => ?_
  obtain ⟨ts, pos₁, hscan₁, hstart, x', -, hx', hbarex⟩ := hx.whole pos
  have hscan₂ := Source.Scans.spaced pos₁ op.symbol
  obtain ⟨us, pos₃, hscan₃, -, y', hy', -, hbarey⟩ :=
    hy.whole (((pos₁.after " ").after op.symbol.spelling).after " ")
  have hscan := (hscan₁.append hscan₂ fun rest _ => Source.endsBoth_of_blank (by decide) _).andThen
    hscan₃
  have htext : Layout.expr (.assign tok op x y)
      = Layout.expr x ++ (" " ++ (op.symbol.spelling ++ " ")) ++ Layout.expr y := by
    rw [Layout.expr]
    simp only [List.append_assoc]
  rw [htext]
  rw [List.append_assoc ts] at hscan
  refine ⟨_, pos₃, hscan, hstart.append _, .assign _ op x' y', .assign rfl (hx' hassign) hy', nofun, ?_⟩
  rw [Expr.bare, hbarex, hbarey, Expr.bare]

theorem property (hx : Reprinted x) (hname : IsName name) (tok : Token) :
    Reprinted (.property tok x name) := by
  refine of_tight rfl (fun pos => ?_) ?_
  · obtain ⟨ts, pos₁, hscan₁, hstart, y, hy, hbare⟩ := hx.operand pos
    have hscan₂ := (Source.Scans.symbol pos₁ .dot).append (hname.scans _) fun rest _ =>
      .inr (hname.endsSymbol rest)
    have hscan := hscan₁.append hscan₂ fun rest _ => hname.endsWord_dot rest
    rw [← List.append_assoc] at hscan
    refine ⟨_, _, hscan, hstart.append _, _, .property (by decide) hy rfl rfl, ?_⟩
    rw [Expr.bare, hbare, Expr.bare]
    rfl
  · intro rest
    have := hx.starts (Symbol.dot.spelling ++ (name ++ rest))
    rwa [← List.append_assoc, ← List.append_assoc] at this

end

/-! ### Arguments -/

/-- Expressions with commas between them and a closing bracket spell them again. -/
theorem scans_items (hclose : close = .rparen ∨ close = .rbrack)
    (h : ∀ x ∈ xs, Reprinted x) (pos : Pos) :
    ∃ ts pos' ys, Source.Scans pos (Layout.exprs xs ++ close.spelling) Source.Any ts pos'
      ∧ Items close ts ys ∧ Expr.bares ys = Expr.bares xs := by
  have halone : close.isAlone = true := by rcases hclose with rfl | rfl <;> decide
  have hends (rest : Text) : Source.EndsBoth (close.spelling ++ rest) := by
    rcases hclose with rfl | rfl <;>
      exact Source.endsBoth_cons (by decide) _
  induction xs generalizing pos with
  | nil => exact ⟨_, _, [], .bracket pos halone, .close rfl, rfl⟩
  | cons x xs ih =>
    obtain ⟨hx, hxs⟩ := List.forall_mem_cons.1 h
    obtain ⟨ts, pos₁, hscan₁, -, y, hy, -, hbare⟩ := hx.whole pos
    cases xs with
    | nil =>
      refine ⟨_, _, [y], hscan₁.append (.bracket pos₁ halone) fun rest _ => hends rest,
        .last hy rfl, ?_⟩
      rw [Expr.bares, hbare]
      rfl
    | cons x' xs =>
      have hcomma := Source.Scans.mark pos₁ .comma
      obtain ⟨us, pos₂, ys, hscan₂, hys, hbares⟩ := ih hxs _
      have hscan := (hscan₁.append hcomma fun rest _ =>
        Source.endsBoth_cons (by decide) _).andThen hscan₂
      rw [← List.append_assoc, List.append_assoc ts] at hscan
      refine ⟨_, pos₂, y :: ys, hscan, .more hy rfl hys, ?_⟩
      rw [Expr.bares, hbare, hbares]
      rfl

theorem indexed?_cases
    (h : Layout.indexed? f args = some name) :
    ∃ t u i, f = .ident t Expr.indexName ∧ args = [.ident u name, i] := by
  unfold Layout.indexed? at h
  split at h
  · next t f u name' i =>
    split at h
    · next hf =>
      cases h
      subst hf
      exact ⟨t, u, i, rfl, rfl⟩
    · cases h
  · cases h

section
variable {f i : Expr} {args : List Expr}

theorem index (hname : IsName name) (hi : Reprinted i) (tok t u : Token) :
    Reprinted (.call tok (.ident t Expr.indexName) [.ident u name, i]) := by
  have hindexed : Layout.indexed? (.ident t Expr.indexName) [.ident u name, i] = some name := by
    rw [Layout.indexed?, if_pos rfl]
  have htext : Layout.expr (.call tok (.ident t Expr.indexName) [.ident u name, i])
      = name ++ (Symbol.lbrack.spelling ++ Layout.expr i ++ Symbol.rbrack.spelling) := by
    rw [Layout.expr, hindexed]
    simp only [List.append_assoc]
    rfl
  refine of_tight rfl (fun pos => ?_) ?_
  · have hl := Source.Scans.bracket (pos.after name) (s := .lbrack) (by decide)
    obtain ⟨ts, pos₁, hscan₁, -, y, hy, -, hbare⟩ :=
      hi.whole ((pos.after name).after Symbol.lbrack.spelling)
    have hr := Source.Scans.bracket pos₁ (s := .rbrack) (by decide)
    have hbrackets := (hl.andThen hscan₁).append hr fun rest _ =>
      Source.endsBoth_cons (by decide) _
    have hscan := (hname.scans pos).append hbrackets fun rest _ => by
      rw [List.append_assoc, List.append_assoc]
      exact Source.endsWord_symbol (s := .lbrack) (by decide) _
    rw [htext, Layout.leading, hindexed]
    refine ⟨_, _, hscan.mono fun _ _ => trivial, ⟨_, _, rfl, rfl, rfl⟩, _,
      .index (by decide) (.ident rfl) rfl hy rfl, ?_⟩
    simp only [Expr.bare, Expr.bares, hbare]
    rfl
  · rw [htext]
    intro rest
    rw [List.append_assoc]
    exact hname.endsSymbol _

theorem call (hf : Reprinted f) (hargs : ∀ x ∈ args, Reprinted x)
    (hindexed : Layout.indexed? f args = none) (tok : Token) : Reprinted (.call tok f args) := by
  have htext : Layout.expr (.call tok f args) = Layout.parens f (Layout.expr f)
      ++ (Symbol.lparen.spelling ++ (Layout.exprs args ++ Symbol.rparen.spelling)) := by
    rw [Layout.expr, hindexed]
    simp only [List.append_assoc]
    rfl
  refine of_tight rfl (fun pos => ?_) ?_
  · obtain ⟨ts, pos₁, hscan₁, hstart, y, hy, hbare⟩ := hf.operand pos
    have hl := Source.Scans.bracket pos₁ (s := .lparen) (by decide)
    obtain ⟨us, pos₂, ys, hscan₂, hys, hbares⟩ :=
      scans_items (.inl rfl) hargs (pos₁.after Symbol.lparen.spelling)
    have hscan := hscan₁.append (hl.andThen hscan₂) fun rest _ => by
      rw [List.append_assoc]
      exact Source.endsWord_symbol (s := .lparen) (by decide) _
    rw [htext, Layout.leading, hindexed]
    refine ⟨_, _, hscan.mono fun _ _ => trivial, hstart.append _, _, .call (by decide) hy rfl hys, ?_⟩
    rw [Expr.bare, hbare, hbares, Expr.bare]
  · rw [htext]
    intro rest
    rw [List.append_assoc]
    exact hf.starts _

theorem construct {type : TypeName} (htype : type.Wf) (hargs : ∀ x ∈ args, Reprinted x)
    (tok : Token) : Reprinted (.construct tok type args) := by
  have htext : Layout.expr (.construct tok type args) = Keyword.new_.spelling ++ " " ++ type.layout
      ++ (Symbol.lparen.spelling ++ (Layout.exprs args ++ Symbol.rparen.spelling)) := by
    rw [Layout.expr]
    simp only [List.append_assoc]
    rfl
  refine of_loose rfl fun pos => ?_
  have hnew := Source.Scans.word pos .new_
  obtain ⟨ts, pos₁, hscan₁, -, type', htype', hbare⟩ :=
    htype.reads ((pos.after Keyword.new_.spelling).after " ")
  have hl := Source.Scans.bracket pos₁ (s := .lparen) (by decide)
  obtain ⟨us, pos₂, ys, hscan₂, hys, hbares⟩ :=
    scans_items (.inl rfl) hargs (pos₁.after Symbol.lparen.spelling)
  have hscan := (hnew.andThen hscan₁).append (hl.andThen hscan₂) fun rest _ => by
    rw [List.append_assoc]
    exact Source.endsWord_symbol (s := .lparen) (by decide) _
  rw [htext]
  refine ⟨_, _, hscan.mono fun _ _ => trivial, ⟨_, _, rfl, rfl, rfl⟩, .construct _ type' ys,
    .suffixed (.construct rfl htype' rfl hys), fun _ => .suffixed (.construct rfl htype' rfl hys), ?_⟩
  rw [Expr.bare, hbare, hbares, Expr.bare]

theorem list (hargs : ∀ x ∈ args, Reprinted x) (tok : Token) : Reprinted (.list tok args) := by
  have htext : Layout.expr (.list tok args)
      = Symbol.lbrack.spelling ++ (Layout.exprs args ++ Symbol.rbrack.spelling) := by
    rw [Layout.expr, List.append_assoc]
    rfl
  refine of_tight rfl (fun pos => ?_) ?_
  · have hl := Source.Scans.bracket pos (s := .lbrack) (by decide)
    obtain ⟨us, pos₁, ys, hscan, hys, hbares⟩ :=
      scans_items (.inr rfl) hargs (pos.after Symbol.lbrack.spelling)
    rw [htext]
    refine ⟨_, _, (hl.andThen hscan).mono fun _ _ => trivial, ⟨_, _, rfl, rfl, rfl⟩, _,
      .list rfl hys, ?_⟩
    rw [Expr.bare, hbares, Expr.bare]
  · rw [htext]
    exact fun rest => Source.endsSymbol_cons (by decide) _

end

end Reprinted

mutual

/-- Every well-formed and steady expression is spelled by its text. -/
theorem Expr.reprinted (x : Expr) (hwf : x.Wf) (hsteady : x.isSteady = true) : Reprinted x :=
  match x with
  | .literal _ => .literal hwf.1 hwf.2
  | .ident tok _ => .ident hwf tok
  | .unary tok op x => .unary (x.reprinted hwf hsteady) tok op
  | .step tok op x => .step (x.reprinted hwf hsteady) tok op
  | .binary tok op x y => by
    rw [Expr.isSteady, Bool.and_eq_true] at hsteady
    exact .binary (x.reprinted hwf.1 hsteady.1) (y.reprinted hwf.2 hsteady.2) tok op
  | .assign tok op x y => by
    rw [Expr.isSteady, Bool.and_eq_true, Bool.and_eq_true, Bool.not_eq_true'] at hsteady
    exact .assign (x.reprinted hwf.1 hsteady.1.2) (y.reprinted hwf.2 hsteady.2) hsteady.1.1 tok op
  | .property tok x _ => .property (x.reprinted hwf.1 hsteady) hwf.2 tok
  | .call tok f args => by
    rw [Expr.isSteady, Bool.and_eq_true] at hsteady
    have hargs := Expr.allReprinted args hwf.2 hsteady.2
    cases hindexed : Layout.indexed? f args with
    | none => exact .call (f.reprinted hwf.1 hsteady.1) hargs hindexed tok
    | some name =>
      obtain ⟨t, u, i, rfl, rfl⟩ := Reprinted.indexed?_cases hindexed
      exact .index hwf.2.1 (hargs i (.tail _ (.head _))) tok t u
  | .construct tok _ args => .construct hwf.1 (Expr.allReprinted args hwf.2 hsteady) tok
  | .list tok args => .list (Expr.allReprinted args hwf hsteady) tok

theorem Expr.allReprinted (xs : List Expr) (hwf : Expr.AreWf xs) (hsteady : Expr.areSteady xs = true) :
    ∀ x ∈ xs, Reprinted x :=
  match xs with
  | [] => List.forall_mem_nil _
  | x :: xs => by
    rw [Expr.areSteady, Bool.and_eq_true] at hsteady
    exact List.forall_mem_cons.2
      ⟨x.reprinted hwf.1 hsteady.1, Expr.allReprinted xs hwf.2 hsteady.2⟩

end

/-! ### Reading back -/

/-- The text of an expression that was read at some place of a source is read as the same expression,
up to places, and to its end. -/
theorem Expr.layout_read_back {src : Text} {before ts rest : List Token} {x : Expr}
    {hrest : rest <:+ ts ∧ rest.length < ts.length} (hsrc : Source.tokens src = .ok (before ++ ts))
    (hx : Parser.expr 0 ts = .ok (x, ⟨rest, hrest⟩)) (hsteady : x.isSteady = true) :
    ∃ us eof y h, Source.tokens (Layout.expr x) = .ok (us ++ [eof]) ∧ eof.kind = .eof
      ∧ Parser.expr 0 (us ++ [eof]) = .ok (y, ⟨[eof], h⟩) ∧ y.bare = x.bare := by
  have hleft := Parser.left_of_tokens (P := fun _ _ => True) hsrc fun _ _ => trivial
  have hread := Parser.reads_expr 0 (hleft.suffix (List.ne_nil_of_length_pos (Nat.zero_lt_of_lt hrest.2)))
  rw [hx] at hread
  have hwf := hread.1.2 trivial
  obtain ⟨us, pos, hscan, -, y, hspells, -, hbare⟩ := (x.reprinted hwf hsteady).whole .start
  have hends {level : Nat} : Ends level [pos.token .eof []] := ends_of_kind rfl rfl
  obtain ⟨h, hy⟩ := eq_ok_of_plain (plain_expr_of_spells hspells ⟨hends, fun _ => hends⟩)
  exact ⟨us, _, y, h, hscan.tokens ⟨⟨nofun, nofun, rfl⟩, nofun⟩, rfl, hy, hbare⟩

/-- A statement whose value has operators of most levels, signs next to each other, an index access
and a range of decimals. -/
def Source.sampleSigns : Text := "v = x = - -a[1] ** +at(b, i++)..(1.5 - (2 .. !(new P(1, \"s\").c)))"

/-- The value of that statement is read from its third token on. -/
theorem Expr.layout_read_back_sampleSigns : ∃ before ts rest x hrest,
    Source.tokens Source.sampleSigns = .ok (before ++ ts) ∧ before.length = 2
    ∧ Parser.expr 0 ts = .ok (x, ⟨rest, hrest⟩) ∧ x.isSteady = true
    ∧ ∃ us eof y h, Source.tokens (Layout.expr x) = .ok (us ++ [eof]) ∧ eof.kind = .eof
      ∧ Parser.expr 0 (us ++ [eof]) = .ok (y, ⟨[eof], h⟩) ∧ y.bare = x.bare := by
  have hsample : (Source.tokens Source.sampleSigns).toOption.any (fun ts =>
      (plain (Parser.expr 0 (ts.drop 2))).toOption.any (fun r => r.1.isSteady)
        && decide ((ts.take 2).length = 2)) = true := by decide +kernel
  cases hsrc : Source.tokens Source.sampleSigns with
  | error e =>
    rw [hsrc] at hsample
    cases hsample
  | ok ts =>
    rw [hsrc] at hsample
    obtain ⟨hparse, hlength⟩ := (Bool.and_eq_true _ _).mp hsample
    cases hx : Parser.expr 0 (ts.drop 2) with
    | error e =>
      rw [hx] at hparse
      cases hparse
    | ok r =>
      obtain ⟨x, rest, hrest⟩ := r
      rw [hx] at hparse
      have hsrc' : Source.tokens Source.sampleSigns = .ok (ts.take 2 ++ ts.drop 2) := by
        rw [List.take_append_drop, hsrc]
      exact ⟨ts.take 2, ts.drop 2, rest, x, hrest, hsrc.symm.trans hsrc', of_decide_eq_true hlength, hx,
        hparse, Expr.layout_read_back hsrc' hx hparse⟩

end Classwright
