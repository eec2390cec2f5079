import Classwright.Syntax.Parser

/-!
The grammar of expressions, level by level. `Grammar.Spells level ts x` says that the tokens `ts`
spell `x` by operators that bind tighter than `level`, where assignment has level one, the binary
operators of `leftAssociative` have the levels from two to seven, power has level eight, prefix
operators nine, `++`, `--` and index access ten, calls and properties eleven.

`Grammar.Holds x ts` says which tokens a tree holds, in the order of the source.
-/

namespace Classwright.Grammar

/-! ### Type names -/

/-- The parts of a dotted name after the first, and their text. -/
inductive Parts : List Token → Text → Prop where
  | nil : Parts [] []
  | cons {dot part : Token} {ts : List Token} {text : Text} (hdot : dot.kind = .symbol .dot)
    (hpart : part.kind = .ident) (h : Parts ts text) :
    Parts (dot :: part :: ts) ("." ++ part.text ++ text)

/-- The brackets after the name of a list type. -/
inductive Brackets : List Token → Bool → Prop where
  | none : Brackets [] false
  | pair {l r : Token} (hl : l.kind = .symbol .lbrack) (hr : r.kind = .symbol .rbrack) :
    Brackets [l, r] true

/-- The question mark after the name of a nullable type. -/
inductive Question : List Token → Bool → Prop where
  | none : Question [] false
  | mark {t : Token} (h : t.kind = .symbol .question) : Question [t] true

inductive Named : List Token → TypeName → Prop where
  | mk {tok : Token} {ts us vs : List Token} {text : Text} {list nullable : Bool}
    (htok : tok.kind = .ident) (hparts : Parts ts text) (hlist : Brackets us list)
    (hnullable : Question vs nullable) :
    Named (tok :: (ts ++ us ++ vs)) ⟨tok, tok.text ++ text, list, nullable⟩

/-! ### Expressions -/

/-- The binary operators that associate to the left, the loosest first. -/
def leftAssociative : List (List BinaryOp) := [
  [.or], [.and], [.xor], [.range, .eq, .ne, .lt, .gt, .le, .ge], [.add, .sub, .mod], [.mul, .div]]

mutual

/-- Tokens spell an expression by operators that bind tighter than a level. -/
inductive Spells : Nat → List Token → Expr → Prop where
  | assign {ts us : List Token} {t : Token} {op : AssignOp} {x y : Expr}
    (ht : t.kind = .symbol op.symbol) (hx : Spells 1 ts x) (hy : Spells 0 us y) :
    Spells 0 (ts ++ t :: us) (.assign t op x y)
  | left {level i : Nat} {ops : List BinaryOp} {ts us : List Token} {t : Token} {op : BinaryOp}
    {x y : Expr} (hops : leftAssociative[i]? = some ops) (hop : op ∈ ops) (hlevel : level < i + 2)
    (ht : t.kind = .symbol op.symbol) (hx : Spells (i + 1) ts x) (hy : Spells (i + 2) us y) :
    Spells level (ts ++ t :: us) (.binary t op x y)
  | power {level : Nat} {ts us : List Token} {t : Token} {x y : Expr} (hlevel : level < 8)
    (ht : t.kind = .symbol .pow) (hx : Spells 8 ts x) (hy : Spells 7 us y) :
    Spells level (ts ++ t :: us) (.binary t .pow x y)
  | unary {level : Nat} {ts : List Token} {t : Token} {op : UnaryOp} {x : Expr}
    (ht : t.kind = .symbol op.symbol) (hx : Spells 9 ts x) :
    Spells level (t :: ts) (.unary t op x)
  | suffixed {level : Nat} {ts : List Token} {x : Expr} (h : Suffixed level ts x) :
    Spells level ts x

/-- Tokens spell an operand with the suffixes after it that bind tighter than a level. -/
inductive Suffixed : Nat → List Token → Expr → Prop where
  | literal {level : Nat} {t : Token} (ht : Parser.isLiteral t.kind = true) :
    Suffixed level [t] (.literal t)
  | ident {level : Nat} {t : Token} (ht : t.kind = .ident) : Suffixed level [t] (.ident t t.text)
  | group {level : Nat} {ts : List Token} {l r : Token} {x : Expr} (hl : l.kind = .symbol .lparen)
    (hx : Spells 0 ts x) (hr : r.kind = .symbol .rparen) : Suffixed level (l :: (ts ++ [r])) x
  | list {level : Nat} {ts : List Token} {l : Token} {xs : List Expr}
    (hl : l.kind = .symbol .lbrack) (hxs : Items .rbrack ts xs) :
    Suffixed level (l :: ts) (.list l xs)
  | construct {level : Nat} {ts us : List Token} {t l : Token} {type : TypeName} {xs : List Expr}
    (ht : t.kind = .keyword .new_) (htype : Named ts type) (hl : l.kind = .symbol .lparen)
    (hxs : Items .rparen us xs) : Suffixed level (t :: (ts ++ l :: us)) (.construct t type xs)
  | step {level : Nat} {ts : List Token} {t : Token} {op : StepOp} {x : Expr} (hlevel : level < 10)
    (hx : Suffixed level ts x) (ht : t.kind = .symbol op.symbol) :
    Suffixed level (ts ++ [t]) (.step t op x)
  | index {level : Nat} {ts us : List Token} {tok l r : Token} {name : Text} {i : Expr}
    (hlevel : level < 10) (hx : Suffixed level ts (.ident tok name)) (hl : l.kind = .symbol .lbrack)
    (hi : Spells 0 us i) (hr : r.kind = .symbol .rbrack) :
    Suffixed level (ts ++ l :: (us ++ [r]))
      (.call tok (Parser.indexCallee l) [.ident tok name, i])
  | call {level : Nat} {ts us : List Token} {l : Token} {x : Expr} {xs : List Expr}
    (hlevel : level < 11) (hx : Suffixed level ts x) (hl : l.kind = .symbol .lparen)
    (hxs : Items .rparen us xs) : Suffixed level (ts ++ l :: us) (.call x.tok x xs)
  | property {level : Nat} {ts : List Token} {dot name : Token} {x : Expr} (hlevel : level < 11)
    (hx : Suffixed level ts x) (hdot : dot.kind = .symbol .dot) (hname : name.kind = .ident) :
    Suffixed level (ts ++ [dot, name]) (.property name x name.text)

/-- Tokens spell expressions between commas, with a closing symbol at the end. -/
inductive Items : Symbol → List Token → List Expr → Prop where
  | close {close : Symbol} {t : Token} (ht : t.kind = .symbol close) : Items close [t] []
  | last {close : Symbol} {ts : List Token} {t : Token} {x : Expr} (hx : Spells 0 ts x)
    (ht : t.kind = .symbol close) : Items close (ts ++ [t]) [x]
  | more {close : Symbol} {ts us : List Token} {t : Token} {x : Expr} {xs : List Expr}
    (hx : Spells 0 ts x) (ht : t.kind = .symbol .comma) (hxs : Items close us xs) :
    Items close (ts ++ t :: us) (x :: xs)

end

/-! ### Starts of expressions -/

/-- Whether an expression may start with a token of a kind. -/
def starts (k : Kind) : Bool :=
  Parser.isLiteral k || k = .ident || k = .symbol .lparen || k = .symbol .lbrack
    || k = .keyword .new_ || (Parser.unaryOp? k).isSome

/-- Whether tokens start with a prefix operator. -/
def startsPrefix : List Token → Bool
  | [] => false
  | t :: _ => (Parser.unaryOp? t.kind).isSome

theorem unaryOp?_symbol (op : UnaryOp) : Parser.unaryOp? (.symbol op.symbol) = some op := by
  cases op <;> rfl

theorem starts_of_append {us : List Token} (h : ∃ t ts', ts = t :: ts' ∧ starts t.kind = true) :
    ∃ t ts', ts ++ us = t :: ts' ∧ starts t.kind = true := by
  obtain ⟨t, ts', rfl, ht⟩ := h
  exact ⟨t, ts' ++ us, rfl, ht⟩

mutual

theorem Spells.starts :
    Spells level ts x → ∃ t ts', ts = t :: ts' ∧ Grammar.starts t.kind = true
  | .assign _ hx _ | .left _ _ _ _ hx _ | .power _ _ hx _ => starts_of_append hx.starts
  | .unary ht _ => ⟨_, _, rfl, by rw [Grammar.starts, ht, unaryOp?_symbol]; simp⟩
  | .suffixed h => h.starts

theorem Suffixed.starts :
    Suffixed level ts x → ∃ t ts', ts = t :: ts' ∧ Grammar.starts t.kind = true
  | .literal ht => ⟨_, _, rfl, by rw [Grammar.starts, ht]; rfl⟩
  | .ident ht => ⟨_, _, rfl, by rw [ht]; rfl⟩
  | .group hl _ _ => ⟨_, _, rfl, by rw [hl]; rfl⟩
  | .list hl _ => ⟨_, _, rfl, by rw [hl]; rfl⟩
  | .construct ht _ _ _ => ⟨_, _, rfl, by rw [ht]; rfl⟩
  | .step _ hx _ | .index _ hx _ _ _ | .call _ hx _ _ | .property _ hx _ _ =>
    starts_of_append hx.starts

end

/-! ### Tokens of a tree -/

/-- Whether a symbol only delimits parts of an expression. -/
def isDelimiter : Kind → Bool
  | .symbol .lparen | .symbol .rparen | .symbol .lbrack | .symbol .rbrack => true
  | .symbol .comma | .symbol .dot => true
  | _ => false

/-- The tokens that are not delimiters. -/
def words (ts : List Token) : List Token := ts.filter fun t => !isDelimiter t.kind

/-- The text of the parts of a dotted name after the first. -/
def dotted (parts : List Token) : Text := parts.flatMap fun part => ("." : Text) ++ part.text

/-- A type name holds its first token, the text of the parts after it, and a question mark. -/
inductive HoldsType : TypeName → List Token → Prop where
  | mk {tok : Token} {parts marks : List Token} {list nullable : Bool}
    (hmarks : Question marks nullable) :
    HoldsType ⟨tok, tok.text ++ dotted parts, list, nullable⟩ (tok :: (parts ++ marks))

mutual

/-- A tree holds tokens in the order of the source. A call takes its own token from what is called;
that of an index access comes from the name, and what it calls from the bracket. -/
inductive Holds : Expr → List Token → Prop where
  | literal {t : Token} : Holds (.literal t) [t]
  | ident {t : Token} {name : Text} : Holds (.ident t name) [t]
  | unary {ts : List Token} {t : Token} {op : UnaryOp} {x : Expr} (hx : Holds x ts) :
    Holds (.unary t op x) (t :: ts)
  | step {ts : List Token} {t : Token} {op : StepOp} {x : Expr} (hx : Holds x ts) :
    Holds (.step t op x) (ts ++ [t])
  | binary {ts us : List Token} {t : Token} {op : BinaryOp} {x y : Expr} (hx : Holds x ts)
    (hy : Holds y us) : Holds (.binary t op x y) (ts ++ t :: us)
  | assign {ts us : List Token} {t : Token} {op : AssignOp} {x y : Expr} (hx : Holds x ts)
    (hy : Holds y us) : Holds (.assign t op x y) (ts ++ t :: us)
  | call {ts us : List Token} {x : Expr} {xs : List Expr} (hx : Holds x ts)
    (hxs : HoldsAll xs us) : Holds (.call x.tok x xs) (ts ++ us)
  | index {ts : List Token} {t l : Token} {name : Text} {i : Expr} (hi : Holds i ts) :
    Holds (.call t (Parser.indexCallee l) [.ident t name, i]) (t :: ts)
  | property {ts : List Token} {t : Token} {x : Expr} {name : Text} (hx : Holds x ts) :
    Holds (.property t x name) (ts ++ [t])
  | construct {ts us : List Token} {t : Token} {type : TypeName} {xs : List Expr}
    (htype : HoldsType type ts) (hxs : HoldsAll xs us) :
    Holds (.construct t type xs) (t :: (ts ++ us))
  | list {ts : List Token} {t : Token} {xs : List Expr} (hxs : HoldsAll xs ts) :
    Holds (.list t xs) ts

inductive HoldsAll : List Expr → List Token → Prop where
  | nil : HoldsAll [] []
  | cons {ts us : List Token} {x : Expr} {xs : List Expr} (hx : Holds x ts)
    (hxs : HoldsAll xs us) : HoldsAll (x :: xs) (ts ++ us)

end

theorem words_append (ts us : List Token) : words (ts ++ us) = words ts ++ words us :=
  List.filter_append ..

theorem words_cons_of_delimiter (ts : List Token) (h : isDelimiter t.kind = true) :
    words (t :: ts) = words ts :=
  List.filter_cons_of_neg (by rw [h]; decide)

theorem words_cons (ts : List Token) (h : isDelimiter t.kind = false) :
    words (t :: ts) = t :: words ts :=
  List.filter_cons_of_pos (by rw [h]; rfl)

theorem words_nil : words [] = [] := rfl

theorem Parts.words (h : Parts ts text) :
    text = dotted (Grammar.words ts) := by
  induction h with
  | nil => rfl
  | cons hdot hpart _ ih =>
    rw [words_cons_of_delimiter _ (by rw [hdot]; rfl), words_cons _ (by rw [hpart]; rfl), dotted,
      List.flatMap_cons, ← dotted, ← ih]

theorem Brackets.words (h : Brackets ts list) :
    Grammar.words ts = [] := by
  cases h with
  | none => rfl
  | pair hl hr =>
    rw [words_cons_of_delimiter _ (by rw [hl]; rfl), words_cons_of_delimiter _ (by rw [hr]; rfl),
      words_nil]

theorem Question.words (h : Question ts nullable) :
    Grammar.words ts = ts := by
  cases h with
  | none => rfl
  | mark h => rw [words_cons _ (by rw [h]; rfl), words_nil]

theorem Named.holds (h : Named ts type) :
    HoldsType type (words ts) := by
  cases h with
  | mk htok hparts hlist hnullable =>
    rw [words_cons _ (by rw [htok]; rfl), words_append, words_append, hlist.words, hnullable.words,
      hparts.words, List.append_nil]
    exact .mk hnullable

theorem isDelimiter_of_literal (h : Parser.isLiteral k = true) : isDelimiter k = false := by
  unfold isDelimiter
  split <;> first | rfl | cases h

section
variable {t : Token}

theorem isDelimiter_binary {op : BinaryOp} (ht : t.kind = .symbol op.symbol) :
    isDelimiter t.kind = false := by
  rw [ht]
  cases op <;> rfl

theorem isDelimiter_assign {op : AssignOp} (ht : t.kind = .symbol op.symbol) :
    isDelimiter t.kind = false := by
  rw [ht]
  cases op <;> rfl

theorem isDelimiter_unary {op : UnaryOp} (ht : t.kind = .symbol op.symbol) :
    isDelimiter t.kind = false := by
  rw [ht]
  cases op <;> rfl

theorem isDelimiter_step {op : StepOp} (ht : t.kind = .symbol op.symbol) :
    isDelimiter t.kind = false := by
  rw [ht]
  cases op <;> rfl

end

mutual

/-- No token but delimiters is missing from the tree. -/
theorem Spells.holds :
    Spells level ts x → Holds x (words ts)
  | .assign ht hx hy => by
    rw [words_append, words_cons _ (isDelimiter_assign ht)]
    exact .assign hx.holds hy.holds
  | .left _ _ _ ht hx hy => by
    rw [words_append, words_cons _ (isDelimiter_binary ht)]
    exact .binary hx.holds hy.holds
  | .power _ ht hx hy => by
    rw [words_append, words_cons _ (by rw [ht]; rfl)]
    exact .binary hx.holds hy.holds
  | .unary ht hx => by
    rw [words_cons _ (isDelimiter_unary ht)]
    exact .unary hx.holds
  | .suffixed h => h.holds

theorem Suffixed.holds :
    Suffixed level ts x → Holds x (words ts)
  | .literal ht => by
    rw [words_cons _ (isDelimiter_of_literal ht)]
    exact .literal
  | .ident ht => by
    rw [words_cons _ (by rw [ht]; rfl)]
    exact .ident
  | .group hl hx hr => by
    rw [words_cons_of_delimiter _ (by rw [hl]; rfl), words_append,
      words_cons_of_delimiter _ (by rw [hr]; rfl), words_nil, List.append_nil]
    exact hx.holds
  | .list hl hxs => by
    rw [words_cons_of_delimiter _ (by rw [hl]; rfl)]
    exact .list (hxs.holds rfl)
  | .construct ht htype hl hxs => by
    rw [words_cons _ (by rw [ht]; rfl), words_append, words_cons_of_delimiter _ (by rw [hl]; rfl)]
    exact .construct htype.holds (hxs.holds rfl)
  | .step _ hx ht => by
    rw [words_append, words_cons _ (isDelimiter_step ht)]
    exact .step hx.holds
  | .index _ hx hl hi hr => by
    -- the name is all that its tokens hold
    rw [words_append, words_cons_of_delimiter _ (by rw [hl]; rfl), words_append,
      words_cons_of_delimiter _ (by rw [hr]; rfl), words_nil, List.append_nil]
    have hname := hx.holds
    generalize words _ = us at hname
    cases hname
    exact .index hi.holds
  | .call _ hx hl hxs => by
    rw [words_append, words_cons_of_delimiter _ (by rw [hl]; rfl)]
    exact .call hx.holds (hxs.holds rfl)
  | .property _ hx hdot hname => by
    rw [words_append, words_cons_of_delimiter _ (by rw [hdot]; rfl),
      words_cons _ (by rw [hname]; rfl)]
    exact .property hx.holds

theorem Items.holds
    (h : Items close ts xs) (hclose : isDelimiter (.symbol close) = true) :
    HoldsAll xs (words ts) :=
  match h with
  | .close ht => by
    rw [words_cons_of_delimiter _ (by rw [ht]; exact hclose)]
    exact .nil
  | .last hx ht => by
    rw [words_append, words_cons_of_delimiter _ (by rw [ht]; exact hclose)]
    exact .cons hx.holds .nil
  | .more hx ht hxs => by
    rw [words_append, words_cons_of_delimiter _ (by rw [ht]; rfl)]
    exact .cons hx.holds (hxs.holds hclose)

end

end Classwright.Grammar
