import Classwright.Proofs.Outcome
import Classwright.Proofs.Syntax.Grammar
import Classwright.Proofs.Syntax.Reading

/-!
The parser reads expressions by the grammar. What the grammar gives to an expression is read as a
whole, whatever it is followed by that its last operator leaves alone (`Spells.read`), and what is
read is in the grammar (`exprSound`).
-/

open Classwright.Parser

namespace Classwright

namespace Parser

/-! ### Levels -/

namespace Continuation

/-- The symbol that a continuation starts with. -/
def symbol : Continuation → Symbol
  | binary op => op.symbol
  | assign op => op.symbol
  | step op => op.symbol
  | index => .lbrack
  | call => .lparen
  | property => .dot

theorem ofKind?_eq_some_iff {k : Kind} {c : Continuation} :
    ofKind? k = some c ↔ k = .symbol c.symbol := by
  constructor
  · intro h
    unfold ofKind? at h
    split at h <;> cases h <;> rfl
  · rintro rfl
    rcases c with op | op | op | _ | _ | _
    · cases op <;> rfl
    · cases op <;> rfl
    · cases op <;> rfl
    · rfl
    · rfl
    · rfl

end Continuation

/-- The level of the left operand of a binary operator. -/
def leftLevel : BinaryOp → Nat
  | .pow => 8
  | op => binaryLevel op - 1

namespace Continuation

/-- What is continued binds tighter than this level. -/
def leftLevel : Continuation → Nat
  | binary op => Parser.leftLevel op
  | assign _ => 1
  | step _ | index => 10
  | call | property => 11

/-- A continuation has a level of at most one more than what it continues; one that continues no more
than operands of prefix operators or of powers binds no tighter than those. -/
theorem level_bounds (c : Continuation) :
    0 < c.leftLevel ∧ c.leftLevel ≤ c.level ∧ c.level ≤ c.leftLevel + 1
      ∧ (c.leftLevel ≤ 9 → c.level ≤ 9) ∧ (c.leftLevel ≤ 7 → c.level ≤ 7) := by
  cases c with
  | binary op | assign op | step op => cases op <;> decide
  | index => decide
  | call => decide
  | property => decide

end Continuation

/-- The right operand of an operator to the left binds tighter than the operator; that of a power
may be a power. -/
theorem rightLevel_cases (op : BinaryOp) :
    1 < binaryLevel op ∧ (rightLevel op = binaryLevel op ∧ leftLevel op + 1 = binaryLevel op
      ∧ binaryLevel op ≤ 7 ∨ binaryLevel op = 8 ∧ leftLevel op = 8 ∧ rightLevel op = 7) := by
  cases op <;> decide

/-- The continuation that comes next. -/
def next? : List Token → Option Continuation
  | [] => none
  | t :: _ => Continuation.ofKind? t.kind

/-- What comes next, if it continues an expression, may have one of a level on its left. -/
def Follows (level : Nat) (rest : List Token) : Prop := ∀ c, next? rest = some c → c.leftLevel ≤ level

/-- What comes next does not continue an expression of a level. -/
def Ends (level : Nat) (rest : List Token) : Prop := ∀ c, next? rest = some c → c.level ≤ level

theorem Follows.mono (h : Follows p rest) (hpq : p ≤ q) :
    Follows q rest := fun c hc => Nat.le_trans (h c hc) hpq

theorem Ends.follows (h : Ends level rest) : Follows level rest :=
  fun c hc => Nat.le_trans c.level_bounds.2.1 (h c hc)

section
variable {level : Nat} {rest : List Token} {op : BinaryOp}

/-- What follows a binary operator's right operand does not belong to it. -/
theorem Follows.ends_right (h : Follows level rest) (hlevel : level < binaryLevel op) :
    Ends (rightLevel op) rest := by
  intro c hc
  have hleft := h c hc
  have hc := c.level_bounds
  have hop := rightLevel_cases op
  omega

theorem Follows.ends_unary (h : Follows unaryLevel rest) : Ends unaryLevel rest := by
  intro c hc
  exact c.level_bounds.2.2.2.1 (h c hc)

theorem Follows.ends_zero (h : Follows 0 rest) : Ends 0 rest := by
  intro c hc
  have := h c hc
  have := c.level_bounds
  omega

theorem ends_of_kind (ht : t.kind = k)
    (hk : Continuation.ofKind? k = none) : Ends level (t :: rest) := by
  intro c hc
  cases (ht ▸ hc : Continuation.ofKind? k = some c).symm.trans hk

end

theorem follows_cons {level : Nat} {c : Continuation}
    (ht : t.kind = .symbol c.symbol) (hc : c.leftLevel ≤ level) : Follows level (t :: rest) := by
  intro c' hc'
  cases (Continuation.ofKind?_eq_some_iff.2 ht).symm.trans hc'
  exact hc

theorem plain_extend_of_ends (x : Expr) (h : Ends level rest) :
    plain (extend level x rest) = .ok (x, rest) := by
  cases rest with
  | nil =>
    rw [extend]
    rfl
  | cons t rest =>
    rw [extend]
    cases hc : Continuation.ofKind? t.kind with
    | none => rfl
    | some c => exact congrArg plain (if_neg (Nat.not_lt.2 (h c hc)))

theorem plain_extend_of_lt
    (ht : t.kind = .symbol c.symbol) (hlevel : level < c.level)
    (h : plain (resume c x t ts) = .ok (y, rest)) :
    plain (extend level x (t :: ts)) = plain (extend level y rest) := by
  rw [extend, Continuation.ofKind?_eq_some_iff.2 ht]
  dsimp only
  rw [if_pos hlevel]
  exact plain_bind_of_ok h fun _ => plain_bind_pure fun _ _ => rfl

/-! ### Type names -/

/-- What follows a type name does not belong to it. -/
def EndsType (type : TypeName) (rest : List Token) : Prop :=
  ∀ t ts, rest = t :: ts → type.nullable = false → t.kind ≠ .symbol .question
    ∧ (type.list = false → t.kind ≠ .symbol .lbrack ∧ t.kind ≠ .symbol .dot)

theorem plain_dottedTail_of_parts (h : Grammar.Parts ts text)
    (name : Text) (hrest : ∀ t ts, rest = t :: ts → t.kind ≠ .symbol .dot) :
    plain (dottedTail name (ts ++ rest)) = .ok (name ++ text, rest) := by
  induction h generalizing name with
  | nil =>
    rw [List.append_nil, List.nil_append]
    cases rest with
    | nil =>
      rw [dottedTail]
      rfl
    | cons t ts =>
      rw [dottedTail, if_neg (hrest t ts rfl)]
      rfl
  | cons hdot hpart _ ih =>
    rw [List.cons_append, List.cons_append, dottedTail, if_pos hdot, ← List.append_assoc, ← List.append_assoc]
    exact plain_expect_bind hpart fun _ => plain_bind_of_ok (ih _) fun _ => rfl

theorem plain_listMark_of_brackets (h : Grammar.Brackets ts list)
    (hrest : list = false → ∀ t ts, rest = t :: ts → t.kind ≠ .symbol .lbrack) :
    plain (listMark (ts ++ rest)) = .ok (list, rest) := by
  rw [listMark]
  cases h with
  | none =>
    rw [List.nil_append, pass_of_ne (hrest rfl)]
    rfl
  | pair hl hr =>
    rw [List.cons_append, List.cons_append, pass_of_kind hl]
    exact plain_expect_bind hr fun _ => rfl

theorem pass_of_question (h : Grammar.Question ts nullable)
    (hrest : nullable = false → ∀ t ts, rest = t :: ts → t.kind ≠ .symbol .question) :
    ∃ h, pass (.symbol .question) (ts ++ rest) = (nullable, ⟨rest, h⟩) := by
  cases h with
  | none => exact ⟨_, pass_of_ne (hrest rfl)⟩
  | mark h => exact ⟨_, pass_of_kind h⟩

/-- A type name is read to its end. -/
theorem plain_typeName_of_named (h : Grammar.Named ts type)
    (hrest : EndsType type rest) :
    plain (typeName (ts ++ rest)) = .ok (type, rest) := by
  cases h with
  | @mk tok ts us vs text list nullable htok hparts hlist hnullable =>
    have hmark : nullable = false → ∀ t ts, rest = t :: ts → t.kind ≠ .symbol .question :=
      fun h t ts heq => (hrest t ts heq h).1
    have hbrack : list = false → ∀ t ts, vs ++ rest = t :: ts → t.kind ≠ .symbol .lbrack := by
      rintro rfl t ts heq
      cases hnullable with
      | none => exact ((hrest t ts heq rfl).2 rfl).1
      | mark hq =>
        cases heq
        rw [hq]
        nofun
    have hdot : ∀ t ts, us ++ (vs ++ rest) = t :: ts → t.kind ≠ .symbol .dot := by
      intro t ts heq
      cases hlist with
      | pair hl _ =>
        cases heq
        rw [hl]
        nofun
      | none =>
        cases hnullable with
        | none => exact ((hrest t ts heq rfl).2 rfl).2
        | mark hq =>
          cases heq
          rw [hq]
          nofun
    obtain ⟨hpassed, hpass⟩ := pass_of_question hnullable hmark
    rw [List.cons_append, List.append_assoc, List.append_assoc, typeName]
    refine plain_expect_bind htok fun _ =>
      plain_bind_of_ok (plain_dottedTail_of_parts hparts _ hdot) fun _ =>
        plain_bind_of_ok (plain_listMark_of_brackets hlist hbrack) fun _ => ?_
    dsimp only
    rw [hpass]
    rfl

/-! ### What is spelled is read -/

theorem plain_operand_unary
    (ht : t.kind = .symbol op.symbol) (hx : plain (expr unaryLevel ts) = .ok (x, rest)) :
    plain (operand t ts) = .ok (.unary t op x, rest) := by
  rw [operand, ht, Grammar.unaryOp?_symbol]
  cases op <;> exact plain_bind_of_ok hx fun _ => rfl

theorem plain_expr_of_operand
    (h : plain (operand t ts) = .ok (x, rest)) :
    plain (expr level (t :: ts)) = plain (extend level x rest) := by
  rw [expr]
  exact plain_bind_of_ok h fun _ => plain_bind_pure fun _ _ => rfl

theorem plain_exprs_close (ht : t.kind = .symbol close)
    (fault : ParseFault) (ts : List Token) : plain (exprs close fault (t :: ts)) = .ok ([], ts) := by
  rw [exprs, if_pos (.inl ht)]
  exact plain_expect_bind ht fun _ => rfl

/-- A list that starts with an expression does not end there. -/
theorem not_close_of_starts (hclose : close = .rparen ∨ close = .rbrack)
    (hts : ∃ t ts', ts = t :: ts' ∧ Grammar.starts t.kind = true) :
    ¬ ((peek ts).kind = .symbol close ∨ (peek ts).kind = .eof) := by
  obtain ⟨t, ts', rfl, ht⟩ := hts
  rintro (heq | heq)
  · rw [show t.kind = .symbol close from heq] at ht
    rcases hclose with rfl | rfl <;> cases ht
  · rw [show t.kind = .eof from heq] at ht
    cases ht

end Parser

namespace Grammar

section
variable {level : Nat} {ts us rest : List Token} {t : Token} {x y : Expr}

theorem level_of_leftAssociative
    (hops : leftAssociative[i]? = some ops) (hop : op ∈ ops) :
    leftLevel op = i + 1 ∧ rightLevel op = i + 2 ∧ binaryLevel op = i + 2 := by
  have htable : ∀ j : Fin 6, ∀ op ∈ leftAssociative[j],
      leftLevel op = j + 1 ∧ rightLevel op = j + 2 ∧ binaryLevel op = j + 2 := by decide
  obtain ⟨hi, rfl⟩ := List.getElem?_eq_some_iff.1 hops
  exact htable ⟨i, hi⟩ op hop

/-- An expression before a token that continues none. -/
theorem read_before
    (hx : ∀ rest, Follows 0 rest → plain (expr 0 (ts ++ rest)) = plain (extend 0 x rest))
    (ht : t.kind = k) (hk : Continuation.ofKind? k = none) :
    plain (expr 0 (ts ++ t :: rest)) = .ok (x, t :: rest) := by
  have hends : Ends 0 (t :: rest) := ends_of_kind ht hk
  rw [hx _ hends.follows, plain_extend_of_ends _ hends]

/-- A binary operator and its right operand after a left operand. -/
theorem read_binary (ht : t.kind = .symbol op.symbol)
    (hlevel : q < binaryLevel op) (hpq : p ≤ q) (hrest : Follows q rest)
    (hx : plain (expr p (ts ++ t :: (us ++ rest))) = plain (extend p x (t :: (us ++ rest))))
    (hy : plain (expr (rightLevel op) (us ++ rest)) = plain (extend (rightLevel op) y rest)) :
    plain (expr p (ts ++ t :: us ++ rest)) = plain (extend p (.binary t op x y) rest) := by
  rw [List.append_assoc, List.cons_append, hx]
  refine plain_extend_of_lt (c := .binary op) ht (Nat.lt_of_le_of_lt hpq hlevel) ?_
  rw [resume]
  exact plain_bind_of_ok (hy.trans (plain_extend_of_ends _ (hrest.ends_right hlevel))) fun _ => rfl

end

mutual

/-- An expression is read as a whole, and what follows is read as its continuation. -/
theorem Spells.read {p : Nat} {rest : List Token} (h : Spells q ts x) (hpq : p ≤ q)
    (hrest : Follows q rest) (hunary : startsPrefix ts = true → Follows unaryLevel rest) :
    plain (expr p (ts ++ rest)) = plain (extend p x rest) :=
  match h with
  | @Spells.assign ts us t op x y ht hx hy => by
    have ht' : Follows 1 (t :: (us ++ rest)) := follows_cons (c := .assign op) ht (Nat.le_refl 1)
    rw [List.append_assoc, List.cons_append,
      hx.read (Nat.le_trans hpq (Nat.zero_le 1)) ht' fun _ => ht'.mono (by decide)]
    refine plain_extend_of_lt (c := .assign op) ht (Nat.lt_of_le_of_lt hpq Nat.one_pos) ?_
    have hy := hy.read (Nat.le_refl 0) hrest fun _ => hrest.mono (Nat.zero_le _)
    rw [resume]
    exact plain_bind_of_ok (hy.trans (plain_extend_of_ends _ hrest.ends_zero)) fun _ => rfl
  | @Spells.left _ i ops ts us t op x y hops hop hlevel ht hx hy => by
    obtain ⟨hleft, hright, hop⟩ := level_of_leftAssociative hops hop
    have ht' : Follows (i + 1) (t :: (us ++ rest)) :=
      follows_cons (c := .binary op) ht (Nat.le_of_eq hleft)
    have hrest' : Follows (i + 2) rest := hrest.mono (Nat.le_of_lt hlevel)
    have hbound := rightLevel_cases op
    refine read_binary ht (hop ▸ hlevel) hpq hrest ?_ ?_
    · exact hx.read (by omega) ht' fun _ => ht'.mono (by rw [unaryLevel]; omega)
    · rw [hright]
      exact hy.read (Nat.le_refl _) hrest' fun _ => hrest'.mono (by rw [unaryLevel]; omega)
  | @Spells.power _ ts us t x y hlevel ht hx hy => by
    have ht' : Follows 8 (t :: (us ++ rest)) := follows_cons (c := .binary .pow) ht (Nat.le_refl 8)
    have hrest' : Follows 7 rest := hrest.mono (Nat.le_of_lt_succ hlevel)
    refine read_binary (show t.kind = .symbol (BinaryOp.symbol .pow) from ht) hlevel hpq hrest ?_ ?_
    · exact hx.read (by omega) ht' fun _ => ht'.mono (by decide)
    · exact hy.read (Nat.le_refl _) hrest' fun _ => hrest'.mono (by decide)
  | @Spells.unary _ ts t op x ht hx => by
    have hrest := hunary (by rw [startsPrefix, ht, unaryOp?_symbol]; rfl)
    have hx : plain (expr unaryLevel (ts ++ rest)) = .ok (x, rest) :=
      (hx.read (Nat.le_refl 9) hrest fun _ => hrest).trans (plain_extend_of_ends _ hrest.ends_unary)
    exact plain_expr_of_operand (plain_operand_unary ht hx)
  | .suffixed h => h.read hpq

theorem Suffixed.read {p q : Nat} {ts rest : List Token} {x : Expr} (h : Suffixed q ts x)
    (hpq : p ≤ q) : plain (expr p (ts ++ rest)) = plain (extend p x rest) :=
  match h with
  | .literal ht => plain_expr_of_operand (by rw [operand, if_pos ht]; rfl)
  | .ident ht => plain_expr_of_operand (by rw [operand, ht]; rfl)
  | @Suffixed.group _ ts l r x hl hx hr => by
    rw [List.cons_append, List.append_assoc]
    refine plain_expr_of_operand ?_
    have hx : plain (expr 0 (ts ++ r :: rest)) = .ok (_, r :: rest) := read_before
      (fun rest h => hx.read (Nat.le_refl 0) h fun _ => h.mono (Nat.zero_le _)) hr rfl
    rw [operand, hl]
    exact plain_bind_of_ok hx fun _ => plain_expect_bind hr fun _ => rfl
  | @Suffixed.list _ ts l xs hl hxs => by
    rw [List.cons_append]
    refine plain_expr_of_operand ?_
    rw [operand, hl]
    exact plain_bind_of_ok (hxs.read (.inr rfl) _) fun _ => rfl
  | @Suffixed.construct _ ts us t l type xs ht htype hl hxs => by
    have hend : EndsType type (l :: (us ++ rest)) := by
      rintro _ _ ⟨rfl, rfl⟩ -
      rw [hl]
      exact ⟨nofun, fun _ => ⟨nofun, nofun⟩⟩
    rw [List.cons_append, List.append_assoc]
    refine plain_expr_of_operand ?_
    rw [operand, ht]
    exact plain_bind_of_ok (plain_typeName_of_named htype hend) fun _ => plain_expect_bind hl fun _ =>
        plain_bind_of_ok (hxs.read (.inl rfl) _) fun _ => rfl
  | @Suffixed.step _ ts t op x hlevel hx ht => by
    rw [List.append_assoc, hx.read hpq, List.cons_append]
    refine plain_extend_of_lt (c := .step op) ht (Nat.lt_of_le_of_lt hpq hlevel) ?_
    rw [resume]
    rfl
  | @Suffixed.index _ ts us tok l r name i hlevel hx hl hi hr => by
    have hpeek : (peek (us ++ r :: rest)).kind ≠ .eof := by
      obtain ⟨t, us', rfl, ht⟩ := hi.starts
      intro heq
      rw [show t.kind = .eof from heq] at ht
      cases ht
    have hi : plain (expr 0 (us ++ r :: rest)) = .ok (_, r :: rest) := read_before
      (fun rest h => hi.read (Nat.le_refl 0) h fun _ => h.mono (Nat.zero_le _)) hr rfl
    rw [List.append_assoc, hx.read hpq, List.cons_append, List.append_assoc, List.singleton_append]
    refine plain_extend_of_lt (c := .index) hl (Nat.lt_of_le_of_lt hpq hlevel) ?_
    rw [resume.eq_def]
    dsimp only
    rw [if_neg hpeek]
    exact plain_bind_of_ok hi fun _ => plain_expect_bind hr fun _ => rfl
  | @Suffixed.call _ ts us l x xs hlevel hx hl hxs => by
    rw [List.append_assoc, hx.read hpq, List.cons_append]
    refine plain_extend_of_lt (c := .call) hl (Nat.lt_of_le_of_lt hpq hlevel) ?_
    rw [resume]
    exact plain_bind_of_ok (hxs.read (.inl rfl) _) fun _ => rfl
  | @Suffixed.property _ ts dot name x hlevel hx hdot hname => by
    rw [List.append_assoc, hx.read hpq, List.cons_append]
    refine plain_extend_of_lt (c := .property) hdot (Nat.lt_of_le_of_lt hpq hlevel) ?_
    rw [resume]
    exact plain_expect_bind hname fun _ => rfl

theorem Items.read {close : Symbol} {ts rest : List Token} {xs : List Expr} (h : Items close ts xs)
    (hclose : close = .rparen ∨ close = .rbrack) (fault : ParseFault) :
    plain (exprs close fault (ts ++ rest)) = .ok (xs, rest) :=
  match h with
  | .close ht => plain_exprs_close ht fault rest
  | @Items.last close ts t x hx ht => by
    have hx' : plain (expr 0 (ts ++ t :: rest)) = .ok (x, t :: rest) :=
      read_before (fun rest h => hx.read (Nat.le_refl 0) h fun _ => h.mono (Nat.zero_le _)) ht
        (by rcases hclose with rfl | rfl <;> rfl)
    have hcomma : ¬ t.kind = .symbol .comma := by
      rw [ht]
      rcases hclose with rfl | rfl <;> nofun
    rw [List.append_assoc, List.singleton_append, exprs,
      if_neg (not_close_of_starts hclose (starts_of_append hx.starts))]
    refine plain_bind_of_ok hx' fun _ => ?_
    dsimp only
    rw [pass_cons_of_ne hcomma]
    exact plain_expect_bind ht fun _ => rfl
  | @Items.more close ts us t x xs hx ht hxs => by
    have hx' : plain (expr 0 (ts ++ t :: (us ++ rest))) = .ok (x, t :: (us ++ rest)) :=
      read_before (fun rest h => hx.read (Nat.le_refl 0) h fun _ => h.mono (Nat.zero_le _)) ht rfl
    rw [List.append_assoc, List.cons_append, exprs,
      if_neg (not_close_of_starts hclose (starts_of_append hx.starts))]
    refine plain_bind_of_ok hx' fun _ => ?_
    dsimp only
    rw [pass_of_kind ht]
    exact plain_bind_of_ok (hxs.read hclose _) fun _ => rfl

end

/-! ### Operands -/

/-- The level matters for suffixes only above those of prefix operators. -/
theorem Suffixed.lower (h : Suffixed p ts x) (hq : q ≤ 9) :
    Suffixed q ts x :=
  match h with
  | .literal ht => .literal ht
  | .ident ht => .ident ht
  | .group hl hx hr => .group hl hx hr
  | .list hl hxs => .list hl hxs
  | .construct ht htype hl hxs => .construct ht htype hl hxs
  | .step _ hx ht => .step (by omega) (hx.lower hq) ht
  | .index _ hx hl hi hr => .index (by omega) (hx.lower hq) hl hi hr
  | .call _ hx hl hxs => .call (by omega) (hx.lower hq) hl hxs
  | .property _ hx hdot hname => .property (by omega) (hx.lower hq) hdot hname

theorem startsPrefix_append (hts : ts ≠ []) :
    startsPrefix (ts ++ us) = startsPrefix ts := by
  cases ts with
  | nil => exact absurd rfl hts
  | cons t ts => rfl

theorem Suffixed.ne_nil (h : Suffixed level ts x) :
    ts ≠ [] := by
  obtain ⟨t, ts', rfl, -⟩ := h.starts
  nofun

theorem unaryOp?_of_literal (h : isLiteral k = true) : unaryOp? k = none := by
  unfold unaryOp?
  split <;> first | rfl | cases h

theorem Suffixed.startsPrefix
    (h : Suffixed level ts x) : Grammar.startsPrefix ts = false :=
  match h with
  | .literal ht => by rw [Grammar.startsPrefix, unaryOp?_of_literal ht]; rfl
  | .ident ht => by rw [Grammar.startsPrefix, ht]; rfl
  | .group hl _ _ => by rw [Grammar.startsPrefix, hl]; rfl
  | .list hl _ => by rw [Grammar.startsPrefix, hl]; rfl
  | .construct ht _ _ _ => by rw [Grammar.startsPrefix, ht]; rfl
  | .step _ hx _ | .index _ hx _ _ _ | .call _ hx _ _ | .property _ hx _ _ =>
    (startsPrefix_append hx.ne_nil).trans hx.startsPrefix

/-- The rules for the binary operators in one. -/
theorem Spells.binary
    (ht : t.kind = .symbol op.symbol) (hlevel : level < binaryLevel op)
    (hx : Spells (leftLevel op) ts x) (hy : Spells (rightLevel op) us y) :
    Spells level (ts ++ t :: us) (.binary t op x y) := by
  have htable : op = .pow ∨ ∃ i : Fin 6, op ∈ leftAssociative[i] := by
    revert op
    intro op _ _ _ _
    cases op <;> decide
  rcases htable with rfl | ⟨i, hop⟩
  · exact .power hlevel ht hx hy
  · have hops : leftAssociative[i.1]? = some leftAssociative[i] := List.getElem?_eq_getElem _
    obtain ⟨hleft, hright, hbinary⟩ := level_of_leftAssociative hops hop
    exact .left hops hop (hbinary ▸ hlevel) ht (hleft ▸ hx) (hright ▸ hy)

end Grammar

namespace Parser

open Classwright.Grammar

/-! ### What is read is spelled -/

/-- A continuation can have an expression on its left. -/
def Continuation.Takes (c : Continuation) (level : Nat) (ts : List Token) (x : Expr) : Prop :=
  match c with
  | binary op => Spells (Parser.leftLevel op) ts x
  | assign _ => Spells 1 ts x
  | _ => Suffixed level ts x

/-- What follows does not belong to an expression of a level, nor to the operand of a prefix operator
at its start. The latter adds something only above the level of prefix operators. -/
structure Stops (level : Nat) (span rest : List Token) : Prop where
  ends : Ends level rest
  operand : startsPrefix span = true → Ends unaryLevel rest

/-- An expression has been read up to where a continuation may come, or its end. -/
structure Ready (level : Nat) (span : List Token) (x : Expr) (rest : List Token) : Prop where
  spells : Spells level span x
  takes : ∀ c, next? rest = some c → level < c.level → c.Takes level span x
  operand : startsPrefix span = true → Ends unaryLevel rest

def ExprSound (ts : List Token) : Prop :=
  ∀ level x rest, plain (expr level ts) = .ok (x, rest) →
    ∃ span, ts = span ++ rest ∧ Spells level span x ∧ Stops level span rest

def ItemsSound (ts : List Token) : Prop :=
  ∀ close fault xs rest, plain (exprs close fault ts) = .ok (xs, rest) →
    ∃ span, ts = span ++ rest ∧ Items close span xs

section
variable {level : Nat} {ts us span rest : List Token} {t : Token} {x y : Expr}

theorem Ready.of_suffixed (h : Suffixed level span x) (rest : List Token) :
    Ready level span x rest := by
  refine ⟨.suffixed h, fun c _ _ => ?_, fun hunary => ?_⟩
  · cases c with
    | binary op =>
      have := rightLevel_cases op
      exact .suffixed (h.lower (by omega))
    | assign op => exact .suffixed (h.lower (by decide))
    | _ => exact h
  · cases h.startsPrefix.symm.trans hunary

theorem Ready.unary (ht : t.kind = .symbol op.symbol) (hx : Spells unaryLevel us x)
    (hrest : Ends unaryLevel rest) : Ready level (t :: us) (.unary t op x) rest := by
  refine ⟨.unary ht hx, fun c hc _ => ?_, fun _ => hrest⟩
  have hle := hrest c hc
  cases c with
  | binary op => exact .unary ht hx
  | assign op => exact .unary ht hx
  | step | index | call | property =>
    rw [Continuation.level, unaryLevel] at hle
    omega

theorem Ready.binary (ht : t.kind = .symbol op.symbol)
    (hlevel : level < binaryLevel op) (hx : Spells (leftLevel op) span x)
    (hy : Spells (rightLevel op) us y) (hrest : Ends (rightLevel op) rest) :
    Ready level (span ++ t :: us) (.binary t op x y) rest := by
  have hop := rightLevel_cases op
  refine ⟨.binary ht hlevel hx hy, fun c hc _ => ?_, fun _ c hc => ?_⟩
  · have hle := hrest c hc
    cases c with
    | binary op' =>
      have hop' := rightLevel_cases op'
      rw [Continuation.level] at hle
      exact .binary ht (by omega) hx hy
    | assign op' => exact .binary ht hop.1 hx hy
    | step | index | call | property =>
      rw [Continuation.level] at hle
      omega
  · have hle := hrest c hc
    rw [unaryLevel]
    omega

theorem Ready.assign (ht : t.kind = .symbol op.symbol) (hx : Spells 1 span x)
    (hy : Spells 0 us y) (hrest : Ends 0 rest) : Ready 0 (span ++ t :: us) (.assign t op x y) rest := by
  refine ⟨.assign ht hx hy, fun c hc hlevel => ?_, fun _ c hc => ?_⟩
  · exact absurd (hrest c hc) (Nat.not_le.2 hlevel)
  · exact Nat.le_trans (hrest c hc) (Nat.zero_le _)

/-- What is read of a type name. -/
theorem parts_of_plain {name : Text} {ts : List Token}
    (h : plain (dottedTail name ts) = .ok (full, rest)) :
    ∃ span text, ts = span ++ rest ∧ Parts span text ∧ full = name ++ text := by
  match ts, h with
  | [], h =>
    rw [dottedTail] at h
    cases h
    exact ⟨[], [], rfl, .nil, (List.append_nil _).symm⟩
  | dot :: ts, h =>
    rw [dottedTail] at h
    split at h
    · next hdot =>
      obtain ⟨part, ts', h₁, hread, htail⟩ := of_plain_bind h
      rw [plain_bind_pure fun _ _ => rfl] at htail
      obtain ⟨span, text, rfl, hspan, rfl⟩ := parts_of_plain htail
      obtain ⟨hpart, rfl⟩ := of_plain_expect hread
      refine ⟨dot :: part :: span, _, rfl, .cons hdot hpart hspan, ?_⟩
      simp only [List.append_assoc]
    · cases h
      exact ⟨[], [], rfl, .nil, (List.append_nil _).symm⟩
termination_by ts.length

theorem brackets_of_plain (h : plain (listMark ts) = .ok (list, rest)) :
    ∃ span, ts = span ++ rest ∧ Brackets span list := by
  rw [listMark] at h
  rcases pass_cases (.symbol .lbrack) ts with ⟨l, us, _, rfl, hl, hpass⟩ | hpass
  · rw [hpass] at h
    obtain ⟨r, us, _, hread, h⟩ := of_plain_bind h
    cases h
    obtain ⟨hr, rfl⟩ := of_plain_expect hread
    exact ⟨[l, r], rfl, .pair hl hr⟩
  · rw [hpass] at h
    cases h
    exact ⟨[], rfl, .none⟩

theorem named_of_plain (h : plain (typeName ts) = .ok (type, rest)) :
    ∃ span, ts = span ++ rest ∧ Named span type := by
  rw [typeName] at h
  obtain ⟨tok, ts₁, _, hread₁, h⟩ := of_plain_bind h
  obtain ⟨name, ts₂, _, hread₂, h⟩ := of_plain_bind h
  obtain ⟨list, ts₃, _, hread₃, h⟩ := of_plain_bind h
  obtain ⟨htok, rfl⟩ := of_plain_expect hread₁
  obtain ⟨us, text, rfl, hparts, rfl⟩ := parts_of_plain hread₂
  obtain ⟨vs, rfl, hlist⟩ := brackets_of_plain hread₃
  dsimp only at h
  rcases pass_cases (.symbol .question) ts₃ with ⟨t, ws, _, rfl, ht, hpass⟩ | hpass
  · rw [hpass] at h
    cases h
    refine ⟨tok :: (us ++ vs ++ [t]), ?_, .mk htok hparts hlist (.mark ht)⟩
    rw [List.cons_append, List.append_assoc, List.append_assoc, List.singleton_append]
  · rw [hpass] at h
    cases h
    refine ⟨tok :: (us ++ vs ++ []), ?_, .mk htok hparts hlist .none⟩
    rw [List.append_nil, List.cons_append, List.append_assoc]

theorem kind_of_unaryOp? (h : unaryOp? k = some op) :
    k = .symbol op.symbol := by
  unfold unaryOp? at h
  split at h <;> cases h <;> rfl

/-- Nothing continues the expression. -/
theorem Ready.stops (h : Ready level span x rest) (hends : Ends level rest) :
    ∃ us, rest = us ++ rest ∧ Spells level (span ++ us) x ∧ Stops level (span ++ us) rest := by
  refine ⟨[], rfl, ?_⟩
  rw [List.append_nil]
  exact ⟨h.spells, hends, h.operand⟩

mutual

/-- What is read as an operand. -/
theorem ready_of_operand {t : Token} {ts rest : List Token} {x : Expr}
    (h : plain (operand t ts) = .ok (x, rest)) :
    ∃ us, ts = us ++ rest ∧ ∀ level, Ready level (t :: us) x rest := by
  rw [operand] at h
  split at h
  · next ht =>
    cases h
    exact ⟨[], rfl, fun _ => .of_suffixed (.literal ht) _⟩
  split at h
  · next ht =>
    cases h
    exact ⟨[], rfl, fun _ => .of_suffixed (.ident ht) _⟩
  split at h
  · next ht =>
    obtain ⟨x, ts₁, _, hread₁, h⟩ := of_plain_bind h
    obtain ⟨r, ts₂, _, hread₂, h⟩ := of_plain_bind h
    cases h
    obtain ⟨hr, rfl⟩ := of_plain_expect hread₂
    obtain ⟨us, rfl, hx, -⟩ := exprSound ts _ _ _ hread₁
    refine ⟨us ++ [r], ?_, fun _ => .of_suffixed (.group ht hx hr) _⟩
    rw [List.append_assoc, List.singleton_append]
  split at h
  · next ht =>
    obtain ⟨xs, ts₁, _, hread, h⟩ := of_plain_bind h
    cases h
    obtain ⟨us, rfl, hxs⟩ := itemsSound ts _ _ _ _ hread
    exact ⟨us, rfl, fun _ => .of_suffixed (.list ht hxs) _⟩
  split at h
  · next ht =>
    obtain ⟨type, ts₁, h₁, hread₁, h⟩ := of_plain_bind h
    obtain ⟨l, ts₂, h₂, hread₂, h⟩ := of_plain_bind h
    obtain ⟨xs, ts₃, _, hread₃, h⟩ := of_plain_bind h
    cases h
    obtain ⟨vs, rfl, hxs⟩ := itemsSound ts₂ _ _ _ _ hread₃
    obtain ⟨hl, rfl⟩ := of_plain_expect hread₂
    obtain ⟨us, rfl, htype⟩ := named_of_plain hread₁
    refine ⟨us ++ l :: vs, ?_, fun _ => .of_suffixed (.construct ht htype hl hxs) _⟩
    rw [List.append_assoc, List.cons_append]
  split at h
  · next op hop =>
    obtain ⟨x, ts₁, _, hread, h⟩ := of_plain_bind h
    cases h
    obtain ⟨us, rfl, hx, hstops⟩ := exprSound ts _ _ _ hread
    exact ⟨us, rfl, fun _ => .unary (kind_of_unaryOp? hop) hx hstops.ends⟩
  · cases h
termination_by 3 * ts.length + 2

/-- What is read as a continuation. -/
theorem ready_of_resume {c : Continuation} {level : Nat} {t : Token} {span ts rest : List Token}
    {x y : Expr} (ht : t.kind = .symbol c.symbol) (hlevel : level < c.level)
    (hx : c.Takes level span x) (h : plain (resume c x t ts) = .ok (y, rest)) :
    ∃ us, ts = us ++ rest ∧ Ready level (span ++ t :: us) y rest := by
  rw [resume.eq_def] at h
  cases c with
  | binary op =>
    obtain ⟨y, ts₁, _, hread, h⟩ := of_plain_bind h
    cases h
    obtain ⟨us, rfl, hy, hstops⟩ := exprSound ts _ _ _ hread
    exact ⟨us, rfl, .binary ht hlevel hx hy hstops.ends⟩
  | assign op =>
    obtain ⟨y, ts₁, _, hread, h⟩ := of_plain_bind h
    cases h
    obtain ⟨us, rfl, hy, hstops⟩ := exprSound ts _ _ _ hread
    obtain rfl : level = 0 := Nat.lt_one_iff.1 hlevel
    exact ⟨us, rfl, .assign ht hx hy hstops.ends⟩
  | step op =>
    cases h
    exact ⟨[], rfl, .of_suffixed (.step hlevel hx ht) _⟩
  | index =>
    dsimp only at h
    split at h
    · split at h
      · cases h
      · obtain ⟨i, ts₁, _, hread₁, h⟩ := of_plain_bind h
        obtain ⟨r, ts₂, _, hread₂, h⟩ := of_plain_bind h
        cases h
        obtain ⟨hr, rfl⟩ := of_plain_expect hread₂
        obtain ⟨us, rfl, hi, -⟩ := exprSound ts _ _ _ hread₁
        refine ⟨us ++ [r], ?_, .of_suffixed (.index hlevel hx ht hi hr) _⟩
        rw [List.append_assoc, List.singleton_append]
    · cases h
  | call =>
    obtain ⟨xs, ts₁, _, hread, h⟩ := of_plain_bind h
    cases h
    obtain ⟨us, rfl, hxs⟩ := itemsSound ts _ _ _ _ hread
    exact ⟨us, rfl, .of_suffixed (.call hlevel hx ht hxs) _⟩
  | property =>
    obtain ⟨name, ts₁, _, hread, h⟩ := of_plain_bind h
    cases h
    obtain ⟨hname, rfl⟩ := of_plain_expect hread
    exact ⟨[name], rfl, .of_suffixed (.property hlevel hx ht hname) _⟩
termination_by 3 * ts.length + 2

/-- What is read as all continuations. -/
theorem spells_of_extend {level : Nat} {span ts rest : List Token} {x y : Expr}
    (hready : Ready level span x ts) (h : plain (extend level x ts) = .ok (y, rest)) :
    ∃ us, ts = us ++ rest ∧ Spells level (span ++ us) y ∧ Stops level (span ++ us) rest := by
  match ts, hready, h with
  | [], hready, h =>
    rw [extend] at h
    cases h
    exact hready.stops (by rintro _ ⟨⟩)
  | t :: ts, hready, h =>
    rw [extend] at h
    split at h
    · next hc =>
      cases h
      exact hready.stops fun c hc' => by cases hc.symm.trans hc'
    · next c hc =>
      split at h
      · next hlevel =>
        obtain ⟨z, ts₁, h₁, hread, hrest⟩ := of_plain_bind h
        rw [plain_bind_pure fun _ _ => rfl] at hrest
        obtain ⟨us, hus, hz⟩ := ready_of_resume (Continuation.ofKind?_eq_some_iff.1 hc) hlevel
          (hready.takes c hc hlevel) hread
        obtain ⟨vs, rfl, hy⟩ := spells_of_extend hz hrest
        refine ⟨t :: (us ++ vs), ?_, ?_⟩
        · rw [hus, List.cons_append, List.append_assoc]
        · rwa [List.append_assoc, List.cons_append] at hy
      · next hlevel =>
        cases h
        refine hready.stops fun c' hc' => ?_
        cases hc.symm.trans hc'
        exact Nat.not_lt.1 hlevel
termination_by 3 * ts.length

theorem exprSound (ts : List Token) : ExprSound ts := by
  intro level y rest h
  match ts, h with
  | [], h =>
    rw [expr] at h
    cases h
  | t :: ts, h =>
    rw [expr] at h
    obtain ⟨x, ts₁, h₁, hread, hrest⟩ := of_plain_bind h
    rw [plain_bind_pure fun _ _ => rfl] at hrest
    obtain ⟨us, hus, hx⟩ := ready_of_operand hread
    obtain ⟨vs, rfl, hy⟩ := spells_of_extend (hx level) hrest
    refine ⟨t :: us ++ vs, ?_, hy⟩
    rw [hus, List.cons_append, List.cons_append, List.append_assoc]
termination_by 3 * ts.length

theorem itemsSound (ts : List Token) : ItemsSound ts := by
  intro close fault xs rest h
  rw [exprs] at h
  split at h
  · obtain ⟨t, ts₁, _, hread, hrest⟩ := of_plain_bind h
    obtain ⟨ht, rfl⟩ := of_plain_expect hread
    cases hrest
    exact ⟨[t], rfl, .close ht⟩
  · obtain ⟨x, ts₁, h₁, hread, hrest⟩ := of_plain_bind h
    obtain ⟨us, hus, hx, -⟩ := exprSound ts _ _ _ hread
    dsimp only at hrest
    rcases pass_cases (.symbol .comma) ts₁ with ⟨t, ts₂, _, hts₁, ht, hpass⟩ | hpass
    · rw [hpass] at hrest
      obtain ⟨ys, ts₃, _, hread', hrest⟩ := of_plain_bind hrest
      cases hrest
      obtain ⟨vs, rfl, hys⟩ := itemsSound ts₂ _ _ _ _ hread'
      subst hts₁ hus
      refine ⟨us ++ t :: vs, ?_, .more hx ht hys⟩
      rw [List.append_assoc, List.cons_append]
    · rw [hpass] at hrest
      obtain ⟨t, ts₂, _, hread', hrest⟩ := of_plain_bind hrest
      cases hrest
      obtain ⟨ht, rfl⟩ := of_plain_expect hread'
      subst hus
      refine ⟨us ++ [t], ?_, .last hx ht⟩
      rw [List.append_assoc, List.singleton_append]
termination_by 3 * ts.length + 1

end

theorem plain_expr_of_spells (h : Spells level span x) (hstops : Stops level span rest) :
    plain (expr level (span ++ rest)) = .ok (x, rest) :=
  (h.read (Nat.le_refl level) hstops.ends.follows fun hunary => (hstops.operand hunary).follows).trans
    (plain_extend_of_ends x hstops.ends)

end

/-- The parser reads an expression of a level exactly if the tokens that it takes spell the expression
by the grammar and what follows does not belong to it. Tokens spell one expression at most, which
holds all of them but the delimiters. -/
theorem expr_iff_spells (level : Nat) :
    (∀ ts x rest, (∃ h, expr level ts = .ok (x, ⟨rest, h⟩)) ↔
      ∃ span, ts = span ++ rest ∧ Spells level span x ∧ Stops level span rest)
    ∧ (∀ span x y, Spells level span x → Spells level span y → x = y)
    ∧ ∀ span x, Spells level span x → Holds x (words span) := by
  refine ⟨fun ts x rest => ⟨?_, ?_⟩, fun span x y hx hy => ?_, fun span x hx => hx.holds⟩
  · rintro ⟨hrest, h⟩
    exact exprSound ts level x rest (by rw [h]; rfl)
  · rintro ⟨span, rfl, hx, hstops⟩
    exact eq_ok_of_plain (plain_expr_of_spells hx hstops)
  · -- with nothing after them, the tokens are read as both
    have hstops : Stops level span [] := ⟨nofun, fun _ => nofun⟩
    cases (plain_expr_of_spells hx hstops).symm.trans (plain_expr_of_spells hy hstops)
    rfl

end Parser

end Classwright
