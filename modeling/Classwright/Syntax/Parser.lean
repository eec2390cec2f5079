import Classwright.Syntax
import Classwright.Syntax.Fault

/-!
From tokens to syntax trees. Each function below takes the tokens that are left, the end marker
last, and gives a tree with those left after it, a final part of them. `Parsed` records that some
token was read, `Passed` that none was put back, so every loop ends.

Expressions are read by precedence: `expr level` reads an operand and then every continuation that
binds tighter than `level`.
-/

namespace Classwright.Parser

/-- A tree read from `ts` and what is left, which is less. -/
abbrev Parsed (α : Type) (ts : List Token) : Type :=
  Except ParseError (α × { rest : List Token // rest <:+ ts ∧ rest.length < ts.length })

/-- Something read from `ts` and what is left, which may be all of it. -/
abbrev Passed (α : Type) (ts : List Token) : Type :=
  Except ParseError (α × { rest : List Token // rest <:+ ts ∧ rest.length ≤ ts.length })

theorem left_rfl {ts : List Token} : ts <:+ ts ∧ ts.length ≤ ts.length :=
  ⟨List.suffix_rfl, Nat.le_refl _⟩

theorem less_cons {rest ts : List Token} {t : Token} (h : rest <:+ ts ∧ rest.length ≤ ts.length) :
    rest <:+ t :: ts ∧ rest.length < (t :: ts).length :=
  ⟨h.1.trans (List.suffix_cons t ts), Nat.lt_succ_of_le h.2⟩

theorem left_cons {rest ts : List Token} {t : Token} (h : rest <:+ ts ∧ rest.length ≤ ts.length) :
    rest <:+ t :: ts ∧ rest.length ≤ (t :: ts).length :=
  ⟨h.1.trans (List.suffix_cons t ts), Nat.le_succ_of_le h.2⟩

/-- The next token. -/
def peek (ts : List Token) : Token := ts.headD Token.nowhere

/-- Reads a token of a kind. -/
def expect (kind : Kind) (fault : ParseFault) (ts : List Token) : Parsed Token ts :=
  match ts with
  | [] => .error ⟨fault, Token.nowhere⟩
  | t :: rest =>
    if t.kind = kind then .ok (t, ⟨rest, less_cons left_rfl⟩) else .error ⟨fault, t⟩

/-- Passes a token of a kind if it comes next, and tells whether it did. -/
def pass (kind : Kind) (ts : List Token) :
    Bool × { rest : List Token // rest <:+ ts ∧ rest.length ≤ ts.length } :=
  match ts with
  | [] => (false, ⟨[], left_rfl⟩)
  | t :: rest =>
    if t.kind = kind then (true, ⟨rest, left_cons left_rfl⟩) else (false, ⟨t :: rest, left_rfl⟩)

/-! ### Types -/

/-- The parts of a dotted name after the first. -/
def dottedTail (name : Text) (ts : List Token) : Passed Text ts :=
  match ts with
  | [] => .ok (name, ⟨[], left_rfl⟩)
  | t :: rest =>
    if t.kind = .symbol .dot then do
      let (part, ⟨r1, h1⟩) ← expect .ident .typeNameAfterDot rest
      let (full, ⟨r2, h2⟩) ← dottedTail (name ++ "." ++ part.text) r1
      return (full, ⟨r2, left_cons ⟨h2.1.trans h1.1, by omega⟩⟩)
    else .ok (name, ⟨t :: rest, left_rfl⟩)
  termination_by ts.length
  decreasing_by simp only [List.length_cons]; omega

/-- The brackets of a list type, if they come next. -/
def listMark (ts : List Token) : Passed Bool ts :=
  match pass (.symbol .lbrack) ts with
  | (true, ⟨r1, h1⟩) => do
    let (_, ⟨r2, h2⟩) ← expect (.symbol .rbrack) .listBracket r1
    return (true, ⟨r2, h2.1.trans h1.1, by omega⟩)
  | (false, rest) => .ok (false, rest)

/-- A single type name. -/
def typeName (ts : List Token) : Parsed TypeName ts := do
  let (tok, ⟨r1, h1⟩) ← expect .ident .typeName ts
  let (name, ⟨r2, h2⟩) ← dottedTail tok.text r1
  let (list, ⟨r3, h3⟩) ← listMark r2
  let (nullable, ⟨r4, h4⟩) := pass (.symbol .question) r3
  return (⟨tok, name, list, nullable⟩, ⟨r4, h4.1.trans (h3.1.trans (h2.1.trans h1.1)), by omega⟩)

/-- The alternatives of a union after the first. -/
def alternatives (ts : List Token) : Passed (List TypeName) ts :=
  match ts with
  | [] => .ok ([], ⟨[], left_rfl⟩)
  | t :: rest =>
    if t.kind = .symbol .pipe then do
      let (alt, ⟨r1, h1⟩) ← typeName rest
      let (alts, ⟨r2, h2⟩) ← alternatives r1
      return (alt :: alts, ⟨r2, left_cons ⟨h2.1.trans h1.1, by omega⟩⟩)
    else .ok ([], ⟨t :: rest, left_rfl⟩)
  termination_by ts.length
  decreasing_by simp only [List.length_cons]; omega

/-- A type name or a union of several. -/
def typeRef (ts : List Token) : Parsed TypeRef ts := do
  let (first, ⟨r1, h1⟩) ← typeName ts
  let (others, ⟨r2, h2⟩) ← alternatives r1
  return (⟨first, others⟩, ⟨r2, h2.1.trans h1.1, by omega⟩)

/-! ### Expressions -/

/-- What may follow an expression and make it a larger one. -/
inductive Continuation where
  | binary (op : BinaryOp)
  | assign (op : AssignOp)
  | step (op : StepOp)
  | index
  | call
  | property
  deriving DecidableEq, Repr

namespace Continuation

/-- The continuation that a token of a kind starts. -/
def ofKind? : Kind → Option Continuation
  | .symbol .or => some (binary .or)
  | .symbol .and => some (binary .and)
  | .symbol .xor => some (binary .xor)
  | .symbol .range => some (binary .range)
  | .symbol .eq => some (binary .eq)
  | .symbol .ne => some (binary .ne)
  | .symbol .lt => some (binary .lt)
  | .symbol .gt => some (binary .gt)
  | .symbol .le => some (binary .le)
  | .symbol .ge => some (binary .ge)
  | .symbol .add => some (binary .add)
  | .symbol .sub => some (binary .sub)
  | .symbol .mod => some (binary .mod)
  | .symbol .mul => some (binary .mul)
  | .symbol .div => some (binary .div)
  | .symbol .pow => some (binary .pow)
  | .symbol .assign => some (assign .plain)
  | .symbol .addAssign => some (assign .add)
  | .symbol .subAssign => some (assign .sub)
  | .symbol .mulAssign => some (assign .mul)
  | .symbol .divAssign => some (assign .div)
  | .symbol .modAssign => some (assign .mod)
  | .symbol .inc => some (step .inc)
  | .symbol .dec => some (step .dec)
  | .symbol .lbrack => some index
  | .symbol .lparen => some call
  | .symbol .dot => some property
  | _ => none

end Continuation

/-- How tight a binary operator binds; one with a higher level binds tighter. -/
def binaryLevel : BinaryOp → Nat
  | .or => 2
  | .and => 3
  | .xor => 4
  | .range | .eq | .ne | .lt | .gt | .le | .ge => 5
  | .add | .sub | .mod => 6
  | .mul | .div => 7
  | .pow => 8

/-- The level of the right operand: a power associates to the right, the others to the left. -/
def rightLevel : BinaryOp → Nat
  | .pow => 7
  | op => binaryLevel op

/-- The level of the operand of a prefix operator. -/
def unaryLevel : Nat := 9

namespace Continuation

def level : Continuation → Nat
  | assign _ => 1
  | binary op => binaryLevel op
  | step _ | index => 10
  | call | property => 11

end Continuation

def unaryOp? : Kind → Option UnaryOp
  | .symbol .add => some .plus
  | .symbol .sub => some .minus
  | .symbol .mod => some .percent
  | .symbol .not => some .not
  | _ => none

/-- Whether a token of a kind is a literal of its own. -/
def isLiteral : Kind → Bool
  | .int | .float | .char | .string => true
  | .keyword .true_ | .keyword .false_ | .keyword .null_ => true
  | _ => false

/-- The function name of an index access, placed at its bracket. -/
def indexCallee (bracket : Token) : Expr :=
  .ident ⟨.ident, Expr.indexName, bracket.line, bracket.col⟩ Expr.indexName

mutual

/-- An expression, with all continuations that bind tighter than `level`. -/
def expr (level : Nat) (ts : List Token) : Parsed Expr ts :=
  match ts with
  | [] => .error ⟨.expression, Token.nowhere⟩
  | t :: rest => do
    let (x, ⟨r1, h1⟩) ← operand t rest
    let (y, ⟨r2, h2⟩) ← extend level x r1
    return (y, ⟨r2, less_cons ⟨h2.1.trans h1.1, by omega⟩⟩)
  termination_by 3 * ts.length + 0

/-- The operand that starts with a token. -/
def operand (t : Token) (ts : List Token) : Passed Expr ts :=
  if isLiteral t.kind then .ok (.literal t, ⟨ts, left_rfl⟩)
  else if t.kind = .ident then .ok (.ident t t.text, ⟨ts, left_rfl⟩)
  else if t.kind = .symbol .lparen then do
    let (x, ⟨r1, h1⟩) ← expr 0 ts
    let (_, ⟨r2, h2⟩) ← expect (.symbol .rparen) .groupEnd r1
    return (x, ⟨r2, h2.1.trans h1.1, by omega⟩)
  else if t.kind = .symbol .lbrack then do
    let (xs, ⟨r1, h1⟩) ← exprs .rbrack .listEnd ts
    return (.list t xs, ⟨r1, h1.1, by omega⟩)
  else if t.kind = .keyword .new_ then do
    let (type, ⟨r1, h1⟩) ← typeName ts
    let (_, ⟨r2, h2⟩) ← expect (.symbol .lparen) .argumentsStart r1
    let (args, ⟨r3, h3⟩) ← exprs .rparen .argumentsEnd r2
    return (.construct t type args, ⟨r3, h3.1.trans (h2.1.trans h1.1), by omega⟩)
  else match unaryOp? t.kind with
    | some op => do
      let (x, ⟨r1, h1⟩) ← expr unaryLevel ts
      return (.unary t op x, ⟨r1, h1.1, by omega⟩)
    | none => .error ⟨.expression, t⟩
  termination_by 3 * ts.length + 2

/-- The expression `x` with all continuations that bind tighter than `level`. -/
def extend (level : Nat) (x : Expr) (ts : List Token) : Passed Expr ts :=
  match ts with
  | [] => .ok (x, ⟨[], left_rfl⟩)
  | t :: rest =>
    match Continuation.ofKind? t.kind with
    | none => .ok (x, ⟨t :: rest, left_rfl⟩)
    | some c =>
      if level < c.level then do
        let (y, ⟨r1, h1⟩) ← resume c x t rest
        let (z, ⟨r2, h2⟩) ← extend level y r1
        return (z, ⟨r2, left_cons ⟨h2.1.trans h1.1, by omega⟩⟩)
      else .ok (x, ⟨t :: rest, left_rfl⟩)
  termination_by 3 * ts.length + 0

/-- The expression `x` with one continuation, which starts with the token `t`. -/
def resume (c : Continuation) (x : Expr) (t : Token) (ts : List Token) : Passed Expr ts :=
  match c with
  | .binary op => do
    let (y, ⟨r1, h1⟩) ← expr (rightLevel op) ts
    return (.binary t op x y, ⟨r1, h1.1, by omega⟩)
  | .assign op => do
    let (y, ⟨r1, h1⟩) ← expr 0 ts
    return (.assign t op x y, ⟨r1, h1.1, by omega⟩)
  | .step op => .ok (.step t op x, ⟨ts, left_rfl⟩)
  | .index =>
    match x with
    | .ident tok name =>
      if (peek ts).kind = .eof then .error ⟨.indexEnd, peek ts⟩ else do
        let (i, ⟨r1, h1⟩) ← expr 0 ts
        let (_, ⟨r2, h2⟩) ← expect (.symbol .rbrack) .indexEnd r1
        return (.call tok (indexCallee t) [.ident tok name, i], ⟨r2, h2.1.trans h1.1, by omega⟩)
    | _ => .error ⟨.indexTarget, t⟩
  | .call => do
    let (args, ⟨r1, h1⟩) ← exprs .rparen .argumentsEnd ts
    return (.call x.tok x args, ⟨r1, h1.1, by omega⟩)
  | .property => do
    let (name, ⟨r1, h1⟩) ← expect .ident .propertyName ts
    return (.property name x name.text, ⟨r1, h1.1, by omega⟩)
  termination_by 3 * ts.length + 2

/-- Expressions between commas up to a closing symbol; a comma may stand before it. -/
def exprs (close : Symbol) (fault : ParseFault) (ts : List Token) : Parsed (List Expr) ts :=
  if (peek ts).kind = .symbol close ∨ (peek ts).kind = .eof then do
    let (_, rest) ← expect (.symbol close) fault ts
    return ([], rest)
  else do
    let (x, ⟨r1, h1⟩) ← expr 0 ts
    match pass (.symbol .comma) r1 with
    | (true, ⟨r2, h2⟩) =>
      let (xs, ⟨r3, h3⟩) ← exprs close fault r2
      return (x :: xs, ⟨r3, h3.1.trans (h2.1.trans h1.1), by omega⟩)
    | (false, _) =>
      let (_, ⟨r2, h2⟩) ← expect (.symbol close) fault r1
      return ([x], ⟨r2, h2.1.trans h1.1, by omega⟩)
  termination_by 3 * ts.length + 1

end

/-! ### Statements -/

/-- The parts of an import path after the first. -/
def pathTail (path : Text) (ts : List Token) : Passed Text ts :=
  match ts with
  | [] => .ok (path, ⟨[], left_rfl⟩)
  | t :: rest =>
    if t.kind = .symbol .div then do
      let (part, ⟨r1, h1⟩) ← expect .ident .usePart rest
      let (full, ⟨r2, h2⟩) ← pathTail (path ++ "/" ++ part.text) r1
      return (full, ⟨r2, left_cons ⟨h2.1.trans h1.1, by omega⟩⟩)
    else .ok (path, ⟨t :: rest, left_rfl⟩)
  termination_by ts.length
  decreasing_by simp only [List.length_cons]; omega

/-- An import, after its keyword. -/
def useDecl (tok : Token) (ts : List Token) : Parsed UseDecl ts := do
  let (_, ⟨r1, h1⟩) ← expect (.symbol .lt) .useStart ts
  let (part, ⟨r2, h2⟩) ← expect .ident .usePart r1
  let (path, ⟨r3, h3⟩) ← pathTail part.text r2
  let (_, ⟨r4, h4⟩) ← expect (.symbol .gt) .useEnd r3
  return (⟨tok, path⟩, ⟨r4, h4.1.trans (h3.1.trans (h2.1.trans h1.1)), by omega⟩)

/-- A type after a colon, if a colon comes next. -/
def typeMark (ts : List Token) : Passed (Option TypeRef) ts :=
  match pass (.symbol .colon) ts with
  | (true, ⟨r1, h1⟩) => do
    let (type, ⟨r2, h2⟩) ← typeRef r1
    return (some type, ⟨r2, h2.1.trans h1.1, by omega⟩)
  | (false, rest) => .ok (none, rest)

/-- A variable or constant, after its keyword. -/
def varDecl (pub const : Bool) (ts : List Token) : Parsed VarDecl ts := do
  let (name, ⟨r1, h1⟩) ← expect .ident .variableName ts
  let (type, ⟨r2, h2⟩) ← typeMark r1
  let (_, ⟨r3, h3⟩) ← expect (.symbol .assign) .assignment r2
  let (value, ⟨r4, h4⟩) ← expr 0 r3
  return (⟨name, pub, const, name.text, type, value⟩,
    ⟨r4, h4.1.trans (h3.1.trans (h2.1.trans h1.1)), by omega⟩)

/-- Parameters between commas up to the closing parenthesis. -/
def params (ts : List Token) : Parsed (List Binding) ts :=
  if (peek ts).kind = .symbol .rparen then do
    let (_, rest) ← expect (.symbol .rparen) .parametersEnd ts
    return ([], rest)
  else do
    let (name, ⟨r1, h1⟩) ← expect .ident .parameterName ts
    let (_, ⟨r2, h2⟩) ← expect (.symbol .colon) .parameterColon r1
    let (type, ⟨r3, h3⟩) ← typeRef r2
    let p : Binding := ⟨name, name.text, type⟩
    match pass (.symbol .comma) r3 with
    | (true, ⟨r4, h4⟩) =>
      let (ps, ⟨r5, h5⟩) ← params r4
      return (p :: ps, ⟨r5, h5.1.trans (h4.1.trans (h3.1.trans (h2.1.trans h1.1))), by omega⟩)
    | (false, _) =>
      let (_, ⟨r4, h4⟩) ← expect (.symbol .rparen) .parametersEnd r3
      return ([p], ⟨r4, h4.1.trans (h3.1.trans (h2.1.trans h1.1)), by omega⟩)
  termination_by ts.length

/-- A field of a struct, after its name. -/
def field (name : Token) (ts : List Token) : Parsed Binding ts := do
  let (_, ⟨r1, h1⟩) ← expect (.symbol .colon) .fieldColon ts
  let (type, ⟨r2, h2⟩) ← typeRef r1
  let (_, ⟨r3, h3⟩) := pass (.symbol .comma) r2
  return (⟨name, name.text, type⟩, ⟨r3, h3.1.trans (h2.1.trans h1.1), by omega⟩)

/-- The value of a return, which starts on the line of its keyword. -/
def returnValue (tok : Token) (ts : List Token) : Passed (Option Expr) ts :=
  let next := peek ts
  if next.kind = .symbol .rbrace ∨ next.kind = .eof ∨ next.line ≠ tok.line then
    .ok (none, ⟨ts, left_rfl⟩)
  else do
    let (x, ⟨r1, h1⟩) ← expr 0 ts
    return (some x, ⟨r1, h1.1, by omega⟩)

/-- The block of a case arm: the one that is written, or a block of a single statement. -/
def armBody : Stmt → Block
  | .block b => b
  | s => .mk s.tok [s]

mutual

/-- A statement. -/
def stmt (ts : List Token) : Parsed Stmt ts :=
  match ts with
  | [] => .error ⟨.expression, Token.nowhere⟩
  | t :: rest =>
    match t.kind with
    | .keyword .use_ => do
      let (d, ⟨r, h⟩) ← useDecl t rest
      return (.use d, ⟨r, less_cons ⟨h.1, by omega⟩⟩)
    | .keyword .pub_ =>
      match rest with
      | [] => .error ⟨.exported, Token.nowhere⟩
      | u :: rest' => do
        match u.kind with
        | .keyword .def_ =>
          let (d, ⟨r, h⟩) ← funcDecl true rest'
          return (.func d, ⟨r, less_cons (left_cons ⟨h.1, by omega⟩)⟩)
        | .keyword .type_ =>
          let (s, ⟨r, h⟩) ← typeDecl true rest'
          return (s, ⟨r, less_cons (left_cons ⟨h.1, by omega⟩)⟩)
        | .keyword .var_ =>
          let (d, ⟨r, h⟩) ← varDecl true false rest'
          return (.var d, ⟨r, less_cons (left_cons ⟨h.1, by omega⟩)⟩)
        | .keyword .const_ =>
          let (d, ⟨r, h⟩) ← varDecl true true rest'
          return (.var d, ⟨r, less_cons (left_cons ⟨h.1, by omega⟩)⟩)
        | _ => .error ⟨.exported, u⟩
    | .keyword .type_ => do
      let (s, ⟨r, h⟩) ← typeDecl false rest
      return (s, ⟨r, less_cons ⟨h.1, by omega⟩⟩)
    | .keyword .def_ => do
      let (d, ⟨r, h⟩) ← funcDecl false rest
      return (.func d, ⟨r, less_cons ⟨h.1, by omega⟩⟩)
    | .keyword .var_ => do
      let (d, ⟨r, h⟩) ← varDecl false false rest
      return (.var d, ⟨r, less_cons ⟨h.1, by omega⟩⟩)
    | .keyword .const_ => do
      let (d, ⟨r, h⟩) ← varDecl false true rest
      return (.var d, ⟨r, less_cons ⟨h.1, by omega⟩⟩)
    | .keyword .if_ => do
      let (c, ⟨r, h⟩) ← ifStmt t rest
      return (.cond c, ⟨r, less_cons ⟨h.1, by omega⟩⟩)
    | .keyword .while_ => do
      let (x, ⟨r1, h1⟩) ← expr 0 rest
      let (b, ⟨r2, h2⟩) ← block r1
      return (.loop t x b, ⟨r2, less_cons ⟨h2.1.trans h1.1, by omega⟩⟩)
    | .keyword .for_ => do
      let (name, ⟨r1, h1⟩) ← expect .ident .iteratorName rest
      let (_, ⟨r2, h2⟩) ← expect (.symbol .colon) .iteratorColon r1
      let (x, ⟨r3, h3⟩) ← expr 0 r2
      let (b, ⟨r4, h4⟩) ← block r3
      return (.each t name.text x b,
        ⟨r4, less_cons ⟨h4.1.trans (h3.1.trans (h2.1.trans h1.1)), by omega⟩⟩)
    | .keyword .case_ => do
      let (x, ⟨r1, h1⟩) ← expr 0 rest
      let (_, ⟨r2, h2⟩) ← expect (.symbol .lbrace) .caseStart r1
      let (arms, ⟨r3, h3⟩) ← caseArms r2
      return (.case t x arms, ⟨r3, less_cons ⟨h3.1.trans (h2.1.trans h1.1), by omega⟩⟩)
    | .keyword .return_ => do
      let (x, ⟨r, h⟩) ← returnValue t rest
      return (.ret t x, ⟨r, less_cons ⟨h.1, by omega⟩⟩)
    | .keyword .break_ | .keyword .continue_ => .ok (.branch t, ⟨rest, less_cons left_rfl⟩)
    | .symbol .lbrace => do
      let (b, r) ← block (t :: rest)
      return (.block b, r)
    | _ => do
      let (x, r) ← expr 0 (t :: rest)
      return (.expr x, r)
  termination_by 3 * ts.length + 1

/-- A block between braces. -/
def block (ts : List Token) : Parsed Block ts := do
  let (tok, ⟨r1, h1⟩) ← expect (.symbol .lbrace) .blockStart ts
  let (ss, ⟨r2, h2⟩) ← blockItems r1
  return (.mk tok ss, ⟨r2, h2.1.trans h1.1, by omega⟩)
  termination_by 3 * ts.length + 0

/-- The statements of a block up to the closing brace. -/
def blockItems (ts : List Token) : Parsed (List Stmt) ts :=
  match (peek ts).kind with
  | .symbol .rbrace => do
    let (_, rest) ← expect (.symbol .rbrace) .blockEnd ts
    return ([], rest)
  | .eof => .error ⟨.blockEnd, peek ts⟩
  | _ => do
    let (s, ⟨r1, h1⟩) ← stmt ts
    let (ss, ⟨r2, h2⟩) ← blockItems r1
    return (s :: ss, ⟨r2, h2.1.trans h1.1, by omega⟩)
  termination_by 3 * ts.length + 2

/-- A struct or an alias, after the keyword. -/
def typeDecl (pub : Bool) (ts : List Token) : Parsed Stmt ts := do
  let (name, ⟨r1, h1⟩) ← expect .ident .declaredTypeName ts
  let (_, ⟨r2, h2⟩) ← expect (.symbol .assign) .assignment r1
  match (peek r2).kind with
  | .keyword .struct_ =>
    let (_, ⟨r3, h3⟩) ← expect (.keyword .struct_) .structStart r2
    let (_, ⟨r4, h4⟩) ← expect (.symbol .lbrace) .structStart r3
    let ((fields, methods), ⟨r5, h5⟩) ← structItems r4
    return (.struct (.mk name pub name.text fields methods),
      ⟨r5, h5.1.trans (h4.1.trans (h3.1.trans (h2.1.trans h1.1))), by omega⟩)
  | .keyword .enum_ => .error ⟨.enum, peek r2⟩
  | _ =>
    let (type, ⟨r3, h3⟩) ← typeRef r2
    return (.typeAlias ⟨name, pub, name.text, type⟩, ⟨r3, h3.1.trans (h2.1.trans h1.1), by omega⟩)
  termination_by 3 * ts.length + 0

/-- Fields and methods up to the closing brace. -/
def structItems (ts : List Token) : Parsed (List Binding × List FuncDecl) ts :=
  match ts with
  | [] => .error ⟨.structItem, Token.nowhere⟩
  | t :: rest =>
    match t.kind with
    | .symbol .rbrace => .ok (([], []), ⟨rest, less_cons left_rfl⟩)
    | .ident => do
      let (f, ⟨r1, h1⟩) ← field t rest
      let ((fs, ms), ⟨r2, h2⟩) ← structItems r1
      return ((f :: fs, ms), ⟨r2, less_cons ⟨h2.1.trans h1.1, by omega⟩⟩)
    | .keyword .def_ => do
      let (m, ⟨r1, h1⟩) ← funcDecl true rest
      let ((fs, ms), ⟨r2, h2⟩) ← structItems r1
      return ((fs, m :: ms), ⟨r2, less_cons ⟨h2.1.trans h1.1, by omega⟩⟩)
    | _ => .error ⟨.structItem, t⟩
  termination_by 3 * ts.length + 0

/-- A function, after its keyword. -/
def funcDecl (pub : Bool) (ts : List Token) : Parsed FuncDecl ts := do
  let (name, ⟨r1, h1⟩) ← expect .ident .functionName ts
  let (_, ⟨r2, h2⟩) ← expect (.symbol .lparen) .parametersStart r1
  let (ps, ⟨r3, h3⟩) ← params r2
  let (result, ⟨r4, h4⟩) ← typeMark r3
  let (body, ⟨r5, h5⟩) ← block r4
  return (.mk name pub name.text ps result body,
    ⟨r5, h5.1.trans (h4.1.trans (h3.1.trans (h2.1.trans h1.1))), by omega⟩)
  termination_by 3 * ts.length + 0

/-- A conditional, after its keyword. -/
def ifStmt (tok : Token) (ts : List Token) : Parsed IfStmt ts := do
  let (x, ⟨r1, h1⟩) ← expr 0 ts
  let (b, ⟨r2, h2⟩) ← block r1
  match pass (.keyword .else_) r2 with
  | (false, ⟨r3, h3⟩) => return (.mk tok x b .none, ⟨r3, h3.1.trans (h2.1.trans h1.1), by omega⟩)
  | (true, ⟨r3, h3⟩) =>
    match r3, h3 with
    | [], _ => .error ⟨.elseBranch, Token.nowhere⟩
    | next :: r4, h3 =>
      have h4 : r4 <:+ r2 ∧ r4.length < r2.length := ⟨(List.suffix_cons _ _).trans h3.1, h3.2⟩
      match next.kind with
      | .keyword .if_ =>
        let (c, ⟨r5, h5⟩) ← ifStmt next r4
        return (.mk tok x b (.cond c), ⟨r5, h5.1.trans (h4.1.trans (h2.1.trans h1.1)), by omega⟩)
      | .symbol .lbrace =>
        let (c, ⟨r5, h5⟩) ← block (next :: r4)
        return (.mk tok x b (.block c),
          ⟨r5, h5.1.trans (h3.1.trans (h2.1.trans h1.1)),
            by simp only [List.length_cons] at h5; omega⟩)
      | _ => .error ⟨.elseBranch, next⟩
  termination_by 3 * ts.length + 0

/-- The arms of a case up to the closing brace. -/
def caseArms (ts : List Token) : Parsed (List CaseArm) ts :=
  match (peek ts).kind with
  | .symbol .rbrace => do
    let (_, rest) ← expect (.symbol .rbrace) .caseEnd ts
    return ([], rest)
  | .eof => .error ⟨.caseEnd, peek ts⟩
  | _ => do
    let (type, ⟨r1, h1⟩) ← typeName ts
    let (name, ⟨r2, h2⟩) ← expect .ident .armName r1
    let (_, ⟨r3, h3⟩) ← expect (.symbol .arrow) .armArrow r2
    let (s, ⟨r4, h4⟩) ← stmt r3
    let (arms, ⟨r5, h5⟩) ← caseArms r4
    return (.mk name type name.text (armBody s) :: arms,
      ⟨r5, h5.1.trans (h4.1.trans (h3.1.trans (h2.1.trans h1.1))), by omega⟩)
  termination_by 3 * ts.length + 0

end

/-- Statements up to the end marker, after those already read, the last one first. -/
def stmtsOnto (read : List Stmt) (ts : List Token) : Except ParseError (List Stmt) :=
  match ts with
  | [] => .ok read.reverse
  | t :: rest =>
    if t.kind = .eof then .ok read.reverse
    else match stmt (t :: rest) with
      | .error e => .error e
      | .ok (s, ⟨r, h⟩) =>
        have : r.length < rest.length + 1 := h.2
        stmtsOnto (s :: read) r
  termination_by ts.length
  decreasing_by simp only [List.length_cons]; omega

/-- The program that tokens spell. -/
def program (ts : List Token) : Except ParseError Program := do
  return ⟨peek ts, ← stmtsOnto [] ts⟩

end Classwright.Parser
