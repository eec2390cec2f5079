import Classwright.Syntax

/-!
Source text of syntax trees. A statement stands on lines of its own, indented by one tab for each
block around it; an operand that binds looser than a name or a call stands in parentheses, so the
text reads back as the same tree. A tree is laid out only if it needs at most `maxIndent` tabs.
-/

namespace Classwright

def TypeName.layout (t : TypeName) : Text :=
  t.name ++ (if t.list then "[]" else "") ++ (if t.nullable then "?" else "")

def TypeRef.layout (t : TypeRef) : Text := Text.join " | " (t.members.map TypeName.layout)

namespace Layout

/-- Whether an expression needs parentheses as an operand. -/
def isLoose : Expr → Bool
  | .binary .. | .assign .. | .unary .. | .step .. | .construct .. => true
  | _ => false

def parens (x : Expr) (t : Text) : Text := if isLoose x then "(" ++ t ++ ")" else t

def operator (op : BinaryOp) : Text :=
  match op with
  | .range => op.symbol.spelling
  | _ => " " ++ op.symbol.spelling ++ " "

/-- The name of the list and the place of the index in the arguments of an index access. -/
def indexed? : Expr → List Expr → Option Text
  | .ident _ f, [.ident _ name, _] => if f = Expr.indexName then some name else none
  | _, _ => none

mutual

def expr : Expr → Text
  | .literal t => t.text
  | .ident _ name => name
  | .unary _ op x => op.symbol.spelling ++ parens x (expr x)
  | .step _ op x => parens x (expr x) ++ op.symbol.spelling
  | .binary _ op x y => parens x (expr x) ++ operator op ++ parens y (expr y)
  | .assign _ op x y => expr x ++ " " ++ op.symbol.spelling ++ " " ++ expr y
  | .call _ f args =>
    match indexed? f args with
    | some name => name ++ "[" ++ lastExpr args ++ "]"
    | none => parens f (expr f) ++ "(" ++ exprs args ++ ")"
  | .property _ x name => parens x (expr x) ++ "." ++ name
  | .construct _ type args => "new " ++ type.layout ++ "(" ++ exprs args ++ ")"
  | .list _ xs => "[" ++ exprs xs ++ "]"

/-- Expressions with commas between them. -/
def exprs : List Expr → Text
  | [] => []
  | [x] => expr x
  | x :: xs => expr x ++ ", " ++ exprs xs

def lastExpr : List Expr → Text
  | [] => []
  | [x] => expr x
  | _ :: xs => lastExpr xs

end

def tabs (depth : Nat) : Text := List.replicate depth (ascii '\t')

def pub (p : Bool) : Text := if p then "pub " else ""

def binding (b : Binding) : Text := b.name ++ ": " ++ b.type.layout

def fieldLine (depth : Nat) (b : Binding) : Text := tabs depth ++ binding b ++ "\n"

def result : Option TypeRef → Text
  | none => []
  | some t => ": " ++ t.layout

def varDecl (d : VarDecl) : Text :=
  pub d.pub ++ (if d.const then "const " else "var ") ++ d.name ++ result d.type ++ " = "
    ++ expr d.value ++ "\n"

mutual

/-- The lines of a statement below `depth` blocks. -/
def stmt (depth : Nat) : Stmt → Text
  | .use d => tabs depth ++ "use <" ++ d.path ++ ">\n"
  | .var d => tabs depth ++ varDecl d
  | .func d => func depth d.pub d
  | .struct (.mk _ p name fields methods) =>
    tabs depth ++ pub p ++ "type " ++ name ++ " = struct \x7b\n"
      ++ fields.flatMap (fieldLine (depth + 1))
      ++ funcs (depth + 1) methods ++ tabs depth ++ "\x7d\n"
  | .typeAlias d => tabs depth ++ pub d.pub ++ "type " ++ d.name ++ " = " ++ d.type.layout ++ "\n"
  | .block b => tabs depth ++ block depth b ++ "\n"
  | .cond c => tabs depth ++ ifStmt depth c ++ "\n"
  | .loop _ x b => tabs depth ++ "while " ++ expr x ++ " " ++ block depth b ++ "\n"
  | .each _ name x b =>
    tabs depth ++ "for " ++ name ++ " : " ++ expr x ++ " " ++ block depth b ++ "\n"
  | .case _ x arms =>
    tabs depth ++ "case " ++ expr x ++ " \x7b\n" ++ caseArms (depth + 1) arms ++ tabs depth
      ++ "\x7d\n"
  | .ret _ none => tabs depth ++ "return\n"
  | .ret _ (some x) => tabs depth ++ "return " ++ expr x ++ "\n"
  | .branch t => tabs depth ++ t.kind.name ++ "\n"
  | .expr x => tabs depth ++ expr x ++ "\n"

def stmts (depth : Nat) : List Stmt → Text
  | [] => []
  | s :: ss => stmt depth s ++ stmts depth ss

/-- A block in braces, from the opening brace on. -/
def block (depth : Nat) : Block → Text
  | .mk _ [] => "\x7b\x7d"
  | .mk _ (s :: ss) => "\x7b\n" ++ stmt (depth + 1) s ++ stmts (depth + 1) ss ++ tabs depth ++ "\x7d"

def func (depth : Nat) (shown : Bool) : FuncDecl → Text
  | .mk _ _ name params res body =>
    tabs depth ++ pub shown ++ "def " ++ name ++ "(" ++ Text.join ", " (params.map binding) ++ ")"
      ++ result res ++ " " ++ block depth body ++ "\n"

/-- Methods, each after an empty line. They are public without saying so. -/
def funcs (depth : Nat) : List FuncDecl → Text
  | [] => []
  | f :: fs => "\n" ++ func depth false f ++ funcs depth fs

def ifStmt (depth : Nat) : IfStmt → Text
  | .mk _ x b e => "if " ++ expr x ++ " " ++ block depth b ++ elseBranch depth e

def elseBranch (depth : Nat) : Else → Text
  | .none => []
  | .block b => " else " ++ block depth b
  | .cond c => " else " ++ ifStmt depth c

def caseArms (depth : Nat) : List CaseArm → Text
  | [] => []
  | .mk _ type name body :: arms =>
    tabs depth ++ type.layout ++ " " ++ name ++ " => " ++ block depth body ++ "\n"
      ++ caseArms depth arms

end

/-- Whether a statement of a program has an empty line before it. -/
def isDecl : Stmt → Bool
  | .func _ | .struct _ => true
  | _ => false

/-- A statement of a program after the first one. -/
def laterStmt (s : Stmt) : Text := (if isDecl s then "\n" else "") ++ stmt 0 s

/-- A program: an empty line stands before each function and struct but the first statement. -/
def program (p : Program) : Text :=
  match p.stmts with
  | [] => []
  | s :: ss => stmt 0 s ++ ss.flatMap laterStmt

/-! ### Indentation -/

mutual

/-- The number of tabs that the lines of a statement need beyond those of its first line. -/
def stmtIndent : Stmt → Nat
  | .func (.mk _ _ _ _ _ body) => blockIndent body
  | .struct (.mk _ _ _ fields methods) =>
    if fields.isEmpty && methods.isEmpty then 0 else 1 + funcsIndent methods
  | .block b => blockIndent b
  | .cond c => ifIndent c
  | .loop _ _ b => blockIndent b
  | .each _ _ _ b => blockIndent b
  | .case _ _ [] => 0
  | .case _ _ (a :: arms) => 1 + max (armIndent a) (armsIndent arms)
  | .use _ | .typeAlias _ | .var _ | .ret _ _ | .branch _ | .expr _ => 0

def stmtsIndent : List Stmt → Nat
  | [] => 0
  | s :: ss => max (stmtIndent s) (stmtsIndent ss)

def blockIndent : Block → Nat
  | .mk _ [] => 0
  | .mk _ (s :: ss) => 1 + max (stmtIndent s) (stmtsIndent ss)

def funcsIndent : List FuncDecl → Nat
  | [] => 0
  | .mk _ _ _ _ _ body :: fs => max (blockIndent body) (funcsIndent fs)

def ifIndent : IfStmt → Nat
  | .mk _ _ b e => max (blockIndent b) (elseIndent e)

def elseIndent : Else → Nat
  | .none => 0
  | .block b => blockIndent b
  | .cond c => ifIndent c

def armIndent : CaseArm → Nat
  | .mk _ _ _ body => blockIndent body

def armsIndent : List CaseArm → Nat
  | [] => 0
  | a :: arms => max (armIndent a) (armsIndent arms)

end

/-- The most tabs that a line may start with. -/
def maxIndent : Nat := 15

end Layout

/-- The source text of a program, unless it is nested too deep. -/
def Program.format? (p : Program) : Option Text :=
  if Layout.stmtsIndent p.stmts ≤ Layout.maxIndent then some (Layout.program p) else none

/-- The source text of a statement, unless it is nested too deep. -/
def Stmt.format? (s : Stmt) : Option Text :=
  if Layout.stmtIndent s ≤ Layout.maxIndent then some (Layout.stmt 0 s) else none

end Classwright
