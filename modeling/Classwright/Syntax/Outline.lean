import Classwright.Syntax

/-!
The outline of a syntax tree: its nodes with their kinds and tokens, types left out. Walking it
gives the nodes depth first, a node before its children.
-/

namespace Classwright

inductive NodeKind where
  | program | use | param | field | funcDecl | structDecl | typeAlias | varDecl | block | ifStmt
  | whileStmt | forStmt | caseStmt | caseArm | returnStmt | branch | exprStmt | literal | ident
  | unary | step | binary | assign | call | property | construct | list | typeRef
  deriving DecidableEq, Repr

namespace NodeKind

def name : NodeKind → Text
  | program => "Program"
  | use => "Use"
  | param => "Param"
  | field => "Field"
  | funcDecl => "FuncDecl"
  | structDecl => "StructDecl"
  | typeAlias => "TypeAlias"
  | varDecl => "VarDecl"
  | block => "Block"
  | ifStmt => "If"
  | whileStmt => "While"
  | forStmt => "For"
  | caseStmt => "Case"
  | caseArm => "CaseArm"
  | returnStmt => "Return"
  | branch => "Branch"
  | exprStmt => "ExprStmt"
  | literal => "Literal"
  | ident => "Ident"
  | unary => "Unary"
  | step => "Postfix"
  | binary => "Binary"
  | assign => "Assign"
  | call => "Call"
  | property => "Property"
  | construct => "New"
  | list => "List"
  | typeRef => "TypeRef"

end NodeKind

inductive Outline where
  | node (kind : NodeKind) (tok : Token) (children : List Outline)

namespace Outline

mutual

/-- The nodes from the root on; below a node that is not `entered` nothing is visited. -/
def visit (entered : NodeKind → Bool) : Outline → List (NodeKind × Token)
  | node kind tok children =>
    (kind, tok) :: if entered kind then visitAll entered children else []

def visitAll (entered : NodeKind → Bool) : List Outline → List (NodeKind × Token)
  | [] => []
  | o :: os => o.visit entered ++ visitAll entered os

end

/-- The outline of a parameter or a field. -/
def ofBinding (kind : NodeKind) (b : Binding) : Outline := node kind b.tok []

mutual

def ofExpr : Expr → Outline
  | .literal t => node .literal t []
  | .ident t _ => node .ident t []
  | .unary t _ x => node .unary t [ofExpr x]
  | .step t _ x => node .step t [ofExpr x]
  | .binary t _ x y => node .binary t [ofExpr x, ofExpr y]
  | .assign t _ x y => node .assign t [ofExpr x, ofExpr y]
  | .call t f args => node .call t (ofExpr f :: ofExprs args)
  | .property t x _ => node .property t [ofExpr x]
  | .construct t _ args => node .construct t (ofExprs args)
  | .list t xs => node .list t (ofExprs xs)

def ofExprs : List Expr → List Outline
  | [] => []
  | x :: xs => ofExpr x :: ofExprs xs

end

mutual

def ofStmt : Stmt → Outline
  | .use d => node .use d.tok []
  | .func d => ofFunc d
  | .struct (.mk tok _ _ fields methods) =>
    node .structDecl tok (fields.map (ofBinding .field) ++ ofFuncs methods)
  | .typeAlias d => node .typeAlias d.tok []
  | .var d => node .varDecl d.tok [ofExpr d.value]
  | .block b => ofBlock b
  | .cond c => ofIf c
  | .loop t x b => node .whileStmt t [ofExpr x, ofBlock b]
  | .each t _ x b => node .forStmt t [ofExpr x, ofBlock b]
  | .case t x arms => node .caseStmt t (ofExpr x :: ofArms arms)
  | .ret t none => node .returnStmt t []
  | .ret t (some x) => node .returnStmt t [ofExpr x]
  | .branch t => node .branch t []
  | .expr x => node .exprStmt x.tok [ofExpr x]

def ofStmts : List Stmt → List Outline
  | [] => []
  | s :: ss => ofStmt s :: ofStmts ss

def ofBlock : Block → Outline
  | .mk t ss => node .block t (ofStmts ss)

def ofFunc : FuncDecl → Outline
  | .mk t _ _ params _ body => node .funcDecl t (params.map (ofBinding .param) ++ [ofBlock body])

def ofFuncs : List FuncDecl → List Outline
  | [] => []
  | f :: fs => ofFunc f :: ofFuncs fs

def ofIf : IfStmt → Outline
  | .mk t x b e => node .ifStmt t (ofExpr x :: ofBlock b :: ofElse e)

def ofElse : Else → List Outline
  | .none => []
  | .block b => [ofBlock b]
  | .cond c => [ofIf c]

def ofArms : List CaseArm → List Outline
  | [] => []
  | .mk t _ _ body :: arms => node .caseArm t [ofBlock body] :: ofArms arms

end

def ofProgram (p : Program) : Outline := node .program p.tok (ofStmts p.stmts)

def ofTypeRef (t : TypeRef) : Outline := node .typeRef t.tok []

end Outline

end Classwright
