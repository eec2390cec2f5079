import Classwright.Token

/-!
Syntax trees. Every node keeps the token that messages about it point at. An index access `a[i]` is
the call `at(a, i)`; a case arm whose body is a single statement holds a block of that statement.
-/

namespace Classwright

inductive UnaryOp where
  | plus | minus | percent | not
  deriving DecidableEq, Repr

inductive BinaryOp where
  | or | and | xor | range | eq | ne | lt | gt | le | ge | add | sub | mod | mul | div | pow
  deriving DecidableEq, Repr

/-- Plain and compound assignment. -/
inductive AssignOp where
  | plain | add | sub | mul | div | mod
  deriving DecidableEq, Repr

/-- The operators written after their operand. -/
inductive StepOp where
  | inc | dec
  deriving DecidableEq, Repr

namespace UnaryOp

def symbol : UnaryOp → Symbol
  | plus => .add
  | minus => .sub
  | percent => .mod
  | not => .not

end UnaryOp

namespace BinaryOp

def symbol : BinaryOp → Symbol
  | or => .or
  | and => .and
  | xor => .xor
  | range => .range
  | eq => .eq
  | ne => .ne
  | lt => .lt
  | gt => .gt
  | le => .le
  | ge => .ge
  | add => .add
  | sub => .sub
  | mod => .mod
  | mul => .mul
  | div => .div
  | pow => .pow

end BinaryOp

namespace AssignOp

def symbol : AssignOp → Symbol
  | plain => .assign
  | add => .addAssign
  | sub => .subAssign
  | mul => .mulAssign
  | div => .divAssign
  | mod => .modAssign

/-- The operator that a compound assignment applies. -/
def operator? : AssignOp → Option BinaryOp
  | plain => none
  | add => some .add
  | sub => some .sub
  | mul => some .mul
  | div => some .div
  | mod => some .mod

end AssignOp

namespace StepOp

def symbol : StepOp → Symbol
  | inc => .inc
  | dec => .dec

end StepOp

/-- A type name with dots, `[]` after a list's and `?` after that of a nullable. -/
structure TypeName where
  tok : Token
  name : Text
  list : Bool
  nullable : Bool
  deriving DecidableEq, Repr

/-- A type as it is written: one name, or the alternatives of a union. -/
structure TypeRef where
  first : TypeName
  others : List TypeName
  deriving DecidableEq, Repr

namespace TypeRef

def tok (t : TypeRef) : Token := t.first.tok

def members (t : TypeRef) : List TypeName := t.first :: t.others

end TypeRef

inductive Expr where
  | literal (tok : Token)
  | ident (tok : Token) (name : Text)
  | unary (tok : Token) (op : UnaryOp) (x : Expr)
  | step (tok : Token) (op : StepOp) (x : Expr)
  | binary (tok : Token) (op : BinaryOp) (left right : Expr)
  | assign (tok : Token) (op : AssignOp) (target value : Expr)
  | call (tok : Token) (callee : Expr) (args : List Expr)
  | property (tok : Token) (x : Expr) (name : Text)
  | construct (tok : Token) (type : TypeName) (args : List Expr)
  | list (tok : Token) (elems : List Expr)
  deriving Repr, Inhabited

namespace Expr

def tok : Expr → Token
  | literal t | ident t _ | unary t _ _ | step t _ _ | binary t _ _ _ | assign t _ _ _
  | call t _ _ | property t _ _ | construct t _ _ | list t _ => t

/-- The name of the function that index access calls. -/
def indexName : Text := "at"

end Expr

/-- A parameter or a field. -/
structure Binding where
  tok : Token
  name : Text
  type : TypeRef
  deriving DecidableEq, Repr

structure UseDecl where
  tok : Token
  path : Text
  deriving DecidableEq, Repr

structure AliasDecl where
  tok : Token
  pub : Bool
  name : Text
  type : TypeRef
  deriving DecidableEq, Repr

structure VarDecl where
  tok : Token
  pub : Bool
  const : Bool
  name : Text
  type : Option TypeRef
  value : Expr
  deriving Repr

mutual

inductive Stmt where
  | use (d : UseDecl)
  | func (d : FuncDecl)
  | struct (d : StructDecl)
  | typeAlias (d : AliasDecl)
  | var (d : VarDecl)
  | block (b : Block)
  | cond (c : IfStmt)
  | loop (tok : Token) (cond : Expr) (body : Block)
  | each (tok : Token) (var : Text) (iter : Expr) (body : Block)
  | case (tok : Token) (x : Expr) (arms : List CaseArm)
  | ret (tok : Token) (value : Option Expr)
  /-- Leaves a loop or starts its next round, as the token says. -/
  | branch (tok : Token)
  | expr (x : Expr)

inductive Block where
  | mk (tok : Token) (stmts : List Stmt)

inductive FuncDecl where
  | mk (tok : Token) (pub : Bool) (name : Text) (params : List Binding) (result : Option TypeRef)
    (body : Block)

inductive StructDecl where
  | mk (tok : Token) (pub : Bool) (name : Text) (fields : List Binding) (methods : List FuncDecl)

inductive IfStmt where
  | mk (tok : Token) (cond : Expr) (then_ : Block) (else_ : Else)

inductive Else where
  | none
  | block (b : Block)
  | cond (c : IfStmt)

inductive CaseArm where
  | mk (tok : Token) (type : TypeName) (name : Text) (body : Block)

end

namespace Block

def tok : Block → Token
  | mk t _ => t

def stmts : Block → List Stmt
  | mk _ ss => ss

end Block

namespace FuncDecl

def tok : FuncDecl → Token
  | mk t _ _ _ _ _ => t

def pub : FuncDecl → Bool
  | mk _ p _ _ _ _ => p

def name : FuncDecl → Text
  | mk _ _ n _ _ _ => n

def params : FuncDecl → List Binding
  | mk _ _ _ ps _ _ => ps

def result : FuncDecl → Option TypeRef
  | mk _ _ _ _ r _ => r

def body : FuncDecl → Block
  | mk _ _ _ _ _ b => b

end FuncDecl

namespace StructDecl

def tok : StructDecl → Token
  | mk t _ _ _ _ => t

def pub : StructDecl → Bool
  | mk _ p _ _ _ => p

def name : StructDecl → Text
  | mk _ _ n _ _ => n

def fields : StructDecl → List Binding
  | mk _ _ _ fs _ => fs

def methods : StructDecl → List FuncDecl
  | mk _ _ _ _ ms => ms

end StructDecl

namespace IfStmt

def tok : IfStmt → Token
  | mk t _ _ _ => t

end IfStmt

namespace CaseArm

def tok : CaseArm → Token
  | mk t _ _ _ => t

def type : CaseArm → TypeName
  | mk _ t _ _ => t

def name : CaseArm → Text
  | mk _ _ n _ => n

def body : CaseArm → Block
  | mk _ _ _ b => b

end CaseArm

namespace Stmt

def tok : Stmt → Token
  | use d => d.tok
  | func d => d.tok
  | struct d => d.tok
  | typeAlias d => d.tok
  | var d => d.tok
  | block b => b.tok
  | cond c => c.tok
  | loop t _ _ | each t _ _ _ | case t _ _ | ret t _ | branch t => t
  | expr x => x.tok

end Stmt

/-- A whole source; its token is the first one of the source. -/
structure Program where
  tok : Token
  stmts : List Stmt

end Classwright
