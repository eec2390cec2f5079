import Classwright.Syntax

/-!
Programs in which assignments declare variables only as statements of their own: everywhere else they
assign to properties, or to names that are declared at that point (`Program.isSettled`). The weight
of a syntax tree is the number of its nodes.
-/

namespace Classwright

namespace Expr

mutual

/-- The number of nodes of an expression. -/
def weight : Expr → Nat
  | literal _ | ident _ _ => 1
  | unary _ _ x | step _ _ x | property _ x _ => x.weight + 1
  | binary _ _ x y | assign _ _ x y => x.weight + y.weight + 1
  | call _ callee args => callee.weight + weights args + 1
  | construct _ _ args | list _ args => weights args + 1

def weights : List Expr → Nat
  | [] => 0
  | x :: xs => x.weight + weights xs

end

/-- The name that an assignment to an expression may declare. -/
def names : Expr → List Text
  | ident _ name => [name]
  | _ => []

mutual

/-- The names that an expression assigns to. -/
def targets : Expr → List Text
  | literal _ | ident _ _ => []
  | unary _ _ x | step _ _ x | property _ x _ => x.targets
  | binary _ _ x y => x.targets ++ y.targets
  | assign _ _ target value => target.names ++ (target.targets ++ value.targets)
  | call _ callee args => callee.targets ++ allTargets args
  | construct _ _ args | list _ args => allTargets args

def allTargets : List Expr → List Text
  | [] => []
  | x :: xs => x.targets ++ allTargets xs

end

theorem mem_allTargets :
    name ∈ allTargets xs ↔ ∃ x ∈ xs, name ∈ x.targets := by
  induction xs with
  | nil => simp [allTargets]
  | cons x xs ih => simp [allTargets, ih]

mutual

/-- Whether every assignment to a name is to one that is known. -/
def isClosed (known : List Text) : Expr → Bool
  | literal _ | ident _ _ => true
  | unary _ _ x | step _ _ x | property _ x _ => x.isClosed known
  | binary _ _ x y => x.isClosed known && y.isClosed known
  | assign _ _ (ident _ name) value => known.contains name && value.isClosed known
  | assign _ _ target value => target.isClosed known && value.isClosed known
  | call _ callee args => callee.isClosed known && areClosed known args
  | construct _ _ args | list _ args => areClosed known args

def areClosed (known : List Text) : List Expr → Bool
  | [] => true
  | x :: xs => x.isClosed known && areClosed known xs

end

/-- Whether an expression that is a statement of its own assigns to known names only, but for the one
that it may declare itself. -/
def isSettled (known : List Text) : Expr → Bool
  | assign _ _ (ident _ _) value => value.isClosed known
  | x => x.isClosed known

theorem weight_pos (x : Expr) : 0 < x.weight := by
  cases x <;> simp [weight]

theorem weight_le_weights (h : x ∈ xs) : x.weight ≤ weights xs := by
  induction xs with
  | nil => cases h
  | cons y ys ih =>
    rw [weights]
    rcases List.mem_cons.1 h with rfl | h
    · omega
    · have := ih h
      omega

theorem isClosed_of_mem
    (hxs : areClosed known xs = true) (h : x ∈ xs) : x.isClosed known = true := by
  induction xs with
  | nil => cases h
  | cons y ys ih =>
    rw [areClosed, Bool.and_eq_true] at hxs
    rcases List.mem_cons.1 h with rfl | h
    · exact hxs.1
    · exact ih hxs.2 h

end Expr

/-! ### Statements -/

/-- The names that a statement declares in the scope where it stands. -/
def Stmt.declares : Stmt → List Text
  | .expr (.assign _ _ (.ident _ name) _) => [name]
  | .var d => [d.name]
  | _ => []

mutual

/-- The number of nodes of a statement. -/
def Stmt.weight : Stmt → Nat
  | .expr x => x.weight + 1
  | .var d => d.value.weight + 1
  | .block b => b.weight + 1
  | .cond c => c.weight + 1
  | .loop _ x body => x.weight + body.weight + 1
  | .each _ _ iter body => iter.weight + body.weight + 1
  | .case _ x arms => x.weight + CaseArm.weights arms + 1
  | .ret _ (some x) => x.weight + 1
  | .func d => d.weight + 1
  | .struct d => d.weight + 1
  | .ret _ none | .branch _ | .use _ | .typeAlias _ => 1

def Block.weight : Block → Nat
  | .mk _ ss => Stmt.weights ss + 1

def FuncDecl.weight : FuncDecl → Nat
  | .mk _ _ _ ps _ body => ps.length + body.weight + 1

def StructDecl.weight : StructDecl → Nat
  | .mk _ _ _ fields methods => fields.length + FuncDecl.weights methods + 1

def IfStmt.weight : IfStmt → Nat
  | .mk _ x body other => x.weight + body.weight + other.weight + 1

def Else.weight : Else → Nat
  | .none => 0
  | .block b => b.weight
  | .cond c => c.weight

def CaseArm.weight : CaseArm → Nat
  | .mk _ _ _ body => body.weight + 1

def Stmt.weights : List Stmt → Nat
  | [] => 0
  | s :: ss => s.weight + Stmt.weights ss

def FuncDecl.weights : List FuncDecl → Nat
  | [] => 0
  | d :: ds => d.weight + FuncDecl.weights ds

def CaseArm.weights : List CaseArm → Nat
  | [] => 0
  | a :: as => a.weight + CaseArm.weights as

end

mutual

/-- Whether assignments declare variables only as statements of their own, where some names are
known already. -/
def Stmt.isSettled (known : List Text) : Stmt → Bool
  | .expr x => x.isSettled known
  | .var d => d.value.isClosed known
  | .block b => b.isSettled known
  | .cond c => c.isSettled known
  | .loop _ x body => x.isClosed known && body.isSettled known
  | .each _ name (.binary _ .range first last) body =>
    first.isClosed known && last.isClosed (name :: known) && body.isSettled (name :: known)
  | .each _ name iter body => iter.isClosed known && body.isSettled (name :: known)
  | .case _ x arms => x.isClosed known && CaseArm.areSettled known arms
  | .ret _ (some x) => x.isClosed known
  | .ret _ none | .branch _ | .func _ | .struct _ | .typeAlias _ | .use _ => true

def Block.isSettled (known : List Text) : Block → Bool
  | .mk _ ss => Stmt.areSettled known ss

def IfStmt.isSettled (known : List Text) : IfStmt → Bool
  | .mk _ x body other => x.isClosed known && body.isSettled known && other.isSettled known

def Else.isSettled (known : List Text) : Else → Bool
  | .none => true
  | .block b => b.isSettled known
  | .cond c => c.isSettled known

def CaseArm.isSettled (known : List Text) : CaseArm → Bool
  | .mk _ _ name body => body.isSettled (name :: known)

/-- Statements in turn; each knows the names that those before it have declared. -/
def Stmt.areSettled (known : List Text) : List Stmt → Bool
  | [] => true
  | s :: ss => s.isSettled known && Stmt.areSettled (s.declares ++ known) ss

def CaseArm.areSettled (known : List Text) : List CaseArm → Bool
  | [] => true
  | a :: as => a.isSettled known && CaseArm.areSettled known as

end

/-- A function knows its parameters, and some names from around it. -/
def FuncDecl.isSettled (known : List Text) (d : FuncDecl) : Bool :=
  Stmt.areSettled (d.params.map (·.name) ++ known) d.body.stmts

/-! ### Programs -/

namespace Program

/-- The names of the variables that top level code declares outside all blocks. -/
def globals (p : Program) : List Text := p.stmts.flatMap Stmt.declares

def weight (p : Program) : Nat := Stmt.weights p.stmts

/-- Whether assignments declare variables only as statements of their own. Functions know the
variables of top level code, and methods the fields of their struct too. -/
def isSettled (p : Program) : Bool :=
  Stmt.areSettled [] p.stmts && p.stmts.all fun s =>
    match s with
    | .func d => d.isSettled p.globals
    | .struct d => d.methods.all (·.isSettled (d.fields.map (·.name) ++ p.globals))
    | _ => true

end Program

end Classwright
