import Classwright.Proofs.Syntax.Precedence
import Classwright.Proofs.Token.Scanning
import Classwright.Syntax.Layout

/-!
Trees whose text can be read back. `Program.isSteady` excludes what the layout of a tree does not
keep apart: an assignment to an assignment, and a statement whose text goes on with that of the next
one. A parsed tree is well formed: its names and literals are words and literals of the source.
-/

namespace Classwright

namespace Layout

/-- The kind of the first token of an operand's text. -/
def leadingOperand (x : Expr) (k : Kind) : Kind := if isLoose x then .symbol .lparen else k

/-- The kind of the first token of an expression's text. -/
def leading : Expr → Kind
  | .literal t => t.kind
  | .ident _ _ => .ident
  | .unary _ op _ => .symbol op.symbol
  | .step _ _ x => leadingOperand x (leading x)
  | .binary _ _ x _ => leadingOperand x (leading x)
  | .assign _ _ x _ => leading x
  | .call _ f args => if (indexed? f args).isSome then .ident else leadingOperand f (leading f)
  | .property _ x _ => leadingOperand x (leading x)
  | .construct _ _ _ => .keyword .new_
  | .list _ _ => .symbol .lbrack

end Layout

/-! ### Steady trees -/

def Expr.isAssign : Expr → Bool
  | .assign .. => true
  | _ => false

mutual

/-- Whether no assignment is the target of another one. -/
def Expr.isSteady : Expr → Bool
  | .literal _ | .ident _ _ => true
  | .unary _ _ x | .step _ _ x | .property _ x _ => x.isSteady
  | .binary _ _ x y => x.isSteady && y.isSteady
  | .assign _ _ x y => !x.isAssign && x.isSteady && y.isSteady
  | .call _ f args => f.isSteady && Expr.areSteady args
  | .construct _ _ args => Expr.areSteady args
  | .list _ xs => Expr.areSteady xs

def Expr.areSteady : List Expr → Bool
  | [] => true
  | x :: xs => x.isSteady && Expr.areSteady xs

end

/-- The last name of a type. -/
def TypeRef.last (t : TypeRef) : TypeName := t.others.getLastD t.first

namespace Stmt

def endsInExpr : Stmt → Bool
  | .var _ | .ret _ (some _) | .expr _ => true
  | _ => false

/-- Whether a statement ends in a type name that brackets may follow. -/
def endsInName : Stmt → Bool
  | .typeAlias d => !d.type.last.list && !d.type.last.nullable
  | _ => false

/-- Whether the text of a statement would be read on into that of the next one: a parenthesis calls
the expression before it, and a bracket makes a list of the type before it. -/
def runsInto (s next : Stmt) : Bool :=
  match next with
  | .expr x =>
    s.endsInExpr && Layout.leading x = .symbol .lparen
      || s.endsInName && Layout.leading x = .symbol .lbrack
  | _ => false

end Stmt

mutual

def Stmt.isSteady : Stmt → Bool
  | .use _ | .typeAlias _ | .branch _ | .ret _ none => true
  | .func d => d.isSteady
  | .struct d => d.isSteady
  | .var d => d.value.isSteady
  | .block b => b.isSteady
  | .cond c => c.isSteady
  | .loop _ x b => x.isSteady && b.isSteady
  | .each _ _ x b => x.isSteady && b.isSteady
  | .case _ x arms => x.isSteady && CaseArm.areSteady arms
  | .ret _ (some x) => x.isSteady
  | .expr x => x.isSteady

/-- Whether statements in a row are steady and none is read on into the next one. -/
def Stmt.areSteady : List Stmt → Bool
  | [] => true
  | s :: ss => s.isSteady && !ss.head?.any s.runsInto && Stmt.areSteady ss

def Block.isSteady : Block → Bool
  | .mk _ ss => Stmt.areSteady ss

def FuncDecl.isSteady : FuncDecl → Bool
  | .mk _ _ _ _ _ body => body.isSteady

def FuncDecl.areSteady : List FuncDecl → Bool
  | [] => true
  | f :: fs => f.isSteady && FuncDecl.areSteady fs

def StructDecl.isSteady : StructDecl → Bool
  | .mk _ _ _ _ methods => FuncDecl.areSteady methods

def IfStmt.isSteady : IfStmt → Bool
  | .mk _ x b e => x.isSteady && b.isSteady && e.isSteady

def Else.isSteady : Else → Bool
  | .none => true
  | .block b => b.isSteady
  | .cond c => c.isSteady

def CaseArm.isSteady : CaseArm → Bool
  | .mk _ _ _ body => body.isSteady

def CaseArm.areSteady : List CaseArm → Bool
  | [] => true
  | a :: arms => a.isSteady && CaseArm.areSteady arms

end

/-- Whether the text of a program can be read back as the same program. -/
def Program.isSteady (p : Program) : Bool := Stmt.areSteady p.stmts

/-! ### Well-formed trees -/

/-- A text that is read as an identifier. -/
def IsName (name : Text) : Prop := Token.Rescans ⟨.ident, name, 0, 0⟩

/-- A name with parts after a separator each. -/
def IsPath (sep path : Text) : Prop :=
  ∃ (first : Text) (parts : List Text),
    IsName first ∧ (∀ p ∈ parts, IsName p) ∧ path = first ++ parts.flatMap (sep ++ ·)

namespace TypeName

def Wf (t : TypeName) : Prop := IsPath "." t.name

end TypeName

namespace TypeRef

def Wf (t : TypeRef) : Prop := ∀ m ∈ t.members, m.Wf

end TypeRef

namespace Binding

structure Wf (b : Binding) : Prop where
  name : IsName b.name
  type : b.type.Wf

end Binding

mutual

def Expr.Wf : Expr → Prop
  | .literal t => Parser.isLiteral t.kind = true ∧ t.Rescans
  | .ident _ name => IsName name
  | .unary _ _ x | .step _ _ x => x.Wf
  | .binary _ _ x y | .assign _ _ x y => x.Wf ∧ y.Wf
  | .call _ f args => f.Wf ∧ Expr.AreWf args
  | .property _ x name => x.Wf ∧ IsName name
  | .construct _ type args => type.Wf ∧ Expr.AreWf args
  | .list _ xs => Expr.AreWf xs

def Expr.AreWf : List Expr → Prop
  | [] => True
  | x :: xs => x.Wf ∧ Expr.AreWf xs

end

/-- An expression whose text can be read back. -/
structure Expr.Sound (x : Expr) : Prop where
  wf : x.Wf
  steady : x.isSteady = true

/-- Statements that follow each other are read apart. -/
structure Stmt.Apart (s next : Stmt) : Prop where
  expr : s.endsInExpr = true → ∀ x, next = .expr x →
    Parser.Continuation.ofKind? (Layout.leading x) = none
  name : s.endsInName = true → ∀ x, next = .expr x → Layout.leading x ≠ .symbol .lbrack

mutual

/-- A statement whose text can be read back. -/
def Stmt.Sound : Stmt → Prop
  | .use d => IsPath "/" d.path
  | .func d => d.Sound
  | .struct d => d.Sound
  | .typeAlias d => IsName d.name ∧ d.type.Wf
  | .var d => IsName d.name ∧ (∀ t, d.type = some t → t.Wf) ∧ d.value.Sound
  | .block b => b.Sound
  | .cond c => c.Sound
  | .loop _ x b => x.Sound ∧ b.Sound
  | .each _ name x b => IsName name ∧ x.Sound ∧ b.Sound
  | .case _ x arms => x.Sound ∧ CaseArm.AreSound arms
  | .ret _ value => ∀ x, value = some x → x.Sound
  | .branch t => t.kind = .keyword .break_ ∨ t.kind = .keyword .continue_
  | .expr x => x.Sound

def Stmt.AreSound : List Stmt → Prop
  | [] => True
  | s :: ss => s.Sound ∧ (∀ next ∈ ss.head?, s.Apart next) ∧ Stmt.AreSound ss

def Block.Sound : Block → Prop
  | .mk _ ss => Stmt.AreSound ss

def FuncDecl.Sound : FuncDecl → Prop
  | .mk _ _ name params result body =>
    IsName name ∧ (∀ b ∈ params, b.Wf) ∧ (∀ t, result = some t → t.Wf) ∧ body.Sound

/-- Methods, which are public. -/
def FuncDecl.AreSound : List FuncDecl → Prop
  | [] => True
  | f :: fs => f.pub = true ∧ f.Sound ∧ FuncDecl.AreSound fs

def StructDecl.Sound : StructDecl → Prop
  | .mk _ _ name fields methods =>
    IsName name ∧ (∀ b ∈ fields, b.Wf) ∧ FuncDecl.AreSound methods

def IfStmt.Sound : IfStmt → Prop
  | .mk _ x b e => x.Sound ∧ b.Sound ∧ e.Sound

def Else.Sound : Else → Prop
  | .none => True
  | .block b => b.Sound
  | .cond c => c.Sound

def CaseArm.Sound : CaseArm → Prop
  | .mk _ type name body => type.Wf ∧ IsName name ∧ body.Sound

def CaseArm.AreSound : List CaseArm → Prop
  | [] => True
  | a :: arms => a.Sound ∧ CaseArm.AreSound arms

end

end Classwright
