import Classwright.Syntax

/-!
Where the nodes of a syntax tree are: each of its tokens is at a place, a line and a column.
-/

namespace Classwright

/-! ### Trees -/

/-- A token is at one of some places, each a line and a column. -/
def Token.At (P : Int → Int → Prop) (t : Token) : Prop := P t.line t.col

def TypeName.At (P : Int → Int → Prop) (n : TypeName) : Prop := n.tok.At P

def TypeRef.At (P : Int → Int → Prop) (r : TypeRef) : Prop := ∀ n ∈ r.members, n.At P

structure Binding.At (P : Int → Int → Prop) (b : Binding) : Prop where
  tok : b.tok.At P
  type : b.type.At P

mutual

/-- All tokens of an expression are at places. -/
def Expr.At (P : Int → Int → Prop) : Expr → Prop
  | .literal t | .ident t _ => t.At P
  | .unary t _ x | .step t _ x | .property t x _ => t.At P ∧ x.At P
  | .binary t _ x y | .assign t _ x y => t.At P ∧ x.At P ∧ y.At P
  | .call t f xs => t.At P ∧ f.At P ∧ Expr.AllAt P xs
  | .construct t type xs => t.At P ∧ type.At P ∧ Expr.AllAt P xs
  | .list t xs => t.At P ∧ Expr.AllAt P xs

def Expr.AllAt (P : Int → Int → Prop) : List Expr → Prop
  | [] => True
  | x :: xs => x.At P ∧ Expr.AllAt P xs

end

structure VarDecl.At (P : Int → Int → Prop) (d : VarDecl) : Prop where
  tok : d.tok.At P
  type : ∀ r, d.type = some r → r.At P
  value : d.value.At P

mutual

/-- All tokens of a statement are at places. -/
def Stmt.At (P : Int → Int → Prop) : Stmt → Prop
  | .use d => d.tok.At P
  | .func d => d.At P
  | .struct d => d.At P
  | .typeAlias d => d.tok.At P ∧ d.type.At P
  | .var d => d.At P
  | .block b => b.At P
  | .cond c => c.At P
  | .loop t x b | .each t _ x b => t.At P ∧ x.At P ∧ b.At P
  | .case t x arms => t.At P ∧ x.At P ∧ CaseArm.AllAt P arms
  | .ret t value => t.At P ∧ ∀ x, value = some x → x.At P
  | .branch t => t.At P
  | .expr x => x.At P

def Block.At (P : Int → Int → Prop) : Block → Prop
  | .mk t ss => t.At P ∧ Stmt.AllAt P ss

def FuncDecl.At (P : Int → Int → Prop) : FuncDecl → Prop
  | .mk t _ _ ps result body =>
    t.At P ∧ (∀ p ∈ ps, p.At P) ∧ (∀ r, result = some r → r.At P) ∧ body.At P

def StructDecl.At (P : Int → Int → Prop) : StructDecl → Prop
  | .mk t _ _ fs ms => t.At P ∧ (∀ f ∈ fs, f.At P) ∧ FuncDecl.AllAt P ms

def IfStmt.At (P : Int → Int → Prop) : IfStmt → Prop
  | .mk t x b e => t.At P ∧ x.At P ∧ b.At P ∧ e.At P

def Else.At (P : Int → Int → Prop) : Else → Prop
  | .none => True
  | .block b => b.At P
  | .cond c => c.At P

def CaseArm.At (P : Int → Int → Prop) : CaseArm → Prop
  | .mk t type _ b => t.At P ∧ type.At P ∧ b.At P

def Stmt.AllAt (P : Int → Int → Prop) : List Stmt → Prop
  | [] => True
  | s :: ss => s.At P ∧ Stmt.AllAt P ss

def FuncDecl.AllAt (P : Int → Int → Prop) : List FuncDecl → Prop
  | [] => True
  | d :: ds => d.At P ∧ FuncDecl.AllAt P ds

def CaseArm.AllAt (P : Int → Int → Prop) : List CaseArm → Prop
  | [] => True
  | a :: as => a.At P ∧ CaseArm.AllAt P as

end

section
variable {P : Int → Int → Prop}

theorem Expr.allAt_iff : Expr.AllAt P xs ↔ ∀ x ∈ xs, x.At P := by
  induction xs with
  | nil => exact iff_of_true trivial (List.forall_mem_nil _)
  | cons x xs ih => rw [Expr.AllAt, ih, List.forall_mem_cons]

theorem FuncDecl.allAt_iff : FuncDecl.AllAt P ds ↔ ∀ d ∈ ds, d.At P := by
  induction ds with
  | nil => exact iff_of_true trivial (List.forall_mem_nil _)
  | cons d ds ih => rw [FuncDecl.AllAt, ih, List.forall_mem_cons]

/-- The token of a tree is one of its tokens. -/
theorem Expr.At.tok {x : Expr} (h : x.At P) : x.tok.At P := by
  cases x <;> rw [Expr.At] at h <;> first | exact h | exact h.1

theorem FuncDecl.at_iff {d : FuncDecl} : d.At P ↔ d.tok.At P ∧ (∀ p ∈ d.params, p.At P) ∧
    (∀ r, d.result = some r → r.At P) ∧ Stmt.AllAt P d.body.stmts ∧ d.body.tok.At P := by
  cases d with
  | mk t pub name ps result body =>
    cases body with
    | mk u ss =>
      rw [FuncDecl.At, Block.At, and_comm (a := u.At P)]
      rfl

theorem StructDecl.at_iff {d : StructDecl} : d.At P ↔ d.tok.At P ∧ (∀ f ∈ d.fields, f.At P) ∧
    ∀ m ∈ d.methods, m.At P := by
  cases d with
  | mk t pub name fs ms =>
    rw [StructDecl.At, FuncDecl.allAt_iff]
    rfl

theorem CaseArm.At.type {a : CaseArm} (h : a.At P) : a.type.At P := by
  cases a with
  | mk => exact h.2.1

theorem Stmt.At.tok {s : Stmt} (h : s.At P) : s.tok.At P := by
  cases s with
  | use d => exact h
  | func d => exact (FuncDecl.at_iff.1 h).1
  | struct d => exact (StructDecl.at_iff.1 h).1
  | var d => exact VarDecl.At.tok h
  | block b =>
    cases b with
    | mk => exact h.1
  | cond c =>
    cases c with
    | mk => exact h.1
  | expr x => exact Expr.At.tok h
  | branch t => exact h
  | _ => exact h.1

end

/-! #### Places without a condition -/

mutual

theorem Expr.at_true (x : Expr) : x.At fun _ _ => True := by
  cases x <;> simp only [Expr.At, Token.At, TypeName.At, Expr.at_true, Expr.allAt_true, and_self]

theorem Expr.allAt_true (xs : List Expr) : Expr.AllAt (fun _ _ => True) xs := by
  cases xs with
  | nil => exact trivial
  | cons x xs => exact ⟨x.at_true, Expr.allAt_true xs⟩

end

theorem TypeRef.at_true (r : TypeRef) : r.At fun _ _ => True := fun _ _ => trivial

theorem Binding.at_true (b : Binding) : b.At fun _ _ => True := ⟨trivial, b.type.at_true⟩

theorem VarDecl.at_true (d : VarDecl) : d.At fun _ _ => True :=
  ⟨trivial, fun r _ => r.at_true, d.value.at_true⟩

mutual

theorem Stmt.at_true (s : Stmt) : s.At fun _ _ => True := by
  cases s <;> simp only [Stmt.At, Token.At, TypeRef.at_true, VarDecl.at_true, Expr.at_true, Block.at_true,
    FuncDecl.at_true, StructDecl.at_true, IfStmt.at_true, CaseArm.allAt_true, implies_true, and_self]

theorem Block.at_true (b : Block) : b.At fun _ _ => True := by
  cases b with
  | mk _ ss => exact ⟨trivial, Stmt.allAt_true ss⟩

theorem FuncDecl.at_true (d : FuncDecl) : d.At fun _ _ => True := by
  cases d with
  | mk _ _ _ ps result body => exact ⟨trivial, fun p _ => p.at_true, fun r _ => r.at_true, body.at_true⟩

theorem StructDecl.at_true (d : StructDecl) : d.At fun _ _ => True := by
  cases d with
  | mk _ _ _ fs ms => exact ⟨trivial, fun f _ => f.at_true, FuncDecl.allAt_true ms⟩

theorem IfStmt.at_true (c : IfStmt) : c.At fun _ _ => True := by
  cases c with
  | mk _ x b e => exact ⟨trivial, x.at_true, b.at_true, e.at_true⟩

theorem Else.at_true (e : Else) : e.At fun _ _ => True := by
  cases e with
  | none => exact trivial
  | block b => exact b.at_true
  | cond c => exact c.at_true

theorem CaseArm.at_true (a : CaseArm) : a.At fun _ _ => True := by
  cases a with
  | mk _ _ _ b => exact ⟨trivial, trivial, b.at_true⟩

theorem Stmt.allAt_true (ss : List Stmt) : Stmt.AllAt (fun _ _ => True) ss := by
  cases ss with
  | nil => exact trivial
  | cons s ss => exact ⟨s.at_true, Stmt.allAt_true ss⟩

theorem FuncDecl.allAt_true (ds : List FuncDecl) : FuncDecl.AllAt (fun _ _ => True) ds := by
  cases ds with
  | nil => exact trivial
  | cons d ds => exact ⟨d.at_true, FuncDecl.allAt_true ds⟩

theorem CaseArm.allAt_true (arms : List CaseArm) : CaseArm.AllAt (fun _ _ => True) arms := by
  cases arms with
  | nil => exact trivial
  | cons a arms => exact ⟨a.at_true, CaseArm.allAt_true arms⟩

end

end Classwright
