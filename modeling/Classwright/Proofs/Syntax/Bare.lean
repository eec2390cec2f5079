import Classwright.Syntax.Layout

/-!
Trees without the tokens that only tell where a node stands. What is left of a token is the kind and
text of a literal and the kind of a jump; two trees that agree on it have the same layout.
-/

namespace Classwright

namespace Token

/-- A literal without its place. -/
def bare (t : Token) : Token := ⟨t.kind, t.text, 0, 0⟩

/-- A token of which only the kind is kept. -/
def ofKind (k : Kind) : Token := ⟨k, [], 0, 0⟩

end Token

namespace TypeName

def bare (t : TypeName) : TypeName := { t with tok := Token.nowhere }

@[simp] theorem layout_bare (t : TypeName) : t.bare.layout = t.layout := rfl

end TypeName

namespace TypeRef

def bare (t : TypeRef) : TypeRef := ⟨t.first.bare, t.others.map TypeName.bare⟩

@[simp] theorem layout_bare (t : TypeRef) : t.bare.layout = t.layout := by
  have h : t.bare.members = t.members.map TypeName.bare := rfl
  rw [layout, layout, h, List.map_map]
  rfl

end TypeRef

namespace Binding

def bare (b : Binding) : Binding := ⟨Token.nowhere, b.name, b.type.bare⟩

end Binding

mutual

def Expr.bare : Expr → Expr
  | .literal t => .literal t.bare
  | .ident _ name => .ident Token.nowhere name
  | .unary _ op x => .unary Token.nowhere op x.bare
  | .step _ op x => .step Token.nowhere op x.bare
  | .binary _ op x y => .binary Token.nowhere op x.bare y.bare
  | .assign _ op x y => .assign Token.nowhere op x.bare y.bare
  | .call _ f args => .call Token.nowhere f.bare (Expr.bares args)
  | .property _ x name => .property Token.nowhere x.bare name
  | .construct _ type args => .construct Token.nowhere type.bare (Expr.bares args)
  | .list _ xs => .list Token.nowhere (Expr.bares xs)

def Expr.bares : List Expr → List Expr
  | [] => []
  | x :: xs => x.bare :: Expr.bares xs

end

namespace VarDecl

def bare (d : VarDecl) : VarDecl :=
  ⟨Token.nowhere, d.pub, d.const, d.name, d.type.map TypeRef.bare, d.value.bare⟩

end VarDecl

mutual

def Stmt.bare : Stmt → Stmt
  | .use d => .use { d with tok := Token.nowhere }
  | .func d => .func d.bare
  | .struct d => .struct d.bare
  | .typeAlias d => .typeAlias ⟨Token.nowhere, d.pub, d.name, d.type.bare⟩
  | .var d => .var d.bare
  | .block b => .block b.bare
  | .cond c => .cond c.bare
  | .loop _ x b => .loop Token.nowhere x.bare b.bare
  | .each _ name x b => .each Token.nowhere name x.bare b.bare
  | .case _ x arms => .case Token.nowhere x.bare (CaseArm.bares arms)
  | .ret _ x => .ret Token.nowhere (x.map Expr.bare)
  | .branch t => .branch (Token.ofKind t.kind)
  | .expr x => .expr x.bare

def Stmt.bares : List Stmt → List Stmt
  | [] => []
  | s :: ss => s.bare :: Stmt.bares ss

def Block.bare : Block → Block
  | .mk _ ss => .mk Token.nowhere (Stmt.bares ss)

def FuncDecl.bare : FuncDecl → FuncDecl
  | .mk _ p name params result body =>
    .mk Token.nowhere p name (params.map Binding.bare) (result.map TypeRef.bare) body.bare

def FuncDecl.bares : List FuncDecl → List FuncDecl
  | [] => []
  | f :: fs => f.bare :: FuncDecl.bares fs

def StructDecl.bare : StructDecl → StructDecl
  | .mk _ p name fields methods =>
    .mk Token.nowhere p name (fields.map Binding.bare) (FuncDecl.bares methods)

def IfStmt.bare : IfStmt → IfStmt
  | .mk _ x b e => .mk Token.nowhere x.bare b.bare e.bare

def Else.bare : Else → Else
  | .none => .none
  | .block b => .block b.bare
  | .cond c => .cond c.bare

def CaseArm.bare : CaseArm → CaseArm
  | .mk _ type name body => .mk Token.nowhere type.bare name body.bare

def CaseArm.bares : List CaseArm → List CaseArm
  | [] => []
  | a :: arms => a.bare :: CaseArm.bares arms

end

def Program.bare (p : Program) : Program := ⟨Token.nowhere, Stmt.bares p.stmts⟩

namespace Layout

/-! ### Layout -/

theorem isLoose_bare (x : Expr) : isLoose x.bare = isLoose x := by
  cases x <;> rfl

theorem indexed?_bare (f : Expr) (args : List Expr) :
    indexed? f.bare (Expr.bares args) = indexed? f args := by
  cases f with
  | ident t name =>
    match args with
    | [] => rfl
    | [x] => cases x <;> rfl
    | [x, y] => cases x <;> rfl
    | x :: y :: z :: xs => cases x <;> rfl
  | _ => rfl

mutual

theorem expr_bare (x : Expr) : expr x.bare = expr x :=
  match x with
  | .literal _ => rfl
  | .ident _ _ => rfl
  | .unary _ _ x | .step _ _ x => by
    rw [Expr.bare, expr, expr, parens, parens, isLoose_bare, expr_bare x]
  | .binary _ _ x y => by
    rw [Expr.bare, expr, expr]
    simp only [parens, isLoose_bare, expr_bare x, expr_bare y]
  | .assign _ _ x y => by rw [Expr.bare, expr, expr, expr_bare x, expr_bare y]
  | .call _ f args => by
    rw [Expr.bare, expr, expr, indexed?_bare, lastExpr_bare args, exprs_bare args, parens, parens,
      isLoose_bare, expr_bare f]
  | .property _ x _ => by rw [Expr.bare, expr, expr, parens, parens, isLoose_bare, expr_bare x]
  | .construct _ _ args => by rw [Expr.bare, expr, expr, exprs_bare args, TypeName.layout_bare]
  | .list _ xs => by rw [Expr.bare, expr, expr, exprs_bare xs]

theorem exprs_bare (xs : List Expr) : exprs (Expr.bares xs) = exprs xs :=
  match xs with
  | [] => rfl
  | [x] => by rw [Expr.bares, Expr.bares, exprs, exprs, expr_bare x]
  | x :: y :: ys => by
    change expr x.bare ++ ", " ++ exprs (Expr.bares (y :: ys)) = expr x ++ ", " ++ exprs (y :: ys)
    rw [expr_bare x, exprs_bare (y :: ys)]

theorem lastExpr_bare (xs : List Expr) : lastExpr (Expr.bares xs) = lastExpr xs :=
  match xs with
  | [] => rfl
  | [x] => by rw [Expr.bares, Expr.bares, lastExpr, lastExpr, expr_bare x]
  | x :: y :: ys => by
    change lastExpr (Expr.bares (y :: ys)) = lastExpr (y :: ys)
    exact lastExpr_bare (y :: ys)

end

theorem binding_bare (b : Binding) : binding b.bare = binding b := by
  rw [binding, binding, Binding.bare, TypeRef.layout_bare]

theorem fieldLine_bare (depth : Nat) (b : Binding) : fieldLine depth b.bare = fieldLine depth b := by
  rw [fieldLine, fieldLine, binding_bare]

theorem result_bare (t : Option TypeRef) : result (t.map TypeRef.bare) = result t := by
  cases t with
  | none => rfl
  | some t => rw [Option.map_some, result, result, TypeRef.layout_bare]

theorem varDecl_bare (d : VarDecl) : varDecl d.bare = varDecl d := by
  rw [varDecl, varDecl, VarDecl.bare, result_bare, expr_bare]

theorem map_binding_bare (bs : List Binding) : (bs.map Binding.bare).map binding = bs.map binding := by
  rw [List.map_map]
  exact List.map_congr_left fun b _ => binding_bare b

theorem flatMap_fieldLine_bare (depth : Nat) (bs : List Binding) :
    (bs.map Binding.bare).flatMap (fieldLine depth) = bs.flatMap (fieldLine depth) := by
  rw [List.flatMap_map]
  exact congrArg (bs.flatMap ·) (funext fun b => fieldLine_bare depth b)

theorem pub_bare (d : FuncDecl) : d.bare.pub = d.pub := by
  cases d
  rfl

mutual

theorem stmt_bare (depth : Nat) (s : Stmt) : stmt depth s.bare = stmt depth s :=
  match s with
  | .use _ => rfl
  | .var d => by rw [Stmt.bare, stmt, stmt, varDecl_bare]
  | .func d => by rw [Stmt.bare, stmt, stmt, func_bare depth d.bare.pub d, pub_bare]
  | .struct (.mk _ p name fields methods) => by
    rw [Stmt.bare, StructDecl.bare, stmt, stmt, funcs_bare (depth + 1) methods,
      flatMap_fieldLine_bare]
  | .typeAlias d => by rw [Stmt.bare, stmt, stmt, TypeRef.layout_bare]
  | .block b => by rw [Stmt.bare, stmt, stmt, block_bare depth b]
  | .cond c => by rw [Stmt.bare, stmt, stmt, ifStmt_bare depth c]
  | .loop _ x b | .each _ _ x b => by rw [Stmt.bare, stmt, stmt, expr_bare, block_bare depth b]
  | .case _ x arms => by rw [Stmt.bare, stmt, stmt, expr_bare, caseArms_bare (depth + 1) arms]
  | .ret _ none => rfl
  | .ret _ (some x) => by rw [Stmt.bare, Option.map_some, stmt, stmt, expr_bare]
  | .branch _ => rfl
  | .expr x => by rw [Stmt.bare, stmt, stmt, expr_bare]

theorem stmts_bare (depth : Nat) (ss : List Stmt) : stmts depth (Stmt.bares ss) = stmts depth ss :=
  match ss with
  | [] => rfl
  | s :: ss => by rw [Stmt.bares, stmts, stmts, stmt_bare depth s, stmts_bare depth ss]

theorem block_bare (depth : Nat) (b : Block) : block depth b.bare = block depth b :=
  match b with
  | .mk _ [] => rfl
  | .mk _ (s :: ss) => by
    rw [Block.bare, Stmt.bares, block, block, stmt_bare (depth + 1) s, stmts_bare (depth + 1) ss]

theorem func_bare (depth : Nat) (shown : Bool) (d : FuncDecl) :
    func depth shown d.bare = func depth shown d :=
  match d with
  | .mk _ _ _ params res body => by
    rw [FuncDecl.bare, func, func, result_bare, block_bare depth body, map_binding_bare]

theorem funcs_bare (depth : Nat) (fs : List FuncDecl) :
    funcs depth (FuncDecl.bares fs) = funcs depth fs :=
  match fs with
  | [] => rfl
  | f :: fs => by
    rw [FuncDecl.bares, funcs, funcs, func_bare depth false f, funcs_bare depth fs]

theorem ifStmt_bare (depth : Nat) (c : IfStmt) : ifStmt depth c.bare = ifStmt depth c :=
  match c with
  | .mk _ x b e => by
    rw [IfStmt.bare, ifStmt, ifStmt, expr_bare, block_bare depth b, elseBranch_bare depth e]

theorem elseBranch_bare (depth : Nat) (e : Else) : elseBranch depth e.bare = elseBranch depth e :=
  match e with
  | .none => rfl
  | .block b => by rw [Else.bare, elseBranch, elseBranch, block_bare depth b]
  | .cond c => by rw [Else.bare, elseBranch, elseBranch, ifStmt_bare depth c]

theorem caseArms_bare (depth : Nat) (arms : List CaseArm) :
    caseArms depth (CaseArm.bares arms) = caseArms depth arms :=
  match arms with
  | [] => rfl
  | .mk _ type name body :: arms => by
    rw [CaseArm.bares, CaseArm.bare, caseArms, caseArms, TypeName.layout_bare, block_bare depth body,
      caseArms_bare depth arms]

end

theorem isDecl_bare (s : Stmt) : isDecl s.bare = isDecl s := by
  cases s <;> rfl

theorem flatMap_laterStmt_bare (ss : List Stmt) :
    (Stmt.bares ss).flatMap laterStmt = ss.flatMap laterStmt := by
  induction ss with
  | nil => rfl
  | cons s ss ih =>
    rw [Stmt.bares, List.flatMap_cons, List.flatMap_cons, ih, laterStmt, laterStmt, isDecl_bare,
      stmt_bare]

theorem program_bare (p : Program) : program p.bare = program p := by
  obtain ⟨tok, ss⟩ := p
  cases ss with
  | nil => rfl
  | cons s ss =>
    change stmt 0 s.bare ++ (Stmt.bares ss).flatMap laterStmt = stmt 0 s ++ ss.flatMap laterStmt
    rw [stmt_bare, flatMap_laterStmt_bare]

/-! ### Indentation -/

mutual

theorem stmtIndent_bare (s : Stmt) : stmtIndent s.bare = stmtIndent s :=
  match s with
  | .use _ | .typeAlias _ | .var _ | .ret _ _ | .branch _ | .expr _ => rfl
  | .func (.mk _ _ _ _ _ body) => by
    rw [Stmt.bare, FuncDecl.bare, stmtIndent, stmtIndent, blockIndent_bare body]
  | .struct (.mk _ _ _ fields methods) => by
    have hfields : (fields.map Binding.bare).isEmpty = fields.isEmpty := by cases fields <;> rfl
    have hmethods : (FuncDecl.bares methods).isEmpty = methods.isEmpty := by cases methods <;> rfl
    rw [Stmt.bare, StructDecl.bare, stmtIndent, stmtIndent, funcsIndent_bare methods, hfields,
      hmethods]
  | .block b => by rw [Stmt.bare, stmtIndent, stmtIndent, blockIndent_bare b]
  | .cond c => by rw [Stmt.bare, stmtIndent, stmtIndent, ifIndent_bare c]
  | .loop _ _ b | .each _ _ _ b => by rw [Stmt.bare, stmtIndent, stmtIndent, blockIndent_bare b]
  | .case _ _ [] => rfl
  | .case _ _ (a :: arms) => by
    rw [Stmt.bare, CaseArm.bares, stmtIndent, stmtIndent, armIndent_bare a, armsIndent_bare arms]

theorem stmtsIndent_bare (ss : List Stmt) : stmtsIndent (Stmt.bares ss) = stmtsIndent ss :=
  match ss with
  | [] => rfl
  | s :: ss => by rw [Stmt.bares, stmtsIndent, stmtsIndent, stmtIndent_bare s, stmtsIndent_bare ss]

theorem blockIndent_bare (b : Block) : blockIndent b.bare = blockIndent b :=
  match b with
  | .mk _ [] => rfl
  | .mk _ (s :: ss) => by
    rw [Block.bare, Stmt.bares, blockIndent, blockIndent, stmtIndent_bare s, stmtsIndent_bare ss]

theorem funcsIndent_bare (fs : List FuncDecl) : funcsIndent (FuncDecl.bares fs) = funcsIndent fs :=
  match fs with
  | [] => rfl
  | .mk _ _ _ _ _ body :: fs => by
    rw [FuncDecl.bares, FuncDecl.bare, funcsIndent, funcsIndent, blockIndent_bare body,
      funcsIndent_bare fs]

theorem ifIndent_bare (c : IfStmt) : ifIndent c.bare = ifIndent c :=
  match c with
  | .mk _ _ b e => by rw [IfStmt.bare, ifIndent, ifIndent, blockIndent_bare b, elseIndent_bare e]

theorem elseIndent_bare (e : Else) : elseIndent e.bare = elseIndent e :=
  match e with
  | .none => rfl
  | .block b => by rw [Else.bare, elseIndent, elseIndent, blockIndent_bare b]
  | .cond c => by rw [Else.bare, elseIndent, elseIndent, ifIndent_bare c]

theorem armIndent_bare (a : CaseArm) : armIndent a.bare = armIndent a :=
  match a with
  | .mk _ _ _ body => by rw [CaseArm.bare, armIndent, armIndent, blockIndent_bare body]

theorem armsIndent_bare (arms : List CaseArm) : armsIndent (CaseArm.bares arms) = armsIndent arms :=
  match arms with
  | [] => rfl
  | a :: arms => by rw [CaseArm.bares, armsIndent, armsIndent, armIndent_bare a, armsIndent_bare arms]

end

end Layout

/-- Trees that differ in places only have the same text. -/
theorem Program.format?_of_bare {p q : Program} (h : p.bare = q.bare) : p.format? = q.format? := by
  have hstmts : Stmt.bares p.stmts = Stmt.bares q.stmts := congrArg Program.stmts h
  rw [format?, format?, ← Layout.stmtsIndent_bare, ← Layout.stmtsIndent_bare q.stmts, hstmts,
    ← Layout.program_bare p, ← Layout.program_bare q, h]

end Classwright
