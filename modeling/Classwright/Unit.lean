import Classwright.Body.Stmt
import Classwright.Path

/-!
From a program to its classes. Types are declared first, since fields and signatures may refer to
any of them; then functions and the fields and methods of structs; then the code is written, top
level code before functions, so that they see its variables.
-/

namespace Classwright

namespace Program

/-- Whether a program has anything besides types and imports; only then has it a main class. -/
def hasMain (p : Program) : Bool :=
  p.stmts.any fun s =>
    match s with
    | .struct _ | .typeAlias _ | .use _ => false
    | _ => true

end Program

/-- What is fixed for a source: the package of its classes and the modules that it may use. -/
structure UnitOptions where
  package : Text := []
  modules : Option Config := none

namespace ClassUnit

/-- A name inside a package. -/
def qualify (package name : Text) : Text :=
  if package.isEmpty then name else package ++ "/" ++ name

/-- The internal name of the class for the top level code of a file. -/
def mainClass (package file : Text) : Text :=
  qualify package ((Path.base file).takeWhile (· != ascii '.') ++ "ixc")

/-! ### Declarations -/

/-- What a program declares. -/
structure Declared where
  env : Env
  functions : List DeclaredFunction := []
  exports : Registry := {}

/-- Declares the names of structs. -/
def declareNames (package : Text) (env : Env) : List Stmt → Compiled Env
  | [] => .ok env
  | .struct d :: ss =>
    if env.isType d.name then refuse d.tok (.typeDefined d.name)
    else
      let s : StructType := { name := d.name, cls := qualify package d.name }
      declareNames package { env with structs := env.structs ++ [s] } ss
  | _ :: ss => declareNames package env ss

/-- Declares other names for types; each may use those before. -/
def declareAliases (env : Env) : List Stmt → Compiled Env
  | [] => .ok env
  | .typeAlias d :: ss => do
    if env.isType d.name then refuse d.tok (.typeDefined d.name)
    let t ← env.typeRef d.type
    if t.isVoid then refuse d.tok (.voidAlias d.name)
    declareAliases { env with aliases := env.aliases ++ [(d.name, t)] } ss
  | _ :: ss => declareAliases env ss

/-- The struct with the fields that are declared in it. -/
def declareFields (env : Env) (s : StructType) : List Binding → Compiled StructType
  | [] => .ok s
  | f :: fs => do
    let t ← env.typeRef f.type
    if t.isVoid then refuse f.tok (.voidField f.name)
    if (s.field? f.name).isSome then refuse f.tok (.fieldDefined f.name s.name)
    let v : Var := { name := f.name, kind := .field, type := t, owner := s.cls, tok := f.tok }
    declareFields env { s with fields := s.fields ++ [v] } fs

/-- The struct with the methods that are declared in it. -/
def declareMethods (env : Env) (s : StructType) : List FuncDecl → Compiled StructType
  | [] => .ok s
  | d :: ds => do
    let sig ← env.signature d
    let f : Function :=
      { dispatch := .virtual, name := d.name, owner := s.cls, sig := sig, isLocal := true }
    match s.methods.add f with
    | .error _ => refuse d.tok (.functionDefined d.name sig)
    | .ok methods =>
      declareMethods env { s with methods := methods, declared := s.declared ++ [⟨d, f⟩] } ds

/-- Declares the fields and methods of a struct. -/
def declareStruct (env : Env) (d : StructDecl) : Compiled Env := do
  match env.structNamed? d.name with
  | none => return env
  | some s =>
    let s ← declareFields env s d.fields
    let s ← declareMethods env s d.methods
    return { env with structs := env.structs.map fun t => if t.name = s.name then s else t }

/-- Declares a function of the main class. -/
def declareFunction (d : Declared) (decl : FuncDecl) : Compiled Declared := do
  let sig ← d.env.signature decl
  let f : Function := {
    dispatch := .static, name := decl.name, owner := d.env.mainClass, sig := sig, isLocal := true }
  match d.env.funcs.add f with
  | .error _ => refuse decl.tok (.functionDefined decl.name sig)
  | .ok funcs =>
    let exports := if decl.pub then (d.exports.addAll [{ f with isLocal := false }]).1 else d.exports
    return ⟨{ d.env with funcs := funcs }, d.functions ++ [⟨decl, f⟩], exports⟩

/-- Imports a module. -/
def importModule (modules : Option Config) (env : Env) (d : UseDecl) : Compiled Env :=
  match modules with
  | none => refuse d.tok (.noImports d.path)
  | some c =>
    match c.importModule env.funcs d.path with
    | (_, some e) => refuse d.tok (.badImport d.path e)
    | (funcs, none) => .ok { env with funcs := funcs }

/-- Declares what a statement declares besides types. -/
def declareMember (modules : Option Config) (d : Declared) : Stmt → Compiled Declared
  | .use u => do return { d with env := ← importModule modules d.env u }
  | .struct s => do return { d with env := ← declareStruct d.env s }
  | .func f => declareFunction d f
  | _ => .ok d

/-- Declares what statements declare besides types, in their order. -/
def declareMembers (modules : Option Config) (d : Declared) : List Stmt → Compiled Declared
  | [] => .ok d
  | s :: ss => do
    let d ← declareMember modules d s
    declareMembers modules d ss

/-! ### Methods -/

/-- A finished method of a class, which is not added to it yet. -/
def finish (c : ClassFile) (access : Access) (name desc : Text) (b : Body) :
    Compiled (Method × ClassFile) :=
  let locals := (b.scopes.frame.map (·.max)).getD 0
  match ClassFile.build access name desc b.code locals c.pool with
  | (.error e, _) => .error (.within (c.name ++ "." ++ name) (.build e))
  | (.ok m, p) => .ok (m, { c with pool := p })

/-- Adds a finished method to a class. -/
def addMethod (c : ClassFile) (access : Access) (name desc : Text) (b : Body) :
    Compiled ClassFile := do
  let (m, c) ← finish c access name desc b
  return { c with methods := c.methods.push m }

/-- The scope of the fields of a struct around that of a method. -/
def fieldScope (globals : List Var) (s : StructType) : Scopes :=
  s.fields.foldl (fun scopes v =>
    match scopes.declare v with
    | .ok (_, scopes) => scopes
    | .error _ => scopes) (Scopes.push { vars := [globals] })

/-- Declares parameters as locals. -/
def declareParams (env : Env) : List Binding → List Ty → Gen Unit
  | [], _ | _, [] => return
  | p :: ps, t :: ts => do
    discard (Gen.declare env p.tok p.name t false)
    declareParams env ps ts

/-- The code of a declared function. -/
def functionBody (env : Env) (f : DeclaredFunction) : Gen Unit := do
  let result := f.fn.sig.result
  declareParams env f.decl.params f.fn.sig.ins
  Gen.stmts env f.decl.body.stmts
  if ← Gen.isReachable then
    if !result.isVoid then Gen.refuse f.decl.tok .missingResult
    Gen.edit (·.ret .void)

/-- Adds a declared function to a class, as a method of the struct at hand if there is one. -/
def addFunction (env : Env) (globals : List Var) (c : ClassFile) (f : DeclaredFunction) :
    Compiled ClassFile :=
  let scopes : Scopes := match env.self with
    | none => { vars := [globals] }
    | some s => fieldScope globals s
  let start : Body := { scopes := scopes.enter env.self.isNone (some f.fn.sig.result) }
  let access :=
    if env.self.isNone then Access.pub ||| Access.static ||| Access.final else Access.pub
  let added := do
    let (_, b) ← (functionBody env f).run start
    addMethod c access f.fn.name f.fn.sig.descriptor b
  match added with
  | .error e => .error (.within ("func " ++ f.decl.name) e)
  | .ok c => .ok c

def addFunctions (env : Env) (globals : List Var) (c : ClassFile) :
    List DeclaredFunction → Compiled ClassFile
  | [] => .ok c
  | f :: fs => do
    let c ← addFunction env globals c f
    addFunctions env globals c fs

/-! ### Structs -/

/-- Stores parameters into the fields of the object in slot zero. -/
def initFields (s : StructType) : List Var → Gen Unit
  | [] => return
  | f :: fs => do
    let slot ← Gen.alloc f.type
    Gen.edit (·.load s.type 0)
    Gen.edit (·.load f.type slot)
    Gen.field .putfield s.cls f
    initFields s fs

/-- The code of the constructor. -/
def constructorBody (s : StructType) : Gen Unit := do
  Gen.edit (·.load s.type 0)
  Gen.invoke .invokespecial ClassFile.root "<init>" "()V"
  initFields s s.fields
  Gen.edit (·.ret .void)

/-- A class without methods, made from a file. -/
def newClass (file name : Text) : ClassFile :=
  { ClassFile.create name [] (Access.pub ||| Access.super) with sourceFile := file }

/-- The class of a struct. -/
def structClass (env : Env) (file : Text) (globals : List Var) (s : StructType) :
    Compiled ClassFile := do
  let c := newClass file s.cls
  let c := s.fields.foldl (fun c f => c.addField ⟨Access.pub, f.name, f.type.descriptor⟩) c
  let start : Body := { scopes := Scopes.enter { vars := [globals] } false (some .void) }
  let (_, b) ← (constructorBody s).run start
  let c ← addMethod c Access.pub "<init>" s.constructor.descriptor b
  addFunctions { env with self := some s } globals c s.declared

def structClasses (env : Env) (file : Text) (globals : List Var) :
    List StructType → Compiled (List ClassFile)
  | [] => .ok []
  | s :: ss => do
    let c ← structClass env file globals s
    return c :: (← structClasses env file globals ss)

/-! ### The main class -/

/-- The top level code. -/
def topLevelBody (env : Env) : List Stmt → Gen Unit
  | [] => return
  | s :: ss => do
    match s with
    | .func _ | .struct _ | .typeAlias _ | .use _ => pure ()
    | s => Gen.stmt env s
    topLevelBody env ss

/-- The main class with the fields of top level variables, those variables, and the class
initializer if there is code for it. -/
def initializer (env : Env) (c : ClassFile) (ss : List Stmt) :
    Compiled (ClassFile × List Var × Option Method) := do
  let start : Body := { scopes := { frame := some { isStatic := true, result := some .void } } }
  let (_, b) ← (topLevelBody { env with topLevel := true } ss).run start
  let c := { c with fields := b.globals }
  let globals := b.scopes.vars.headD []
  if b.code.instrs.isEmpty then return (c, globals, none)
  let b := { b with code := b.code.ret .void }
  let (m, c) ← finish c Access.static "<clinit>" "()V" b
  return (c, globals, some m)

/-- Adds the entry point of the machine, if the program has a `main` of its own for it to call. -/
def addEntry (env : Env) (c : ClassFile) : Compiled ClassFile := do
  match env.funcs.findExact? "main" [] with
  | none => return c
  | some f =>
    if !f.isLocal || f.owner ≠ c.name || !f.sig.result.isVoid then return c
    let start : Body := { scopes := { frame := some { isStatic := true, result := some .void } } }
    let body : Gen Unit := do
      discard (Gen.alloc .object)
      Gen.invoke .invokestatic f.owner f.name f.sig.descriptor
      Gen.edit (·.ret .void)
    let (_, b) ← body.run start
    addMethod c (Access.pub ||| Access.static) "main" "([Ljava/lang/String;)V" b

/-- The classes of a program with a main class: that one and those of its structs. -/
def classesWithMain (d : Declared) (file : Text) (p : Program) : Compiled (List ClassFile) := do
  let main := newClass file d.env.mainClass
  let (main, globals, init) ← initializer d.env main p.stmts
  let structs ← structClasses d.env file globals d.env.structs
  let main ← addFunctions d.env globals main d.functions
  let main ← addEntry d.env main
  let main := match init with
    | some m => { main with methods := main.methods.push m }
    | none => main
  return main :: structs

/-- The classes of a program, and the functions that other sources may call. -/
def ofProgram (options : UnitOptions) (funcs : Registry) (file : Text) (p : Program) :
    Compiled (ClassUnit × Registry) := do
  let funcs ← match Registry.empty.merge funcs with
    | (funcs, none) => pure funcs
    | (_, some e) => throw (.within "registry" (.conflict e))
  let name := mainClass options.package file
  let env ← declareNames options.package { mainClass := name, funcs := funcs } p.stmts
  let env ← declareAliases env p.stmts
  let d ← declareMembers options.modules { env := env } p.stmts
  let source := Path.base file
  let classes ←
    if p.hasMain then classesWithMain d source p else structClasses d.env source [] d.env.structs
  return (⟨name, classes⟩, d.exports)

end ClassUnit

end Classwright
