import Classwright.Proofs.Unit.Declarations

/-!
The methods of the classes of a program, and the bodies they are made from. Every method of every
class is made from one of a few kinds of bodies (`ClassUnit.Written`, `ClassUnit.written_of_ofProgram`),
so what holds of those bodies holds of all methods.
-/

namespace Classwright

/-- An environment outside of methods, loops and top level code. -/
structure Env.IsOuter (env : Env) : Prop where
  self : env.self = none
  topLevel : env.topLevel = false
  loops : env.loops = []

namespace ClassUnit

/-- The body that the class initializer and the entry point start from. -/
def staticStart : Body := { scopes := { frame := some { isStatic := true, result := some .void } } }

/-- The body that a function or a method starts from. -/
def functionStart (env : Env) (globals : List Var) (f : DeclaredFunction) : Body :=
  let scopes : Scopes := match env.self with
    | none => { vars := [globals] }
    | some s => fieldScope globals s
  { scopes := scopes.enter env.self.isNone (some f.fn.sig.result) }

/-- The body that a constructor starts from. -/
def constructorStart (globals : List Var) : Body :=
  { scopes := Scopes.enter { vars := [globals] } false (some .void) }

/-- The code of the entry point. -/
def entryBody (f : Function) : Gen Unit := do
  discard (Gen.alloc .object)
  Gen.invoke .invokestatic f.owner f.name f.sig.descriptor
  Gen.edit (·.ret .void)

/-- The variables of top level code that functions see, of which there are none without a main
class. -/
inductive Globals (d : Declared) (p : Program) : List Var → Prop
  | none : p.hasMain = false → Globals d p []
  | main {b : Body} : p.hasMain = true →
    topLevelBody { d.env with topLevel := true } p.stmts staticStart = .ok ((), b) →
    Globals d p (b.scopes.vars.headD [])

/-- The bodies of the methods of a program, with the access, name and descriptor of each. -/
inductive Written (d : Declared) (p : Program) : Access → Text → Text → Body → Prop
  | initializer {b : Body} : p.hasMain = true →
    topLevelBody { d.env with topLevel := true } p.stmts staticStart = .ok ((), b) →
    Written d p Access.static "<clinit>" "()V" { b with code := b.code.ret .void }
  | function {b : Body} : Globals d p globals → f ∈ d.functions →
    functionBody d.env f (functionStart d.env globals f) = .ok ((), b) →
    Written d p (Access.pub ||| Access.static ||| Access.final) f.fn.name f.fn.sig.descriptor b
  | method {b : Body} : Globals d p globals → s ∈ d.env.structs → f ∈ s.declared →
    functionBody { d.env with self := some s } f
      (functionStart { d.env with self := some s } globals f) = .ok ((), b) →
    Written d p Access.pub f.fn.name f.fn.sig.descriptor b
  | constructor {b : Body} : Globals d p globals → s ∈ d.env.structs →
    constructorBody s (constructorStart globals) = .ok ((), b) →
    Written d p Access.pub "<init>" s.constructor.descriptor b
  | entry {b : Body} : d.env.funcs.findExact? "main" [] = some f → f.sig.result.isVoid = true →
    entryBody f staticStart = .ok ((), b) →
    Written d p (Access.pub ||| Access.static) "main" "([Ljava/lang/String;)V" b

/-- The number of slots for the local variables of a body. -/
def locals (b : Body) : Int := (b.scopes.frame.map (·.max)).getD 0

/-- A method is what its body is built to. -/
def Makes (b : Body) (m : Method) : Prop :=
  ∃ p p', ClassFile.build m.access m.name m.desc b.code (locals b) p = (.ok m, p')

/-- The methods of a class are made from bodies of a kind. -/
def IsMade (W : Access → Text → Text → Body → Prop) (c : ClassFile) : Prop :=
  ∀ m ∈ c.methods, ∃ b, W m.access m.name m.desc b ∧ Makes b m

/-- The methods of a class are made from bodies of the program. -/
def IsWritten (d : Declared) (p : Program) (c : ClassFile) : Prop := IsMade (Written d p) c

/-- The bodies of methods besides the class initializer, which is the only one with its access. -/
def Ordinary (d : Declared) (p : Program) (access : Access) (name desc : Text) (b : Body) : Prop :=
  access ≠ Access.static ∧ Written d p access name desc b

variable {d : Declared} {p : Program} {env : Env} {c c' : ClassFile} {b : Body} {globals : List Var}
  {file : Text} {W : Access → Text → Text → Body → Prop}

theorem isWritten_of_isMade (h : IsMade (Ordinary d p) c) : IsWritten d p c := by
  intro m hm
  obtain ⟨b, hb, hmakes⟩ := h m hm
  exact ⟨b, hb.2, hmakes⟩

/-! ### Adding methods -/

/-- A method of the given access, name and descriptor that is made from a body. -/
structure IsMethod (access : Access) (name desc : Text) (b : Body) (m : Method) : Prop where
  access : m.access = access
  name : m.name = name
  desc : m.desc = desc
  makes : Makes b m

/-- The method of a declared function. -/
def IsFunction (env : Env) (globals : List Var) (f : DeclaredFunction) (m : Method) : Prop :=
  ∃ b, functionBody env f (functionStart env globals f) = .ok ((), b) ∧
    IsMethod (if env.self.isNone then Access.pub ||| Access.static ||| Access.final else Access.pub)
      f.fn.name f.fn.sig.descriptor b m

/-- A class with further methods. -/
structure Extends (c : ClassFile) (ms : List Method) (c' : ClassFile) : Prop where
  name : c'.name = c.name
  fields : c'.fields = c.fields
  methods : c'.methods.toList = c.methods.toList ++ ms

theorem IsMethod.exists_body {access : Access} {name desc : Text}
    (h : IsMethod access name desc b m) (hb : W access name desc b) :
    ∃ b, W m.access m.name m.desc b ∧ Makes b m := by
  obtain ⟨rfl, rfl, rfl, hmakes⟩ := h
  exact ⟨b, hb, hmakes⟩

theorem Extends.refl (c : ClassFile) : Extends c [] c := ⟨rfl, rfl, (List.append_nil _).symm⟩

theorem Extends.trans (h : Extends c ms c₁)
    (h' : Extends c₁ ms' c') : Extends c (ms ++ ms') c' := by
  refine ⟨h'.name.trans h.name, h'.fields.trans h.fields, ?_⟩
  rw [h'.methods, h.methods, List.append_assoc]

theorem of_build
    (h : ClassFile.build access name desc b.code (locals b) q = (.ok m, q')) :
    IsMethod access name desc b m := by
  have hbuild := h
  unfold ClassFile.build at h
  dsimp only at h
  split at h
  · cases h
  · split at h
    · cases h
    · split at h
      · cases h
      · cases h
        exact ⟨rfl, rfl, rfl, _, _, hbuild⟩

theorem of_finish
    (h : finish c access name desc b = .ok (m, c')) :
    IsMethod access name desc b m ∧ ∃ q, c' = { c with pool := q } := by
  unfold finish at h
  dsimp only at h
  split at h
  · cases h
  · next hbuild =>
    cases h
    exact ⟨of_build hbuild, _, rfl⟩

theorem of_addMethod
    (h : addMethod c access name desc b = .ok c') :
    ∃ m, IsMethod access name desc b m ∧ Extends c [m] c' := by
  obtain ⟨⟨m, c₁⟩, hfinish, h⟩ := bind_eq_ok h
  cases h
  obtain ⟨hm, q, rfl⟩ := of_finish hfinish
  exact ⟨m, hm, rfl, rfl, Array.toList_push⟩

theorem of_addFunction (h : addFunction env globals c f = .ok c') :
    ∃ m, IsFunction env globals f m ∧ Extends c [m] c' := by
  unfold addFunction at h
  dsimp only at h
  split at h
  · cases h
  · next hadded =>
    cases h
    obtain ⟨⟨⟨⟩, b⟩, hb, hc⟩ := bind_eq_ok hadded
    obtain ⟨m, hm, hext⟩ := of_addMethod hc
    exact ⟨m, ⟨b, hb, hm⟩, hext⟩

theorem of_addFunctions (h : addFunctions env globals c fs = .ok c') :
    ∃ ms, List.Forall₂ (IsFunction env globals) fs ms ∧ Extends c ms c' := by
  induction fs generalizing c with
  | nil =>
    cases h
    exact ⟨[], .nil, .refl _⟩
  | cons f fs ih =>
    rw [addFunctions] at h
    obtain ⟨c₁, hc₁, h⟩ := bind_eq_ok h
    obtain ⟨m, hm, hext⟩ := of_addFunction hc₁
    obtain ⟨ms, hms, hrest⟩ := ih h
    exact ⟨m :: ms, .cons hm hms, hext.trans hrest⟩

/-! ### Structs -/

/-- The class of a struct: its fields, the constructor and the methods. -/
structure IsStruct (env : Env) (globals : List Var) (s : StructType) (c : ClassFile) : Prop where
  name : c.name = s.cls
  fields : c.fields.toList = s.fields.map fun f => ⟨Access.pub, f.name, f.type.descriptor⟩
  methods : ∃ b m ms, c.methods.toList = m :: ms ∧
    constructorBody s (constructorStart globals) = .ok ((), b) ∧
    IsMethod Access.pub "<init>" s.constructor.descriptor b m ∧
    List.Forall₂ (IsFunction { env with self := some s } globals) s.declared ms

theorem addFields_eq (fs : List Var) (c : ClassFile) :
    fs.foldl (fun c f => c.addField ⟨Access.pub, f.name, f.type.descriptor⟩) c =
      { c with fields := c.fields ++
          (fs.map fun f => (⟨Access.pub, f.name, f.type.descriptor⟩ : Field)).toArray } := by
  induction fs generalizing c with
  | nil => simp
  | cons f fs ih => rw [List.foldl_cons, ih]; simp [ClassFile.addField]

theorem of_structClass (h : structClass env file globals s = .ok c) :
    IsStruct env globals s c := by
  obtain ⟨⟨⟨⟩, b⟩, hb, h⟩ := bind_eq_ok h
  obtain ⟨c₁, hc₁, h⟩ := bind_eq_ok h
  rw [addFields_eq] at hc₁
  obtain ⟨m, hm, hext₁⟩ := of_addMethod hc₁
  obtain ⟨ms, hms, hext⟩ := of_addFunctions h
  have hall := hext₁.trans hext
  refine ⟨hall.name, ?_, b, m, ms, hall.methods, hb, hm, hms⟩
  rw [hall.fields]
  simp [newClass, ClassFile.create]

theorem of_structClasses
    (h : structClasses env file globals ss = .ok cs) : List.Forall₂ (IsStruct env globals) ss cs := by
  induction ss generalizing cs with
  | nil =>
    cases h
    exact .nil
  | cons s ss ih =>
    rw [structClasses] at h
    obtain ⟨c, hc, h⟩ := bind_eq_ok h
    obtain ⟨cs', hcs', h⟩ := bind_eq_ok h
    cases h
    exact .cons (of_structClass hc) (ih hcs')

theorem IsStruct.isMade (h : IsStruct d.env globals s c) (hg : Globals d p globals)
    (hs : s ∈ d.env.structs) : IsMade (Ordinary d p) c := by
  obtain ⟨b, m, ms, hmethods, hb, hm, hms⟩ := h.methods
  intro m' hm'
  rw [← Array.mem_toList_iff, hmethods] at hm'
  rcases List.mem_cons.1 hm' with rfl | hm'
  · exact hm.exists_body ⟨by decide, .constructor hg hs hb⟩
  · obtain ⟨f, hf, b, hb, hm'⟩ := exists_of_forall₂ hms hm'
    exact hm'.exists_body ⟨show Access.pub ≠ Access.static by decide, .method hg hs hf hb⟩

/-! ### The main class -/

/-- Top level code is that of its statements besides functions, types and imports. -/
theorem topLevelBody_cons (env : Env) (s : Stmt) (ss : List Stmt) :
    topLevelBody env (s :: ss) = topLevelBody env ss ∨
      topLevelBody env (s :: ss) = Gen.stmt env s >>= fun _ => topLevelBody env ss := by
  cases s with
  | func _ | struct _ | typeAlias _ | use _ =>
    rw [topLevelBody]
    exact .inl rfl
  | _ =>
    rw [topLevelBody]
    · exact .inr rfl
    all_goals exact fun _ => Stmt.noConfusion

/-- The class initializer is made from top level code, unless there is none. -/
inductive IsInitializer (b : Body) : Option Method → Prop
  | none : b.code.instrs.isEmpty = true → IsInitializer b none
  | some {m : Method} : IsMethod Access.static "<clinit>" "()V" { b with code := b.code.ret .void } m →
    IsInitializer b (some m)

/-- A function that the entry point of a class calls. -/
structure IsCalled (env : Env) (cls : Text) (f : Function) : Prop where
  found : env.funcs.findExact? "main" [] = some f
  isLocal : f.isLocal = true
  owner : f.owner = cls
  isVoid : f.sig.result.isVoid = true

/-- The entry point of a class, if there is a function for it to call. -/
inductive IsEntry (env : Env) (cls : Text) : Option Method → Prop
  | none : (∀ f, ¬ IsCalled env cls f) → IsEntry env cls none
  | some {f : Function} {b : Body} {m : Method} : IsCalled env cls f →
    entryBody f staticStart = .ok ((), b) →
    IsMethod (Access.pub ||| Access.static) "main" "([Ljava/lang/String;)V" b m →
    IsEntry env cls (some m)

/-- The main class without its initializer: the fields of top level code, the functions and the entry
point. -/
structure IsMain (d : Declared) (b : Body) (c : ClassFile) : Prop where
  name : c.name = d.env.mainClass
  fields : c.fields = b.globals
  methods : ∃ ms entry, c.methods.toList = ms ++ entry.toList ∧
    List.Forall₂ (IsFunction d.env (b.scopes.vars.headD [])) d.functions ms ∧
    IsEntry d.env d.env.mainClass entry

/-- A class with its initializer. -/
def withInitializer (c : ClassFile) : Option Method → ClassFile
  | none => c
  | some m => { c with methods := c.methods.push m }

theorem extends_withInitializer (c : ClassFile) (init : Option Method) :
    Extends c init.toList (withInitializer c init) := by
  cases init with
  | none => exact .refl c
  | some m => exact ⟨rfl, rfl, Array.toList_push⟩

/-- What the class initializer leaves: the variables of top level code, and a method if there is
code. -/
theorem of_initializer
    (h : initializer env c ss = .ok (c', globals, init)) :
    ∃ b q, topLevelBody { env with topLevel := true } ss staticStart = .ok ((), b) ∧
      globals = b.scopes.vars.headD [] ∧ c' = { c with fields := b.globals, pool := q } ∧
      IsInitializer b init := by
  obtain ⟨⟨⟨⟩, b⟩, hb, h⟩ := bind_eq_ok h
  dsimp only at h
  split at h
  · next hempty =>
    cases h
    exact ⟨b, _, hb, rfl, rfl, .none hempty⟩
  · obtain ⟨⟨m, c₁⟩, hfinish, h⟩ := bind_eq_ok h
    cases h
    obtain ⟨hm, q, rfl⟩ := of_finish hfinish
    exact ⟨b, q, hb, rfl, rfl, .some hm⟩

theorem globals_of_initializer (hmain : p.hasMain = true)
    (h : initializer d.env c p.stmts = .ok (c', globals, init)) : Globals d p globals := by
  obtain ⟨b, q, hb, rfl, -⟩ := of_initializer h
  exact .main hmain hb

theorem of_addEntry (h : addEntry env c = .ok c') :
    ∃ entry, IsEntry env c.name entry ∧ Extends c entry.toList c' := by
  unfold addEntry at h
  split at h
  · next hfound =>
    cases h
    refine ⟨none, .none fun f hf => ?_, .refl c⟩
    cases hfound.symm.trans hf.found
  · next f hfound =>
    split at h
    · next hcond =>
      cases h
      refine ⟨none, .none fun g hg => ?_, .refl c⟩
      cases hfound.symm.trans hg.found
      simp [hg.isLocal, hg.owner, hg.isVoid] at hcond
    · next hcond =>
      obtain ⟨⟨⟨⟩, b⟩, hb, h⟩ := bind_eq_ok h
      obtain ⟨m, hm, hext⟩ := of_addMethod h
      simp only [Bool.or_eq_true, Bool.not_eq_true', decide_eq_true_eq, not_or, Bool.not_eq_false,
        Decidable.not_not] at hcond
      obtain ⟨⟨hlocal, howner⟩, hvoid⟩ := hcond
      exact ⟨some m, .some ⟨hfound, hlocal, howner, hvoid⟩ hb hm, hext⟩

theorem IsMain.isMade (h : IsMain d b c) (hself : d.env.self = none)
    (hg : Globals d p (b.scopes.vars.headD [])) : IsMade (Ordinary d p) c := by
  obtain ⟨ms, entry, hmethods, hms, hentry⟩ := h.methods
  intro m hm
  rw [← Array.mem_toList_iff, hmethods] at hm
  rcases List.mem_append.1 hm with hm | hm
  · obtain ⟨f, hf, b, hb, hm⟩ := exists_of_forall₂ hms hm
    rw [hself] at hm
    exact hm.exists_body ⟨by decide, .function hg hf hb⟩
  · cases hentry with
    | none => cases hm
    | some hcalled hb hm' =>
      rw [List.mem_singleton.1 hm]
      exact hm'.exists_body ⟨by decide, .entry hcalled.found hcalled.isVoid hb⟩

/-! ### Whole programs -/

/-- What a program declares belongs to no struct. -/
theorem isOuter_of_declared
    (h : declared options funcs file p = .ok d) : d.env.IsOuter := by
  obtain ⟨structs, aliases, funcs', henv⟩ := env_of_declared h
  rw [henv]
  exact ⟨rfl, rfl, rfl⟩

/-- The classes for what a program declares. -/
def classesOf (d : Declared) (file : Text) (p : Program) : Compiled (List ClassFile) :=
  if p.hasMain then classesWithMain d file p else structClasses d.env file [] d.env.structs

/-- The classes of a program are the main class, if there is one, and those of the structs. -/
inductive AreClasses (d : Declared) (p : Program) : List ClassFile → Prop
  | main {b : Body} {c : ClassFile} {init : Option Method} {cs : List ClassFile} : p.hasMain = true →
    topLevelBody { d.env with topLevel := true } p.stmts staticStart = .ok ((), b) →
    IsMain d b c → IsInitializer b init →
    List.Forall₂ (IsStruct d.env (b.scopes.vars.headD [])) d.env.structs cs →
    AreClasses d p (withInitializer c init :: cs)
  | structs {cs : List ClassFile} : p.hasMain = false →
    List.Forall₂ (IsStruct d.env []) d.env.structs cs → AreClasses d p cs

theorem of_classesOf (h : classesOf d file p = .ok cs) : AreClasses d p cs := by
  unfold classesOf at h
  split at h
  · next hmain =>
    obtain ⟨⟨main, globals, init⟩, hinit, h⟩ := bind_eq_ok h
    obtain ⟨structs, hstructs, h⟩ := bind_eq_ok h
    obtain ⟨main₁, hmain₁, h⟩ := bind_eq_ok h
    obtain ⟨main₂, hmain₂, h⟩ := bind_eq_ok h
    have hcs : cs = withInitializer main₂ init :: structs := by
      cases h
      cases init <;> rfl
    obtain ⟨b, q, hb, rfl, rfl, hm⟩ := of_initializer hinit
    obtain ⟨ms, hms, hext₁⟩ := of_addFunctions hmain₁
    obtain ⟨entry, hentry, hext₂⟩ := of_addEntry hmain₂
    have hext := hext₁.trans hext₂
    rw [hext₁.name] at hentry
    rw [hcs]
    exact .main hmain hb ⟨hext.name, hext.fields, ms, entry, hext.methods, hms, hentry⟩ hm
      (of_structClasses hstructs)
  · next hmain => exact .structs (by simpa using hmain) (of_structClasses h)

theorem AreClasses.isWritten (hself : d.env.self = none) {cs : List ClassFile}
    (h : AreClasses d p cs) : ∀ c ∈ cs, IsWritten d p c := by
  have hstructs {globals : List Var} {cs : List ClassFile} (hg : Globals d p globals)
      (hcs : List.Forall₂ (IsStruct d.env globals) d.env.structs cs) : ∀ c ∈ cs, IsWritten d p c := by
    intro c hc
    obtain ⟨s, hs, hc⟩ := exists_of_forall₂ hcs hc
    exact isWritten_of_isMade (hc.isMade hg hs)
  cases h with
  | structs hmain hcs => exact hstructs (.none hmain) hcs
  | main hmain hb hc hinit hcs =>
    refine List.forall_mem_cons.2 ⟨fun m hm => ?_, hstructs (.main hmain hb) hcs⟩
    rw [← Array.mem_toList_iff, (extends_withInitializer _ _).methods, List.mem_append] at hm
    rcases hm with hm | hm
    · exact isWritten_of_isMade (hc.isMade hself (.main hmain hb)) m (Array.mem_toList_iff.1 hm)
    · cases hinit with
      | none => cases hm
      | some hm' =>
        rw [List.mem_singleton.1 hm]
        exact hm'.exists_body (.initializer hmain hb)

theorem ofProgram_eq (options : UnitOptions) (funcs : Registry) (file : Text) (p : Program) :
    ofProgram options funcs file p =
      match Registry.empty.merge funcs with
      | (_, some e) => .error (.within "registry" (.conflict e))
      | (funcs, none) => do
        let d ← declared options funcs file p
        let cs ← classesOf d (Path.base file) p
        return (⟨mainClass options.package file, cs⟩, d.exports) := by
  unfold ofProgram declared classesOf
  obtain ⟨r, e⟩ := Registry.empty.merge funcs
  cases e with
  | none =>
    simp only [bind_assoc, pure_bind]
    split <;> rfl
  | some e => rfl

/-- What a program declares and the classes it is turned into. -/
theorem of_ofProgram
    (h : ofProgram options funcs file p = .ok (u, exports)) :
    ∃ d, declared options (Registry.empty.merge funcs).1 file p = .ok d ∧ d.exports = exports ∧
      u.main = mainClass options.package file ∧ AreClasses d p u.classes := by
  rw [ofProgram_eq] at h
  split at h
  · cases h
  · next hmerge =>
    obtain ⟨d, hd, h⟩ := bind_eq_ok h
    obtain ⟨cs, hcs, h⟩ := bind_eq_ok h
    cases h
    rw [hmerge]
    exact ⟨d, hd, rfl, rfl, of_classesOf hcs⟩

/-- Every method of a program is made from a body of one of the kinds. -/
theorem written_of_ofProgram
    (h : ofProgram options funcs file p = .ok (u, exports)) :
    ∃ d, declared options (Registry.empty.merge funcs).1 file p = .ok d ∧ d.exports = exports ∧
      ∀ c ∈ u.classes, IsWritten d p c := by
  obtain ⟨d, hd, hexports, -, hcs⟩ := of_ofProgram h
  exact ⟨d, hd, hexports, hcs.isWritten (isOuter_of_declared hd).self⟩

end ClassUnit

end Classwright
