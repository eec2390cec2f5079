import Classwright.Proofs.Env
import Classwright.Proofs.Failure
import Classwright.Proofs.Syntax.Parsed
import Classwright.Registry.Wire

/-!
What a program declares takes the slots of its descriptors (`ClassUnit.Declared.Sound`), provided
that its package is a name without semicolons and that the functions it is given do. Registries do so
however they come about (`Registry.Supplied`).
-/

namespace Classwright

/-! ### Registries -/

namespace Registry

theorem isProper_builtins : builtins.IsProper := by
  unfold IsProper
  decide

theorem IsProper.addEntries {r : Registry} (h : r.IsProper)
    (hr : r.addEntries es = .ok r') : r'.IsProper := by
  induction es generalizing r with
  | nil =>
    cases hr
    exact h
  | cons e es ih =>
    rw [Registry.addEntries] at hr
    split at hr
    · cases hr
    · next sig hsig =>
      split at hr
      · cases hr
      · next r₁ hadd => exact ih (h.add (Signature.ofDescriptor_eq_ok hsig).1 hadd) hr

theorem isProper_of_unmarshal {c : Wire.Codec} (h : unmarshal c t = .ok r) : r.IsProper := by
  unfold unmarshal at h
  split at h
  · cases h
  · split at h
    · cases h
    · exact isProper_empty.addEntries h

/-- What each function of a module keeps. -/
theorem of_importModule {Q : Registry → Prop} (hQ : ∀ {r r' : Registry} {name desc cls : Text}
    {sig : Signature}, Signature.ofDescriptor desc = .ok sig →
    r.add { dispatch := .static, name := name, owner := cls, sig := sig } = .ok r' → Q r → Q r')
    (h : Q r) (c : Config) (name : Text) : Q (c.importModule r name).1 := by
  unfold Config.importModule
  split
  · exact h
  · next m _ =>
    generalize m.functions = fs
    induction fs generalizing r with
    | nil => exact h
    | cons f fs ih =>
      rw [Config.addFunctions]
      split
      · exact h
      · next hsig =>
        split
        · exact ih h
        · split
          · exact h
          · next hadd => exact ih (hQ hsig hadd h)

theorem IsProper.importModule (h : r.IsProper) (c : Config) (name : Text) :
    (c.importModule r name).1.IsProper :=
  of_importModule (fun hsig hadd h => h.add (Signature.ofDescriptor_eq_ok hsig).1 hadd) h c name

/-- Registries as they come about: builtin functions, modules, files, and what sources export, put
together in any order. The package of a source is a name without semicolons. -/
inductive Supplied : Registry → Prop
  | empty : Supplied empty
  | builtins : Supplied builtins
  | module (c : Config) (name : Text) : Supplied r → Supplied (c.importModule r name).1
  | file : unmarshal c t = .ok r → Supplied r
  | merge : Supplied r → Supplied s → Supplied (r.merge s).1
  | exports {options : UnitOptions} {u : ClassUnit} : Supplied r → Source.program src = .ok p →
    ascii ';' ∉ options.package → ClassUnit.ofProgram options r file p = .ok (u, s) → Supplied s

end Registry

/-! ### Types of values -/

namespace Ty

mutual

/-- Whether values can have the type. -/
def isValue : Ty → Bool
  | prim _ | cls _ | null => true
  | nullable t => t.isValue
  | union ts => areValues ts
  | method _ _ => false

def areValues : List Ty → Bool
  | [] => true
  | t :: ts => t.isValue && areValues ts

end

theorem areValues_iff : areValues ts = true ↔ ∀ t ∈ ts, t.isValue = true := by
  induction ts with
  | nil => simp [areValues]
  | cons t ts ih => simp [areValues, ih]

end Ty

namespace Env

variable {env : Env}

theorem lifts_isValue : Lifts fun t => t.isValue = true where
  list := rfl
  nullable {t _ _} ht hu := by
    unfold nullable at hu
    split at hu
    · cases hu
    · cases hu
      rfl
    · cases hu
      exact ht
    · cases hu
      rfl
    · cases hu
      exact ht
  union {ts} hts := by
    rcases Ty.unionOf_cases (P := fun t => t.isValue = true) (fun _ h => Ty.areValues_iff.1 h)
      (fun t ht => (hts t ht).1) with h | ⟨us, hus, hall⟩
    · exact h
    · rw [hus]
      exact Ty.areValues_iff.2 hall

theorem value_of_typeRef (h : ∀ a ∈ env.aliases, a.2.isValue = true)
    (ht : env.typeRef r = .ok t) : t.isValue = true := by
  refine lifts_isValue.of_typeRef (fun n _ u hu => ?_) ht
  cases hu with
  | prim | builtin | struct | host => rfl
  | other ha => exact h _ ha

end Env

/-! ### Types as they are written -/

/-- Names of classes that types as they are written may stand for have no semicolon in them. -/
structure Env.Plain (env : Env) : Prop where
  structs : ∀ s ∈ env.structs, ascii ';' ∉ s.cls
  aliases : ∀ a ∈ env.aliases, a.2.isPlain = true

namespace Env

variable {env : Env}

theorem Plain.of_named (h : env.Plain) (hname : ascii ';' ∉ name)
    (ht : Named env name t) : t.isPlain = true := by
  cases ht with
  | prim => rfl
  | builtin hc => exact Ty.isPlain_cls.2 hc
  | other ha => exact h.aliases _ ha
  | struct hs => exact Ty.isPlain_cls.2 (h.structs _ hs)
  | host =>
    refine Ty.isPlain_cls.2 fun hmem => ?_
    obtain ⟨b, hb, hdot⟩ := List.mem_map.1 hmem
    split at hdot
    · exact absurd hdot (by decide)
    · exact hname (hdot ▸ hb)

theorem lifts_isPlain : Lifts fun t => t.isPlain = true where
  list := by decide
  nullable {t _ _} ht hu := by
    unfold nullable at hu
    split at hu
    · cases hu
    · next p _ =>
      cases hu
      cases p <;> decide
    · cases hu
      exact ht
    · cases hu
      rfl
    · cases hu
      exact ht
  union {ts} hts := by
    rcases Ty.unionOf_cases (P := fun t => t.isPlain = true) (fun _ h => Ty.arePlain_iff.1 h)
      (fun t ht => (hts t ht).1) with h | ⟨us, hus, hall⟩
    · exact h
    · rw [hus]
      exact Ty.arePlain_iff.2 hall

theorem Plain.of_typeRef (h : env.Plain) (hr : r.IsPlain)
    (ht : env.typeRef r = .ok t) : t.isPlain = true :=
  lifts_isPlain.of_typeRef (fun n hn _ => h.of_named (hr n hn)) ht

/-- A type as it is written takes the slots of its descriptor. -/
theorem isProper_of_typeRef (hs : env.Sound) (hp : env.Plain) (hr : r.IsPlain)
    (ht : env.typeRef r = .ok t) : t.isProper = true :=
  Ty.isProper_iff.2 ⟨tight_of_typeRef hs.aliases ht, hp.of_typeRef hr ht⟩

/-- What holds of the types that parameters are written with. -/
theorem of_params {P : Ty → Prop}
    (hps : ∀ p ∈ ps, ∀ t, env.typeRef p.type = .ok t → t.isVoid = false → P t)
    (h : env.params ps = .ok ts) : ts.length = ps.length ∧ ∀ t ∈ ts, P t := by
  induction ps generalizing ts with
  | nil =>
    cases h
    exact ⟨rfl, nofun⟩
  | cons p ps ih =>
    rw [params] at h
    obtain ⟨t, ht, h⟩ := bind_eq_ok h
    split at h
    · cases h
    · next hvoid =>
      obtain ⟨us, hus, h⟩ := bind_eq_ok h
      cases h
      obtain ⟨hlen, hall⟩ := ih (fun q hq => hps q (.tail _ hq)) hus
      refine ⟨congrArg (· + 1) hlen, List.forall_mem_cons.2 ⟨?_, hall⟩⟩
      exact hps p (.head _) t ht (by simpa using hvoid)

/-- The parameters of a declared function. -/
theorem of_signature {P : Ty → Prop}
    (hps : ∀ p ∈ d.params, ∀ t, env.typeRef p.type = .ok t → t.isVoid = false → P t)
    (h : env.signature d = .ok sig) :
    sig.ins.length = d.params.length ∧ ∀ t ∈ sig.ins, P t := by
  obtain ⟨ins, hins, h⟩ := bind_eq_ok h
  split at h
  · cases h
    exact of_params hps hins
  · obtain ⟨out, -, h⟩ := bind_eq_ok h
    cases h
    exact of_params hps hins

end Env

/-- A declared function takes its parameters in the slots of its descriptor. -/
structure DeclaredFunction.Sound (f : DeclaredFunction) : Prop where
  proper : f.fn.sig.isProper = true
  length : f.fn.sig.ins.length = f.decl.params.length
  isVoid : ∀ t ∈ f.fn.sig.ins, t.isVoid = false

/-- The signature of a declared function. -/
theorem Env.isProper_of_signature {env : Env} (hs : env.Sound) (hp : env.Plain)
    (hd : d.IsPlain) (h : env.signature d = .ok sig) :
    sig.isProper = true ∧ sig.ins.length = d.params.length ∧ ∀ t ∈ sig.ins, t.isVoid = false := by
  obtain ⟨hlen, hall⟩ := of_signature (P := fun t => t.isProper = true ∧ t.isVoid = false)
    (fun p hmem t ht hvoid => ⟨isProper_of_typeRef hs hp (hd.params p hmem) ht, hvoid⟩) h
  refine ⟨Signature.isProper_iff.2 ⟨fun t ht => (hall t ht).1, ?_⟩, hlen, fun t ht => (hall t ht).2⟩
  obtain ⟨ins, -, h⟩ := bind_eq_ok h
  split at h
  · cases h
    rfl
  · next r hr =>
    obtain ⟨out, hout, h⟩ := bind_eq_ok h
    cases h
    have hproper := isProper_of_typeRef hs hp (hd.result hr) hout
    cases out.isVoid with
    | true => rfl
    | false => exact hproper

/-! ### Where declarations are refused -/

namespace ClassUnit

section
variable {P : Int → Int → Prop} {env : Env} {ss : List Stmt}

theorem refused_declareNames (package : Text) (hss : ∀ s ∈ ss, s.At P) :
    Refused P (declareNames package env ss) := by
  induction ss generalizing env with
  | nil => exact .ok _
  | cons s ss ih =>
    rw [List.forall_mem_cons] at hss
    cases s with
    | struct d =>
      rw [declareNames]
      split
      · exact .refuse hss.1.tok _
      · exact ih hss.2
    | _ => exact ih hss.2

theorem refused_declareAliases (hss : ∀ s ∈ ss, s.At P) : Refused P (declareAliases env ss) := by
  induction ss generalizing env with
  | nil => exact .ok _
  | cons s ss ih =>
    rw [List.forall_mem_cons] at hss
    cases s with
    | typeAlias d =>
      have hd := hss.1
      rw [Stmt.At] at hd
      rw [declareAliases]
      refine .check (.refuse hd.1 _) fun _ => .bind (Env.refused_typeRef hd.2) fun t => ?_
      exact .check (.refuse hd.1 _) fun _ => ih hss.2
    | _ => exact ih hss.2

theorem refused_declareFields (hfs : ∀ f ∈ fs, f.At P) (s : StructType) :
    Refused P (declareFields env s fs) := by
  induction fs generalizing s with
  | nil => exact .ok _
  | cons f fs ih =>
    rw [List.forall_mem_cons] at hfs
    rw [declareFields]
    refine .bind (Env.refused_typeRef hfs.1.type) fun t => ?_
    refine .check (.refuse hfs.1.tok _) fun _ => .check (.refuse hfs.1.tok _) fun _ => ?_
    exact ih hfs.2 _

theorem refused_declareMethods (hds : ∀ d ∈ ds, d.At P) (s : StructType) :
    Refused P (declareMethods env s ds) := by
  induction ds generalizing s with
  | nil => exact .ok _
  | cons d ds ih =>
    rw [List.forall_mem_cons] at hds
    rw [declareMethods]
    refine .bind (Env.refused_signature hds.1) fun sig => ?_
    dsimp only
    split
    · exact .refuse (FuncDecl.at_iff.1 hds.1).1 _
    · exact ih hds.2 _

theorem refused_declareMember (modules : Option Config) (hs : s.At P) (d : Declared) :
    Refused P (declareMember modules d s) := by
  have htok := hs.tok
  cases s with
  | use u =>
    refine .bind ?_ fun _ => .ok _
    unfold importModule
    split
    · exact .refuse htok _
    · split
      · exact .refuse htok _
      · exact .ok _
  | struct sd =>
    rw [Stmt.At] at hs
    obtain ⟨-, hfields, hmethods⟩ := StructDecl.at_iff.1 hs
    refine .bind ?_ fun _ => .ok _
    unfold declareStruct
    split
    · exact .ok _
    · refine .bind (refused_declareFields hfields _) fun s => ?_
      exact .bind (refused_declareMethods hmethods _) fun s => .ok _
  | func f =>
    rw [Stmt.At] at hs
    refine .bind (Env.refused_signature hs) fun sig => ?_
    dsimp only
    split
    · exact .refuse htok _
    · exact .ok _
  | _ => exact .ok _

theorem refused_declareMembers (modules : Option Config) (hss : ∀ s ∈ ss, s.At P) (d : Declared) :
    Refused P (declareMembers modules d ss) := by
  induction ss generalizing d with
  | nil => exact .ok _
  | cons s ss ih =>
    rw [List.forall_mem_cons] at hss
    exact .bind (refused_declareMember modules hss.1 d) fun d' => ih hss.2 d'

/-- What a program declares. -/
def declared (options : UnitOptions) (funcs : Registry) (file : Text) (p : Program) :
    Compiled Declared := do
  let name := mainClass options.package file
  let env ← declareNames options.package { mainClass := name, funcs := funcs } p.stmts
  let env ← declareAliases env p.stmts
  declareMembers options.modules { env := env } p.stmts

theorem refused_declared (options : UnitOptions) (funcs : Registry) (file : Text)
    (hp : ∀ s ∈ p.stmts, s.At P) : Refused P (declared options funcs file p) :=
  .bind (refused_declareNames _ hp) fun _ => .bind (refused_declareAliases hp) fun _ =>
    refused_declareMembers _ hp _

end

/-! ### What is declared -/

section
variable {package : Text} {modules : Option Config} {env env' : Env} {ss : List Stmt} {d d' : Declared}

/-- The names of the structs that statements declare. -/
def structNames (ss : List Stmt) : List Text :=
  ss.filterMap fun
    | .struct d => some d.name
    | _ => none

theorem mem_structNames : name ∈ structNames ss ↔ ∃ d, .struct d ∈ ss ∧ d.name = name := by
  unfold structNames
  rw [List.mem_filterMap]
  constructor
  · rintro ⟨s, hs, heq⟩
    cases s with
    | struct d => exact ⟨d, hs, Option.some.inj heq⟩
    | _ => cases heq
  · rintro ⟨d, hd, rfl⟩
    exact ⟨_, hd, rfl⟩

/-- A struct without members. -/
def bareStruct (package name : Text) : StructType := { name := name, cls := qualify package name }

/-- Structs are declared without members, under names that are new. -/
theorem declareNames_eq_ok (h : declareNames package env ss = .ok env') :
    env' = { env with structs := env.structs ++ (structNames ss).map (bareStruct package) } ∧
      ((env.structs.map (·.name)).Nodup → (env.structs.map (·.name) ++ structNames ss).Nodup) := by
  induction ss generalizing env with
  | nil =>
    cases h
    exact ⟨by rw [structNames, List.filterMap_nil, List.map_nil, List.append_nil],
      fun h => by rwa [structNames, List.filterMap_nil, List.append_nil]⟩
  | cons s ss ih =>
    cases s with
    | struct d =>
      rw [declareNames] at h
      split at h
      · cases h
      · next hnew =>
        obtain ⟨rfl, hnodup⟩ := ih h
        have hnames : structNames (.struct d :: ss) = d.name :: structNames ss := rfl
        refine ⟨by rw [hnames, List.map_cons, List.append_assoc]; rfl, fun hold => ?_⟩
        rw [List.map_append, List.append_assoc] at hnodup
        refine hnodup (List.nodup_append.2 ⟨hold, List.pairwise_singleton _ _, ?_⟩)
        rintro name hname _ hmem rfl
        obtain ⟨s, hs, hsname⟩ := List.mem_map.1 hname
        have hfound : (env.structNamed? d.name).isSome = true :=
          List.find?_isSome.2 ⟨s, hs, beq_iff_eq.2 (hsname.trans (List.mem_singleton.1 hmem))⟩
        exact hnew (by rw [Env.isType, hfound, Bool.or_true, Bool.true_or])
    | _ => exact ih h

/-- What holds of the types that aliases are written with, as long as it holds of those before. -/
theorem declareAliases_eq_ok {Q : Ty → Prop}
    (hQ : ∀ aliases, (∀ a ∈ aliases, Q a.2) → ∀ d, .typeAlias d ∈ ss →
      ∀ t, Env.typeRef { env with aliases := aliases } d.type = .ok t → Q t)
    (halias : ∀ a ∈ env.aliases, Q a.2) (h : declareAliases env ss = .ok env') :
    ∃ aliases, env' = { env with aliases := aliases } ∧ ∀ a ∈ aliases, Q a.2 := by
  induction ss generalizing env with
  | nil =>
    cases h
    exact ⟨_, rfl, halias⟩
  | cons s ss ih =>
    have hrest := fun aliases ha d hd => hQ aliases ha d (.tail _ hd)
    cases s with
    | typeAlias d =>
      rw [declareAliases] at h
      split at h
      · cases h
      · obtain ⟨t, ht, h⟩ := bind_eq_ok h
        split at h
        · cases h
        · have hnew : ∀ a ∈ env.aliases ++ [(d.name, t)], Q a.2 := List.forall_mem_append.2
            ⟨halias, List.forall_mem_singleton.2 (hQ env.aliases halias d (.head _) t ht)⟩
          have ih := ih ?_ ?_ h
          · exact ih
          · exact hrest
          · exact hnew
    | _ => exact ih hrest halias h

/-- A function of the main class. -/
def mainFunction (env : Env) (decl : FuncDecl) (sig : Signature) : Function :=
  { dispatch := .static, name := decl.name, owner := env.mainClass, sig := sig, isLocal := true }

/-- What a statement declares besides types. -/
inductive Declares (modules : Option Config) (d : Declared) : Stmt → Declared → Prop
  | use {u : UseDecl} {c : Config} {funcs : Registry} : modules = some c →
    c.importModule d.env.funcs u.path = (funcs, none) →
    Declares modules d (.use u) { d with env := { d.env with funcs := funcs } }
  | struct {sd : StructDecl} {s s₁ s₂ : StructType} : d.env.structNamed? sd.name = some s →
    declareFields d.env s sd.fields = .ok s₁ → declareMethods d.env s₁ sd.methods = .ok s₂ →
    Declares modules d (.struct sd) { d with env := { d.env with
      structs := d.env.structs.map fun t => if t.name = s₂.name then s₂ else t } }
  | func {decl : FuncDecl} {sig : Signature} {funcs : Registry} : d.env.signature decl = .ok sig →
    d.env.funcs.add (mainFunction d.env decl sig) = .ok funcs →
    Declares modules d (.func decl) ⟨{ d.env with funcs := funcs },
      d.functions ++ [⟨decl, mainFunction d.env decl sig⟩],
      if decl.pub then (d.exports.addAll [{ mainFunction d.env decl sig with isLocal := false }]).1
      else d.exports⟩
  | nothing {s : Stmt} : (∀ decl, s ≠ .func decl) → Declares modules d s d

theorem declares_of_declareMember (h : declareMember modules d s = .ok d') :
    Declares modules d s d' := by
  cases s with
  | use u =>
    obtain ⟨env₁, henv, h⟩ := bind_eq_ok h
    cases h
    unfold importModule at henv
    split at henv
    · cases henv
    · split at henv
      · cases henv
      · next hfuncs =>
        cases henv
        exact .use rfl hfuncs
  | struct sd =>
    obtain ⟨env₁, henv, h⟩ := bind_eq_ok h
    cases h
    unfold declareStruct at henv
    split at henv
    · cases henv
      exact .nothing fun _ => Stmt.noConfusion
    · next s hs =>
      obtain ⟨s₁, h₁, henv⟩ := bind_eq_ok henv
      obtain ⟨s₂, h₂, henv⟩ := bind_eq_ok henv
      cases henv
      exact .struct hs h₁ h₂
  | func f =>
    obtain ⟨sig, hsig, h⟩ := bind_eq_ok h
    dsimp only at h
    split at h
    · cases h
    · next hadd =>
      cases h
      exact .func hsig hadd
  | _ =>
    cases h
    exact .nothing fun _ => Stmt.noConfusion

/-- What each declaration of the program keeps. -/
theorem of_declareMembers {Q : Declared → Prop}
    (hQ : ∀ {s d d'}, s ∈ ss → Declares modules d s d' → Q d → Q d') (hd : Q d)
    (h : declareMembers modules d ss = .ok d') : Q d' := by
  induction ss generalizing d with
  | nil =>
    cases h
    exact hd
  | cons s ss ih =>
    obtain ⟨d₁, hd₁, h⟩ := bind_eq_ok h
    exact ih (fun hs => hQ (.tail _ hs)) (hQ (.head _) (declares_of_declareMember hd₁) hd) h

/-- Fields are added with names that are new. -/
theorem declareFields_eq_ok
    (h : declareFields env s fs = .ok s') :
    ∃ vs, s' = { s with fields := s.fields ++ vs } ∧
      (∀ v ∈ vs, v.kind = .field ∧ v.type.isVoid = false ∧ ∃ f ∈ fs, env.typeRef f.type = .ok v.type) ∧
      (∀ f ∈ fs, ∃ v ∈ vs, v.name = f.name) ∧
      ((s.fields.map (·.name)).Nodup → ((s.fields ++ vs).map (·.name)).Nodup) := by
  induction fs generalizing s with
  | nil =>
    cases h
    refine ⟨[], ?_, List.forall_mem_nil _, List.forall_mem_nil _, ?_⟩
    · rw [List.append_nil]
    · rw [List.append_nil]
      exact id
  | cons f fs ih =>
    rw [declareFields] at h
    obtain ⟨t, ht, h⟩ := bind_eq_ok h
    cases hvoid : t.isVoid with
    | true =>
      rw [hvoid] at h
      cases h
    | false =>
      cases hfield : (s.field? f.name).isSome with
      | true =>
        rw [hvoid, hfield] at h
        cases h
      | false =>
        rw [hvoid, hfield] at h
        obtain ⟨vs, rfl, hvs, hfs, hnodup⟩ := ih h
        refine ⟨{ name := f.name, kind := .field, type := t, owner := s.cls, tok := f.tok } :: vs, ?_,
          List.forall_mem_cons.2 ⟨⟨rfl, hvoid, f, .head _, ht⟩, fun v hv => ?_⟩,
          List.forall_mem_cons.2 ⟨⟨_, .head _, rfl⟩, fun g hg => ?_⟩, fun hold => ?_⟩
        · rw [List.append_assoc]
          rfl
        · obtain ⟨hkind, hvoid, g, hg, hgt⟩ := hvs v hv
          exact ⟨hkind, hvoid, g, .tail _ hg, hgt⟩
        · obtain ⟨v, hv, hname⟩ := hfs g hg
          exact ⟨v, .tail _ hv, hname⟩
        · rw [List.append_cons]
          refine hnodup ?_
          rw [List.map_append]
          refine List.nodup_append.2 ⟨hold, List.pairwise_singleton _ _, ?_⟩
          rintro name hname _ hnew rfl
          obtain ⟨v, hv, hvname⟩ := List.mem_map.1 hname
          refine absurd hfield (Bool.not_eq_false _ ▸ List.find?_isSome.2 ⟨v, hv, ?_⟩)
          exact beq_iff_eq.2 (hvname.trans (List.mem_singleton.1 hnew))

/-- A method of a struct. -/
def structFunction (s : StructType) (decl : FuncDecl) (sig : Signature) : Function :=
  { dispatch := .virtual, name := decl.name, owner := s.cls, sig := sig, isLocal := true }

/-- What each method keeps. -/
theorem of_declareMethods {Q : StructType → Prop}
    (hQ : ∀ {s decl sig methods}, decl ∈ ds → env.signature decl = .ok sig →
      s.methods.add (structFunction s decl sig) = .ok methods → Q s →
      Q { s with methods := methods, declared := s.declared ++ [⟨decl, structFunction s decl sig⟩] })
    (hs : Q s) (h : declareMethods env s ds = .ok s') : Q s' := by
  induction ds generalizing s with
  | nil =>
    cases h
    exact hs
  | cons decl ds ih =>
    rw [declareMethods] at h
    obtain ⟨sig, hsig, h⟩ := bind_eq_ok h
    dsimp only at h
    split at h
    · cases h
    · next methods hadd => exact ih (fun hd => hQ (.tail _ hd)) (hQ (.head _) hsig hadd hs) h

end

/-- What types mean in a program: they take the slots of their descriptors, and are types of
values. -/
structure Means (options : UnitOptions) (p : Program) (env : Env) : Prop where
  tight : ∀ a ∈ env.aliases, a.2.isTight = true
  value : ∀ a ∈ env.aliases, a.2.isValue = true
  plain : ascii ';' ∉ options.package → (∀ s ∈ p.stmts, s.IsPlain) → env.Plain

theorem not_mem_qualify (hp : ascii ';' ∉ package) (hn : ascii ';' ∉ name) :
    ascii ';' ∉ qualify package name := by
  unfold qualify
  split
  · exact hn
  · simp only [List.mem_append, not_or]
    exact ⟨⟨hp, by decide⟩, hn⟩

/-- The types of a program, before functions, fields and methods are declared. -/
def typeEnv (options : UnitOptions) (funcs : Registry) (file : Text) (p : Program)
    (aliases : List (Text × Ty)) : Env where
  mainClass := mainClass options.package file
  structs := (structNames p.stmts).map (bareStruct options.package)
  aliases := aliases
  funcs := funcs

section
variable {options : UnitOptions} {funcs : Registry} {file : Text} {p : Program} {d : Declared}

/-- Types are declared first, and the members in an environment with all of them. -/
theorem declared_eq_ok (h : declared options funcs file p = .ok d) :
    ∃ aliases, Means options p (typeEnv options funcs file p aliases) ∧ (structNames p.stmts).Nodup ∧
      declareMembers options.modules { env := typeEnv options funcs file p aliases } p.stmts =
        .ok d := by
  obtain ⟨env₁, h₁, h⟩ := bind_eq_ok h
  obtain ⟨env₂, h₂, h⟩ := bind_eq_ok h
  obtain ⟨rfl, hnodup⟩ := declareNames_eq_ok h₁
  have hcls (hpackage : ascii ';' ∉ options.package) (hp : ∀ s ∈ p.stmts, s.IsPlain) :
      ∀ s ∈ (structNames p.stmts).map (bareStruct options.package), ascii ';' ∉ s.cls := by
    intro s hs
    obtain ⟨name, hname, rfl⟩ := List.mem_map.1 hs
    obtain ⟨d, hd, rfl⟩ := mem_structNames.1 hname
    exact not_mem_qualify hpackage ((hp _ hd).name.not_mem (by decide) (by decide))
  obtain ⟨aliases, rfl, hall⟩ := declareAliases_eq_ok
    (Q := fun t => t.isTight = true ∧ t.isValue = true ∧
      (ascii ';' ∉ options.package → (∀ s ∈ p.stmts, s.IsPlain) → t.isPlain = true))
    (fun aliases ha d hd t ht => ⟨Env.tight_of_typeRef (fun a h => (ha a h).1) ht,
      Env.value_of_typeRef (fun a h => (ha a h).2.1) ht, fun hpackage hp => Env.Plain.of_typeRef
        ⟨hcls hpackage hp, fun a h => (ha a h).2.2 hpackage hp⟩ (hp _ hd) ht⟩) (List.forall_mem_nil _) h₂
  refine ⟨aliases, ⟨fun a ha => (hall a ha).1, fun a ha => (hall a ha).2.1, fun hpackage hp =>
    ⟨hcls hpackage hp, fun a ha => (hall a ha).2.2 hpackage hp⟩⟩, hnodup List.nodup_nil, h⟩

/-- Members change nothing about an environment but the structs and functions. -/
theorem env_of_declared (h : declared options funcs file p = .ok d) :
    ∃ structs aliases funcs', d.env =
      { mainClass := mainClass options.package file, structs := structs, aliases := aliases, funcs := funcs' } := by
  obtain ⟨aliases, -, -, h⟩ := declared_eq_ok h
  refine of_declareMembers (Q := fun d => ∃ structs aliases funcs', d.env =
    { mainClass := mainClass options.package file, structs := structs,
      aliases := aliases, funcs := funcs' }) ?_ ⟨_, aliases, _, rfl⟩ h
  rintro s d d' - hstep ⟨structs, aliases, funcs, henv⟩
  cases hstep with
  | use | struct | func =>
    dsimp only
    rw [henv]
    exact ⟨_, _, _, rfl⟩
  | nothing => exact ⟨_, _, _, henv⟩

end

/-! ### Slots -/

/-- The methods of a struct stem from a declaration of the program, whose fields the struct has. -/
def MethodsFrom (ss : List Stmt) (s : StructType) : Prop :=
  ∀ f ∈ s.declared, f.Sound ∧ ∃ d, .struct d ∈ ss ∧ f.decl ∈ d.methods ∧
    ∀ b ∈ d.fields, ∃ v ∈ s.fields, v.name = b.name

/-- What has been declared so far takes the slots of its descriptors, and its functions stem from
declarations of the program. -/
structure Declared.Sound (ss : List Stmt) (d : Declared) : Prop where
  env : d.env.Sound
  plain : d.env.Plain
  self : d.env.self = none
  loops : d.env.loops = []
  functions : ∀ f ∈ d.functions, f.Sound ∧ .func f.decl ∈ ss
  methods : ∀ s ∈ d.env.structs, MethodsFrom ss s
  exports : d.exports.IsProper

/-- A struct that has got methods. -/
structure HasMethods (s : StructType) (ds : List FuncDecl) (s' : StructType) : Prop where
  sound : s'.Sound
  cls : s'.cls = s.cls
  fields : s'.fields = s.fields
  declared : ∀ f ∈ s'.declared, f ∈ s.declared ∨ f.Sound ∧ f.decl ∈ ds

section
variable {modules : Option Config} {ss : List Stmt} {d d' : Declared}

theorem hasMethods_of_declareMethods {env : Env} (henv : env.Sound) (hplain : env.Plain)
    (hs : s.Sound) (hds : ∀ d ∈ ds, d.IsPlain)
    (h : declareMethods env s ds = .ok s') : HasMethods s ds s' := by
  refine of_declareMethods (Q := HasMethods s ds) ?_ ⟨hs, rfl, rfl, fun _ => .inl⟩ h
  intro s' decl sig methods hdecl hsig hadd h
  obtain ⟨hproper, hlen, hvoid⟩ := Env.isProper_of_signature henv hplain (hds decl hdecl) hsig
  refine ⟨⟨h.sound.fields, h.sound.kinds, h.sound.methods.add hproper hadd⟩, h.cls, h.fields, ?_⟩
  exact List.forall_mem_append.2 ⟨h.declared,
    List.forall_mem_singleton.2 (.inr ⟨⟨hproper, hlen, hvoid⟩, hdecl⟩)⟩

theorem Declared.Sound.struct (h : d.Sound ss) (hmem : .struct sd ∈ ss)
    (hplain : sd.IsPlain) (hs : d.env.structNamed? sd.name = some s)
    (h₁ : declareFields d.env s sd.fields = .ok s₁) (h₂ : declareMethods d.env s₁ sd.methods = .ok s₂) :
    Declared.Sound ss { d with env := { d.env with
      structs := d.env.structs.map fun t => if t.name = s₂.name then s₂ else t } } := by
  have hs : s ∈ d.env.structs := List.mem_of_find?_eq_some hs
  have hsound := h.env.structs s hs
  obtain ⟨vs, rfl, hvs, hfs, -⟩ := declareFields_eq_ok h₁
  have hnew : ∀ v ∈ vs, v.Sound ∧ v.type.isPlain = true := by
    intro v hv
    obtain ⟨-, hvoid, f, hf, ht⟩ := hvs v hv
    obtain ⟨htight, hp⟩ := Ty.isProper_iff.1
      (Env.isProper_of_typeRef h.env h.plain (hplain.fields f hf) ht)
    exact ⟨⟨htight, hvoid⟩, hp⟩
  have hgrown : StructType.Sound { s with fields := s.fields ++ vs } :=
    ⟨List.forall_mem_append.2 ⟨hsound.fields, hnew⟩,
      List.forall_mem_append.2 ⟨hsound.kinds, fun v hv => (hvs v hv).1⟩, hsound.methods⟩
  have h₂ := hasMethods_of_declareMethods h.env h.plain hgrown hplain.methods h₂
  -- every struct of the new environment is an old one or the one at hand
  have hcases {Q : StructType → Prop} (hold : ∀ t ∈ d.env.structs, Q t) (hnew : Q s₂) :
      ∀ t ∈ d.env.structs.map (fun t => if t.name = s₂.name then s₂ else t), Q t := by
    refine List.forall_mem_map.2 fun t ht => ?_
    split
    · exact hnew
    · exact hold t ht
  refine ⟨⟨hcases h.env.structs h₂.sound, h.env.self, h.env.aliases, h.env.funcs⟩,
    ⟨hcases h.plain.structs (h₂.cls ▸ h.plain.structs s hs), h.plain.aliases⟩, h.self, h.loops,
    h.functions, hcases h.methods fun f hf => ?_, h.exports⟩
  rcases h₂.declared f hf with hold | ⟨hsound, hdecl⟩
  · obtain ⟨hsound, e, he, hfe, hfields⟩ := h.methods s hs f hold
    refine ⟨hsound, e, he, hfe, fun b hb => ?_⟩
    obtain ⟨v, hv, hname⟩ := hfields b hb
    exact ⟨v, h₂.fields ▸ List.mem_append_left _ hv, hname⟩
  · refine ⟨hsound, sd, hmem, hdecl, fun b hb => ?_⟩
    obtain ⟨v, hv, hname⟩ := hfs b hb
    exact ⟨v, h₂.fields ▸ List.mem_append_right _ hv, hname⟩

theorem Declared.Sound.step {s : Stmt} (hmem : s ∈ ss) (hplain : s.IsPlain)
    (hstep : Declares modules d s d') (h : d.Sound ss) : d'.Sound ss := by
  cases hstep with
  | @use u c funcs _ hfuncs =>
    have hproper := h.env.funcs.importModule c u.path
    rw [hfuncs] at hproper
    exact ⟨⟨h.env.structs, h.env.self, h.env.aliases, hproper⟩, ⟨h.plain.structs, h.plain.aliases⟩,
      h.self, h.loops, h.functions, h.methods, h.exports⟩
  | struct hs h₁ h₂ => exact h.struct hmem hplain hs h₁ h₂
  | func hsig hadd =>
    obtain ⟨hproper, hlen, hvoid⟩ := Env.isProper_of_signature h.env h.plain hplain hsig
    refine ⟨⟨h.env.structs, h.env.self, h.env.aliases, h.env.funcs.add hproper hadd⟩,
      ⟨h.plain.structs, h.plain.aliases⟩, h.self, h.loops, ?_, h.methods, ?_⟩
    · exact List.forall_mem_append.2 ⟨h.functions,
        List.forall_mem_singleton.2 ⟨⟨hproper, hlen, hvoid⟩, hmem⟩⟩
    · dsimp only
      split
      · exact Registry.forall_addAll h.exports (List.forall_mem_singleton.2 hproper)
      · exact h.exports
  | nothing => exact h

theorem yields_declared
    (hpackage : ascii ';' ∉ options.package) (hfuncs : funcs.IsProper)
    (hp : ∀ s ∈ p.stmts, s.IsPlain) (file : Text) :
    Yields (declared options funcs file p) (Declared.Sound p.stmts) := by
  refine .of_safe (refused_declared options funcs file fun s _ => s.at_true).stackSafe fun d hd => ?_
  obtain ⟨aliases, hmeans, -, hd⟩ := declared_eq_ok hd
  have hbare : ∀ s ∈ (structNames p.stmts).map (bareStruct options.package), s.Sound ∧ MethodsFrom p.stmts s :=
    List.forall_mem_map.2 fun _ _ =>
      ⟨⟨List.forall_mem_nil _, List.forall_mem_nil _, Registry.isProper_empty⟩, List.forall_mem_nil _⟩
  refine of_declareMembers (fun hs hstep h => h.step hs (hp _ hs) hstep) ⟨?_, hmeans.plain hpackage hp,
    rfl, rfl, List.forall_mem_nil _, fun s hs => (hbare s hs).2, Registry.isProper_empty⟩ hd
  exact ⟨fun s hs => (hbare s hs).1, nofun, hmeans.tight, hfuncs⟩

end

end ClassUnit

end Classwright
