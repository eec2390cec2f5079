import Classwright.Proofs.Unit.Methods

/-!
What a program declares, whatever its package is and whatever functions it may call. All types mean
what they do once the names of structs and the aliases are known, so every declared function has the
signature that its declaration has there. Functions of one name in one class differ in the descriptors
of their arguments, and the fields of a struct differ in their names (`ClassUnit.Members`).
-/

namespace Classwright

/-! ### Registries -/

namespace Registry

/-- A registry lists functions of the source, those of one name with different arguments. -/
structure Lists (r : Registry) (fs : List Function) : Prop where
  isLocal : f ∈ fs → f.isLocal = true
  mem : f ∈ fs → f ∈ r.overloads f.name
  apart : fs.Pairwise fun f g => f.name = g.name → f.argDescriptor ≠ g.argDescriptor

variable {r r' : Registry} {f : Function} {fs : List Function}

theorem lists_nil (r : Registry) : r.Lists [] := ⟨nofun, nofun, .nil⟩

theorem mem_overloads_push (h : f ∈ r.overloads name) (g : Function) :
    f ∈ (r.push g).overloads name := by
  rw [overloads_push]
  split
  · exact List.mem_append_left _ h
  · exact h

/-- Another function of the source has arguments of its own. -/
theorem Lists.concat (h : r.Lists fs) (hf : f.isLocal = true) (hr : r.add f = .ok r') :
    r'.Lists (fs ++ [f]) := by
  obtain ⟨rfl, hnone⟩ := push_of_add hr
  have hnew : ∀ g ∈ fs, g.name = f.name → g.argDescriptor ≠ f.argDescriptor := by
    intro g hg hname hargs
    have := List.find?_eq_none.1 hnone g (hname ▸ h.mem hg)
    rw [h.isLocal hg, hargs] at this
    simp at this
  refine ⟨fun hg => ?_, fun hg => ?_, ?_⟩
  · exact List.forall_mem_append.2 ⟨fun _ => h.isLocal, List.forall_mem_singleton.2 hf⟩ _ hg
  · rcases List.mem_append.1 hg with hg | hg
    · exact mem_overloads_push (h.mem hg) f
    · rw [List.mem_singleton.1 hg, overloads_push, if_pos rfl]
      exact List.mem_append_right _ (.head _)
  · refine List.pairwise_append.2 ⟨h.apart, List.pairwise_singleton _ _, fun g hg g' hg' => ?_⟩
    rw [List.mem_singleton.1 hg']
    exact hnew g hg

theorem Lists.add (h : r.Lists fs) (hr : r.add g = .ok r') : r'.Lists fs := by
  obtain ⟨rfl, -⟩ := push_of_add hr
  exact ⟨h.isLocal, fun hf => mem_overloads_push (h.mem hf) g, h.apart⟩

theorem Lists.importModule (h : r.Lists fs) (c : Config) (name : Text) :
    (c.importModule r name).1.Lists fs :=
  of_importModule (Q := fun r => r.Lists fs) (fun _ hadd h => h.add hadd) h c name

end Registry

namespace Env

variable {env env' : Env}

theorem signature_congr (h : ∀ tok name, env'.named tok name = env.named tok name) (d : FuncDecl) :
    env'.signature d = env.signature d := by
  have hparams : ∀ ps, env'.params ps = env.params ps := by
    intro ps
    induction ps with
    | nil => rfl
    | cons p ps ih => rw [params, params, typeRef_congr h, ih]
  unfold signature
  simp only [hparams, typeRef_congr h]

end Env

/-! ### Members -/

/-- A function as its declaration states it in an environment. -/
structure DeclaredFunction.Stated (env : Env) (f : DeclaredFunction) : Prop where
  sig : env.signature f.decl = .ok f.fn.sig
  name : f.fn.name = f.decl.name

/-- A struct as declarations of the program state it: fields with names of their own, and methods that
its registry lists. -/
structure StructType.Stated (env : Env) (ss : List Stmt) (s : StructType) : Prop where
  distinct : (s.fields.map (·.name)).Nodup
  fields : ∀ v ∈ s.fields, v.kind = .field ∧ v.type.isVoid = false ∧ ∃ r, env.typeRef r = .ok v.type
  declared : ∀ f ∈ s.declared, f.Stated env ∧ ∃ d, .struct d ∈ ss ∧ f.decl ∈ d.methods
  lists : s.methods.Lists (s.declared.map (·.fn))

namespace ClassUnit

/-- What has been declared so far, where types mean what they do in an environment. -/
structure Members (env : Env) (ss : List Stmt) (d : Declared) : Prop where
  named : ∀ tok name, d.env.named tok name = env.named tok name
  functions : ∀ f ∈ d.functions, f.Stated env ∧ .func f.decl ∈ ss
  lists : d.env.funcs.Lists (d.functions.map (·.fn))
  structs : ∀ s ∈ d.env.structs, s.Stated env ss

variable {package : Text} {env env' : Env} {ss : List Stmt} {s s' : StructType} {d d' : Declared}

/-- Methods are added to a struct under its name. -/
theorem names_of_declareMethods (h : declareMethods env s ds = .ok s') :
    s'.name = s.name ∧ s'.cls = s.cls :=
  of_declareMethods (Q := fun s' => s'.name = s.name ∧ s'.cls = s.cls) (fun _ _ _ h => h) ⟨rfl, rfl⟩ h

theorem stated_of_declareMethods (hs : s.Stated env ss) (hsd : .struct sd ∈ ss)
    (hnamed : ∀ tok name, env'.named tok name = env.named tok name)
    (h : declareMethods env' s sd.methods = .ok s') : s'.Stated env ss := by
  refine of_declareMethods (Q := (·.Stated env ss)) (fun {s decl sig methods} hdecl hsig hadd hs => ?_) hs h
  refine ⟨hs.distinct, hs.fields, List.forall_mem_append.2 ⟨hs.declared, List.forall_mem_singleton.2 ?_⟩, ?_⟩
  · exact ⟨⟨Env.signature_congr hnamed _ ▸ hsig, rfl⟩, sd, hsd, hdecl⟩
  · rw [List.map_append, List.map_singleton]
    exact hs.lists.concat rfl hadd

/-- A struct that takes the place of one with its name and class leaves the meaning of types. -/
theorem named_replace (hs : env.structNamed? s'.name = some s) (hcls : s'.cls = s.cls) (tok : Token)
    (name : Text) :
    Env.named { env with structs := env.structs.map fun t => if t.name = s'.name then s' else t } tok
      name = env.named tok name := by
  have hfind : ((env.structs.map fun t => if t.name = s'.name then s' else t).find?
      (·.name == name)).map (·.type) = (env.structs.find? (·.name == name)).map (·.type) := by
    have hname : ((fun t : StructType => t.name == name) ∘
        fun t => if t.name = s'.name then s' else t) = fun t => t.name == name := by
      funext t
      by_cases ht : t.name = s'.name
      · simp [ht]
      · simp [ht]
    rw [List.find?_map, hname, Option.map_map]
    cases ht : env.structs.find? (·.name == name) with
    | none => rfl
    | some t =>
      rw [Option.map_some, Option.map_some, Function.comp_apply]
      split
      · next heq =>
        -- both are the first struct of the name
        have hfirst : t.name = name := by simpa using List.find?_some ht
        rw [Env.structNamed?, ← heq, hfirst, ht] at hs
        cases hs
        rw [StructType.type, StructType.type, hcls]
      · rfl
  unfold Env.named Env.structNamed?
  dsimp only
  rw [hfind]

theorem Members.struct (h : Members env ss d) (hsd : .struct sd ∈ ss)
    (hs : d.env.structNamed? sd.name = some s)
    (h₁ : declareFields d.env s sd.fields = .ok s₁) (h₂ : declareMethods d.env s₁ sd.methods = .ok s₂) :
    Members env ss { d with env := { d.env with
      structs := d.env.structs.map fun t => if t.name = s₂.name then s₂ else t } } := by
  have hstated := h.structs s (List.mem_of_find?_eq_some hs)
  obtain ⟨vs, rfl, hvs, -, hnodup⟩ := declareFields_eq_ok h₁
  have hgrown : StructType.Stated env ss { s with fields := s.fields ++ vs } := by
    refine ⟨hnodup hstated.distinct, List.forall_mem_append.2 ⟨hstated.fields, fun v hv => ?_⟩,
      hstated.declared, hstated.lists⟩
    obtain ⟨hkind, hvoid, f, -, ht⟩ := hvs v hv
    exact ⟨hkind, hvoid, f.type, Env.typeRef_congr h.named _ ▸ ht⟩
  obtain ⟨hname, hcls⟩ := names_of_declareMethods h₂
  have hs : d.env.structNamed? s₂.name = some s := by
    have hname' : s.name = sd.name := by simpa using List.find?_some hs
    rw [hname, hname']
    exact hs
  refine ⟨fun tok name => (named_replace hs hcls tok name).trans (h.named tok name), h.functions, h.lists,
    List.forall_mem_map.2 fun t ht => ?_⟩
  split
  · exact stated_of_declareMethods hgrown hsd h.named h₂
  · exact h.structs t ht

theorem Members.step {s : Stmt} (hmem : s ∈ ss)
    (hstep : Declares modules d s d') (h : Members env ss d) : Members env ss d' := by
  cases hstep with
  | @use u c funcs _ hfuncs =>
    have hlists := h.lists.importModule c u.path
    rw [hfuncs] at hlists
    exact ⟨h.named, h.functions, hlists, h.structs⟩
  | struct hs h₁ h₂ => exact h.struct hmem hs h₁ h₂
  | func hsig hadd =>
    refine ⟨h.named, List.forall_mem_append.2 ⟨h.functions, List.forall_mem_singleton.2 ?_⟩, ?_, h.structs⟩
    · exact ⟨⟨Env.signature_congr h.named _ ▸ hsig, rfl⟩, hmem⟩
    · rw [List.map_append, List.map_singleton]
      exact h.lists.concat rfl hadd
  | nothing => exact h

theorem members_of_declared
    (h : declared options funcs file p = .ok d) :
    ∃ env, Means options p env ∧ Members env p.stmts d := by
  obtain ⟨aliases, hmeans, -, h⟩ := declared_eq_ok h
  refine ⟨_, hmeans, of_declareMembers Members.step ⟨fun _ _ => rfl, List.forall_mem_nil _,
    Registry.lists_nil _, List.forall_mem_map.2 fun _ _ => ?_⟩ h⟩
  exact ⟨List.nodup_nil, List.forall_mem_nil _, List.forall_mem_nil _, Registry.lists_nil _⟩

end ClassUnit

end Classwright
