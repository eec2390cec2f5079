import Classwright.Proofs.Body.Constants
import Classwright.Proofs.Unit.ClassNames

/-!
Constants are written once. Every static final field of the classes of a program is written to by one
instruction of all its methods, which is in the class initializer (`ClassUnit.constants_written_once`).
-/

namespace Classwright

namespace ClassUnit

open Gen

variable {d : Declared} {p : Program} {env : Env} {b b' : Body} {globals : List Var} {name : Text}

/-! ### Methods besides the class initializer -/

/-- Code that declares no fields and starts where all globals of a name are constants does not write
to them. -/
theorem writes_eq_nil (hm : Writes env name n False m)
    (htop : env.topLevel = false) (hdepth : n ≤ b.scopes.vars.length) (hcode : b.code = {})
    (hglobals : b.globals = #[])
    (hconst : ∀ v ∈ b.inScope, v.kind = .global → v.name = name → v.const = true)
    (h : m b = .ok ((), b')) : b'.writes env.mainClass name = [] := by
  have hguarded : b.Guarded name := fun v hv hkind hname => .inl (hconst v hv hkind hname)
  obtain ⟨-, honce⟩ := hm b hdepth nofun hguarded () b' h
  have hglobals' : b'.globals = #[] := (honce.topLevel htop).trans hglobals
  have hloose : ¬ b'.Loose name := by
    rintro ⟨f, hf, -⟩
    rw [hglobals'] at hf
    exact absurd hf (Array.not_mem_empty f)
  obtain ⟨new, hwrites, hdeclares⟩ := honce.writes hloose
  rw [Body.declares, Body.declares, hglobals, hglobals'] at hdeclares
  rw [hwrites, ← List.self_eq_append_right.1 hdeclares, Body.writes, hcode]
  rfl

theorem writes_declareParams (hn : 2 ≤ n) (ps : List Binding) (ts : List Ty) :
    Writes env name n False (declareParams env ps ts) := by
  induction ps generalizing ts with
  | nil => exact (quiet_pure _).writes
  | cons p ps ih =>
    cases ts with
    | nil => exact (quiet_pure _).writes
    | cons t ts =>
      rw [declareParams]
      exact (composes_writes.discard (writes_declareLocal hn _ _ _ _)).bind fun _ => ih ts

theorem writes_functionBody (hn : 2 ≤ n) (f : DeclaredFunction) :
    Writes env name n False (functionBody env f) := by
  refine (writes_declareParams hn _ _).bind fun _ => (writes_stmts (by omega) _).bind fun _ => ?_
  refine quiet_isReachable.writes.bind fun reached => ?_
  split
  · exact composes_writes.optional (quiet_refuse (P := fun _ _ => True) trivial _).writes fun _ =>
      (quiet_edit fun c => c.quiet_ret _).writes
  · exact (quiet_pure _).writes

theorem writes_initFields (s : StructType) (fs : List Var) :
    Writes env name n False (initFields s fs) := by
  induction fs with
  | nil => exact (quiet_pure _).writes
  | cons f fs ih =>
    rw [initFields]
    refine (writes_alloc f.type).bind fun slot => (writes_emit rfl).bind fun _ => ?_
    refine (writes_emit rfl).bind fun _ => ?_
    exact (quiet_field (by decide) _ _).writes.bind fun _ => ih

theorem writes_constructorBody (s : StructType) :
    Writes env name n False (constructorBody s) := by
  refine (writes_emit rfl).bind fun _ => (quiet_invoke _ _ _ _).writes.bind fun _ => ?_
  exact (writes_initFields s _).bind fun _ => (quiet_edit fun c => c.quiet_ret _).writes

theorem writes_entryBody (f : Function) : Writes env name n False (entryBody f) := by
  refine (composes_writes.discard (writes_alloc _)).bind fun _ => ?_
  exact (quiet_invoke _ _ _ _).writes.bind fun _ => (quiet_edit fun c => c.quiet_ret _).writes

/-- Only the class initializer writes to a name whose globals are all constants. -/
theorem Ordinary.writes_eq_nil (hd : d.env.IsOuter) (hmembers : Members env p.stmts d)
    (hconst : ∀ globals, Globals d p globals →
      ∀ v ∈ globals, v.kind = .global → v.name = name → v.const = true)
    {access : Access} (h : Ordinary d p access n desc b) :
    b.writes d.env.mainClass name = [] := by
  obtain ⟨haccess, h⟩ := h
  have hfunction (env' : Env) {f : DeclaredFunction} {globals : List Var}
      (hfields : ∀ s, env'.self = some s → ∀ v ∈ s.fields, v.kind = .field)
      (htop : env'.topLevel = false) (hg : Globals d p globals)
      (hb : functionBody env' f (functionStart env' globals f) = .ok ((), b)) :
      b.writes env'.mainClass name = [] := by
    obtain ⟨outer, hvars, hne, hall⟩ := vars_functionStart (hconst globals hg) (fun s hs v hv =>
      ⟨hfields s hs v hv, fun hkind => by rw [hfields s hs v hv] at hkind; cases hkind⟩) f
    refine ClassUnit.writes_eq_nil (writes_functionBody (Nat.le_refl 2) f) htop ?_ rfl rfl ?_ hb
    · rw [hvars, List.length_cons]
      exact Nat.succ_le_succ (List.length_pos_iff.2 hne)
    · intro v hv
      rw [Body.inScope, hvars] at hv
      obtain ⟨vs, hvs, hv⟩ := List.mem_flatten.1 hv
      rcases List.mem_cons.1 hvs with rfl | hvs
      · cases hv
      · exact hall vs hvs v hv
  cases h with
  | initializer => exact absurd rfl haccess
  | function hg hf hb =>
    refine hfunction d.env (fun s hs => ?_) hd.topLevel hg hb
    rw [hd.self] at hs
    cases hs
  | method hg hs hf hb =>
    refine hfunction { d.env with self := some _ } ?_ hd.topLevel hg hb
    rintro _ ⟨⟩ v hv
    exact ((hmembers.structs _ hs).fields v hv).1
  | constructor hg hs hb =>
    refine ClassUnit.writes_eq_nil (writes_constructorBody _) hd.topLevel (Nat.zero_le _) rfl rfl ?_ hb
    intro v hv
    rw [Body.inScope] at hv
    obtain ⟨vs, hvs, hv⟩ := List.mem_flatten.1 hv
    rcases List.mem_cons.1 hvs with rfl | hvs
    · cases hv
    · cases List.mem_singleton.1 hvs
      exact hconst _ hg v hv
  | entry hf hvoid hb =>
    refine ClassUnit.writes_eq_nil (writes_entryBody _) hd.topLevel (Nat.zero_le _) rfl rfl ?_ hb
    intro v hv
    cases hv

/-! ### The class initializer -/

theorem writes_topLevelBody (hn : 1 ≤ n) (ss : List Stmt) :
    Writes env name n False (topLevelBody env ss) := by
  induction ss with
  | nil => exact (quiet_pure _).writes
  | cons s ss ih =>
    rcases topLevelBody_cons env s ss with h | h
    · rwa [h]
    · rw [h]
      exact (writes_stmt hn s).bind fun _ => ih

/-- A name that one of a list of fields has. -/
theorem filter_name_eq {fs : List Field} (hnodup : (fs.map (·.name)).Nodup) (hf : f ∈ fs) :
    fs.filter (·.name = f.name) = [f] := by
  obtain ⟨before, after, rfl⟩ := List.append_of_mem hf
  rw [List.map_append, List.map_cons, List.nodup_append, List.nodup_cons] at hnodup
  obtain ⟨-, ⟨hafter, -⟩, hbefore⟩ := hnodup
  rw [List.filter_append, List.filter_cons_of_pos (by simp), List.filter_eq_nil_iff.2,
    List.filter_eq_nil_iff.2, List.nil_append]
  · intro g hg hname
    exact hafter (of_decide_eq_true hname ▸ List.mem_map_of_mem hg)
  · intro g hg hname
    exact hbefore _ (List.mem_map_of_mem hg) _ (.head _) (of_decide_eq_true hname)

/-- Top level code writes to a constant where it declares it, and its variable is a constant. -/
theorem of_constant (hd : d.env.IsOuter)
    (h : topLevelBody { d.env with topLevel := true } p.stmts staticStart = .ok ((), b)) {f : Field}
    (hf : f ∈ b.globals) (hconst : f.isConst = true) :
    b.writes d.env.mainClass f.name = [⟨d.env.mainClass, f.name, f.desc, false⟩] ∧
      ∀ v ∈ b.scopes.vars.headD [], v.kind = .global → v.name = f.name → v.const = true := by
  obtain ⟨-, vs, hvars, hlisted⟩ := of_topLevelBody h hd.self rfl
  have hnodup : (b.globals.toList.map (·.name)).Nodup := by
    have := hlisted.nodup
    rwa [hlisted.names, List.nodup_reverse] at this
  have hfilter := filter_name_eq hnodup (Array.mem_toList_iff.2 hf)
  have hloose : ¬ b.Loose f.name := by
    rintro ⟨g, hg, hname, hchanges⟩
    have hmem : g ∈ b.globals.toList.filter (·.name = f.name) :=
      List.mem_filter.2 ⟨Array.mem_toList_iff.2 hg, decide_eq_true hname⟩
    rw [hfilter, List.mem_singleton] at hmem
    rw [hmem, hconst] at hchanges
    cases hchanges
  have hstart : staticStart.Guarded f.name := fun _ hv => absurd hv List.not_mem_nil
  obtain ⟨hguarded, honce⟩ := writes_topLevelBody (Nat.le_refl 1) p.stmts staticStart (Nat.le_refl _)
    nofun hstart () b h
  refine ⟨?_, fun v hv hkind hname => ?_⟩
  · obtain ⟨new, hwrites, hdeclares⟩ := honce.writes hloose
    obtain rfl : b.declares d.env.mainClass f.name = new := hdeclares
    rw [Body.declares, hfilter] at hwrites
    exact hwrites
  · refine (hguarded v ?_ hkind hname).resolve_right hloose
    rw [hvars] at hv
    rw [Body.inScope, hvars]
    exact List.mem_append_left _ hv

/-- A constant that is declared outside all scopes but the outermost becomes a static final field. -/
theorem after_declareConst (tok : Token) (t : Ty) (htop : env.topLevel = true)
    (hdepth : b.scopes.vars.length = 1) :
    After (do
      let v ← declare env tok name t true
      store v) b fun _ b' => ∃ f ∈ b'.globals, f.name = name ∧ f.isConst = true := by
  have hstatic : ((Access.static ||| Access.final).has .static &&
      (Access.static ||| Access.final).has .final) = true := by decide
  refine .bind ((after_declare tok name t true).mono fun v b₁ h => ?_)
  cases h with
  | «local» hvars _ houter =>
    rw [hvars, List.length_cons, Nat.add_eq_right, List.length_eq_zero_iff] at hdepth
    exact absurd hdepth (houter htop)
  | global _ _ _ hkind _ _ _ _ _ hglobals =>
    unfold store
    rw [hkind]
    refine (after_field _ _ _ _).mono fun _ b₂ h₂ => ?_
    obtain ⟨pop, push, -, rfl⟩ := h₂
    refine ⟨⟨_, name, t.descriptor⟩, ?_, rfl, hstatic⟩
    dsimp only
    rw [hglobals]
    exact Array.mem_push_self

theorem after_varDecl (htop : env.topLevel = true) (hconst : decl.const = true)
    (hb : b.Guarded decl.name) (hdepth : b.scopes.vars.length = 1) :
    After (varDecl env decl) b fun _ b' => ∃ f ∈ b'.globals, f.name = decl.name ∧ f.isConst = true := by
  have hvalue : Writes env decl.name 1 False (declaredValue env decl) :=
    composes_writes.declaredValue decl.at_true ((writesPass env _).expr decl.value.at_true _)
  rw [varDecl_eq, hconst]
  refine .bind ((hvalue b (Nat.le_of_eq hdepth.symm) False.elim hb).mono fun t b₁ h₁ => ?_)
  exact after_declareConst _ _ htop (h₁.2.depth.trans hdepth)

/-- Every constant of top level code becomes a static final field. -/
theorem after_topLevelBody (htop : env.topLevel = true)
    (hconst : decl.const = true) (hdecl : .var decl ∈ ss) (hb : b.Guarded decl.name)
    (hdepth : b.scopes.vars.length = 1) :
    After (topLevelBody env ss) b fun _ b' =>
      ∃ f ∈ b'.globals, f.name = decl.name ∧ f.isConst = true := by
  induction ss generalizing b with
  | nil => cases hdecl
  | cons s ss ih =>
    rcases List.mem_cons.1 hdecl with rfl | hdecl
    · have hcons : topLevelBody env (.var decl :: ss) =
          varDecl env decl >>= fun _ => topLevelBody env ss := by
        rw [topLevelBody, stmt]
        all_goals exact fun _ => Stmt.noConfusion
      have hstmt : Writes env decl.name 1 False (varDecl env decl) := (writesPass env _).varDecl decl.at_true
      rw [hcons]
      refine .bind fun _ b₁ h₁ => ?_
      obtain ⟨f, hf, hname⟩ := after_varDecl htop hconst hb hdepth _ b₁ h₁
      obtain ⟨hb₁, honce⟩ := hstmt b (Nat.le_of_eq hdepth.symm) False.elim hb _ b₁ h₁
      have hrest : Writes env decl.name 1 False (topLevelBody env ss) :=
        writes_topLevelBody (Nat.le_refl 1) ss
      refine (hrest b₁ (Nat.le_of_eq (honce.depth.trans hdepth).symm) False.elim hb₁).mono
        fun _ b₂ h₂ => ⟨f, ?_, hname⟩
      exact Array.mem_toList_iff.1 (h₂.2.globals.subset (Array.mem_toList_iff.2 hf))
    · rcases topLevelBody_cons env s ss with h | h
      · rw [h]
        exact ih hdecl hb hdepth
      · rw [h]
        have hstmt : Writes env decl.name 1 False (stmt env s) := writes_stmt (Nat.le_refl 1) s
        refine .bind ((hstmt b (Nat.le_of_eq hdepth.symm) False.elim hb).mono fun _ b₁ h₁ => ?_)
        exact ih hdecl h₁.1 (h₁.2.depth.trans hdepth)

/-! ### Classes -/

/-- The methods of a class are made from bodies, in their order. -/
def MadeFrom (d : Declared) (p : Program) (c : ClassFile) (bs : List Body) : Prop :=
  List.Forall₂ (fun m b => Written d p m.access m.name m.desc b ∧ Makes b m) c.methods.toList bs

/-- Where the methods of a class, made from bodies, write to a static field: the class, the method and
the field that the instruction names. -/
def methodWrites (cls name : Text) (c : ClassFile) (bs : List Body) :
    List (ClassFile × Text × MemberRef) :=
  (c.methods.toList.zip bs).flatMap fun x => (x.2.writes cls name).map fun r => (c, x.1.name, r)

/-- Where the methods of classes write to a static field. -/
def staticWrites (cls name : Text) (cs : List ClassFile) (bodies : List (List Body)) :
    List (ClassFile × Text × MemberRef) :=
  (cs.zip bodies).flatMap fun x => methodWrites cls name x.1 x.2

theorem exists_forall₂ (h : ∀ a ∈ as, ∃ b, R a b) :
    ∃ bs, List.Forall₂ R as bs := by
  induction as with
  | nil => exact ⟨[], .nil⟩
  | cons a as ih =>
    obtain ⟨⟨b, hb⟩, has⟩ := List.forall_mem_cons.1 h
    obtain ⟨bs, hbs⟩ := ih has
    exact ⟨b :: bs, .cons hb hbs⟩

/-- The fields of structs are no constants. -/
theorem IsStruct.isConst_eq_false (h : IsStruct env globals s c) :
    ∀ f ∈ c.fields, f.isConst = false := by
  have hpub : (Access.pub.has .static && Access.pub.has .final) = false := by decide
  intro f hf
  rw [← Array.mem_toList_iff, h.fields] at hf
  obtain ⟨v, -, rfl⟩ := List.mem_map.1 hf
  exact hpub

/-- The globals that functions see are constants where the fields are. -/
theorem const_of_globals (hd : d.env.IsOuter)
    (hb : topLevelBody { d.env with topLevel := true } p.stmts staticStart = .ok ((), b))
    (hf : f ∈ b.globals) (hconst : f.isConst = true) :
    ∀ globals, Globals d p globals → ∀ v ∈ globals, v.kind = .global → v.name = f.name →
      v.const = true := by
  intro globals hg
  cases hg with
  | none => exact List.forall_mem_nil _
  | main _ hb' =>
    cases hb.symm.trans hb'
    exact (of_constant hd hb hf hconst).2

theorem exists_madeFrom (hc : IsMade (Ordinary d p) c) :
    ∃ bs, MadeFrom d p c bs ∧
      ∀ x ∈ c.methods.toList.zip bs, Ordinary d p x.1.access x.1.name x.1.desc x.2 := by
  obtain ⟨bs, hbs⟩ := exists_forall₂ fun m hm => hc m (Array.mem_toList_iff.1 hm)
  exact ⟨bs, hbs.imp fun _ _ h => ⟨h.1.2, h.2⟩, fun x hx => (List.forall₂_zip hbs hx).1⟩

section
variable (hd : d.env.IsOuter) (hmembers : Members env p.stmts d)
  (hb : topLevelBody { d.env with topLevel := true } p.stmts staticStart = .ok ((), b))
include hd hmembers hb

/-- The methods of a class that are no class initializers do not write to constants. -/
theorem exists_bodies {c : ClassFile} (hc : IsMade (Ordinary d p) c) :
    ∃ bs, MadeFrom d p c bs ∧ ∀ f ∈ b.globals, f.isConst = true →
      ∀ x ∈ c.methods.toList.zip bs, x.2.writes d.env.mainClass f.name = [] := by
  obtain ⟨bs, hbs, hordinary⟩ := exists_madeFrom hc
  refine ⟨bs, hbs, fun f hf hconst x hx => ?_⟩
  exact (hordinary x hx).writes_eq_nil hd hmembers (const_of_globals hd hb hf hconst)

/-- The class initializer of the main class writes to every constant once, and no other method of it
does. -/
theorem exists_mainBodies (hmain : p.hasMain = true) {main : ClassFile}
    (h : IsMade (Ordinary d p) main) (hinit : IsInitializer b init) :
    ∃ bs, MadeFrom d p (withInitializer main init) bs ∧ ∀ f ∈ b.globals, f.isConst = true →
      methodWrites d.env.mainClass f.name (withInitializer main init) bs =
        [(withInitializer main init, ("<clinit>" : Text), ⟨d.env.mainClass, f.name, f.desc, false⟩)] := by
  obtain ⟨bs, hbs, hnil⟩ := exists_bodies hd hmembers hb h
  cases hinit with
  | none hempty =>
    refine ⟨bs, hbs, fun f hf hconst => ?_⟩
    have hwrites := (of_constant hd hb hf hconst).1
    rw [Body.writes, Code.statics, Array.isEmpty_iff.1 hempty] at hwrites
    cases hwrites
  | @some m hm =>
    have hlast : MadeFrom d p (withInitializer main (some m))
        (bs ++ [{ b with code := b.code.ret .void }]) := by
      unfold MadeFrom withInitializer
      dsimp only
      rw [Array.toList_push]
      refine List.rel_append hbs (.cons ⟨?_, hm.makes⟩ .nil)
      rw [hm.access, hm.name, hm.desc]
      exact .initializer hmain hb
    refine ⟨_, hlast, fun f hf hconst => ?_⟩
    have hret : Body.writes d.env.mainClass f.name { b with code := b.code.ret .void } =
        [⟨d.env.mainClass, f.name, f.desc, false⟩] := by
      rw [writes_congr (b.code.quiet_ret .void).statics_eq]
      exact (of_constant hd hb hf hconst).1
    unfold methodWrites withInitializer
    dsimp only
    rw [Array.toList_push, List.zip_append hbs.length_eq, List.flatMap_append,
      List.flatMap_eq_nil_iff.2, List.nil_append]
    · simp [hret, hm.name]
    · intro x hx
      rw [hnil f hf hconst x hx]
      rfl

/-- The constants of the main class are written once in all classes. -/
theorem exists_classBodies (hmain : p.hasMain = true) {main : ClassFile}
    (h : IsMade (Ordinary d p) main) (hinit : IsInitializer b init)
    (hstructs : ∀ c ∈ structs, IsMade (Ordinary d p) c) :
    ∃ bodies, List.Forall₂ (MadeFrom d p) (withInitializer main init :: structs) bodies ∧
      ∀ f ∈ b.globals, f.isConst = true →
        staticWrites d.env.mainClass f.name (withInitializer main init :: structs) bodies =
          [(withInitializer main init, ("<clinit>" : Text), ⟨d.env.mainClass, f.name, f.desc, false⟩)] := by
  obtain ⟨bs, hbs, hwrites⟩ := exists_mainBodies hd hmembers hb hmain h hinit
  obtain ⟨bss, hbss⟩ := exists_forall₂ fun c hc => exists_bodies hd hmembers hb (hstructs c hc)
  refine ⟨bs :: bss, .cons hbs (hbss.imp fun _ _ h => h.1), fun f hf hconst => ?_⟩
  rw [staticWrites, List.zip_cons_cons, List.flatMap_cons, hwrites f hf hconst,
    List.flatMap_eq_nil_iff.2, List.append_nil]
  intro x hx
  refine List.flatMap_eq_nil_iff.2 fun y hy => ?_
  rw [(List.forall₂_zip hbss hx).2 f hf hconst y hy]
  rfl

end

variable {options : UnitOptions} {funcs exports : Registry} {file : Text} {u : ClassUnit}

/-- Every static final field of the classes of a program is written to by one instruction of all
methods, which is in the initializer of its class; every constant of top level code is such a field of
the main class. -/
theorem constants_written_once (h : ofProgram options funcs file p = .ok (u, exports)) :
    ∃ d bodies, declared options (Registry.empty.merge funcs).1 file p = .ok d ∧
      List.Forall₂ (MadeFrom d p) u.classes bodies ∧
      (∀ c ∈ u.classes, ∀ f ∈ c.fields, f.isConst = true →
        staticWrites c.name f.name u.classes bodies =
          [(c, ("<clinit>" : Text), ⟨c.name, f.name, f.desc, false⟩)]) ∧
      ∀ decl, .var decl ∈ p.stmts → decl.const = true →
        ∃ c ∈ u.classes, c.name = u.main ∧ ∃ f ∈ c.fields, f.name = decl.name ∧ f.isConst = true := by
  obtain ⟨d, hd, -, hmain, hcs⟩ := of_ofProgram h
  have houter := isOuter_of_declared hd
  obtain ⟨env, -, hmembers⟩ := members_of_declared hd
  have hstructs {globals : List Var} {cs : List ClassFile} (hg : Globals d p globals)
      (hcs : List.Forall₂ (IsStruct d.env globals) d.env.structs cs) :
      ∀ c ∈ cs, IsMade (Ordinary d p) c ∧ ∀ f ∈ c.fields, f.isConst = false := by
    intro c hc
    obtain ⟨s, hs, hc⟩ := exists_of_forall₂ hcs hc
    exact ⟨hc.isMade hg hs, hc.isConst_eq_false⟩
  rw [hmain]
  generalize u.classes = cs at hcs ⊢
  cases hcs with
  | @main b main init structs hmain hb hIsMain hinit hcs =>
    have hall := hstructs (.main hmain hb) hcs
    obtain ⟨bodies, hbodies, hwrites⟩ := exists_classBodies houter hmembers hb hmain
      (hIsMain.isMade houter.self (.main hmain hb)) hinit fun c hc => (hall c hc).1
    have hext := extends_withInitializer main init
    have hname := hext.name.trans hIsMain.name
    have hglobals := hext.fields.trans hIsMain.fields
    refine ⟨d, bodies, hd, hbodies, fun c hc f hf hconst => ?_, fun decl hdecl hconst => ?_⟩
    · rcases List.mem_cons.1 hc with rfl | hc
      · rw [hname]
        exact hwrites f (hglobals ▸ hf) hconst
      · rw [(hall c hc).2 f hf] at hconst
        cases hconst
    · obtain ⟨f, hf, hfield⟩ := after_topLevelBody rfl hconst hdecl
        (fun _ hv => absurd hv List.not_mem_nil) rfl () b hb
      refine ⟨_, .head _, hname.trans (mainClass_of_declared hd), f, ?_, hfield⟩
      rwa [hglobals]
  | structs hmain hcs =>
    have hall := hstructs (.none hmain) hcs
    obtain ⟨bodies, hbodies⟩ := exists_forall₂ fun c hc => exists_madeFrom (hall c hc).1
    refine ⟨d, bodies, hd, hbodies.imp fun _ _ h => h.1, fun c hc f hf hconst => ?_,
      fun decl hdecl => ?_⟩
    · rw [(hall c hc).2 f hf] at hconst
      cases hconst
    · exact absurd rfl (List.any_eq_false.1 hmain _ hdecl)

/-- A source with a constant whose name is also that of a field and of a parameter. -/
def sampleConstant : Text :=
  "const k = 3\nn = k\ntype P = struct \x7b\n k: int\n def add(): int \x7b k += n\n return k \x7d\n\x7d\n"
    ++ "def f(k: int): int \x7b\n k++\n n = k\n return new P(k).add()\n\x7d\n"

theorem constants_written_once_sampleConstant :
    ∃ p u exports d bodies, Source.program sampleConstant = .ok p ∧
      ofProgram {} .builtins "constant.ix" p = .ok (u, exports) ∧
      List.Forall₂ (MadeFrom d p) u.classes bodies ∧
      ∃ c ∈ u.classes, ∃ f ∈ c.fields, f.isConst = true ∧
        staticWrites c.name f.name u.classes bodies =
          [(c, ("<clinit>" : Text), ⟨c.name, f.name, f.desc, false⟩)] := by
  have hrun : ((Source.program sampleConstant).toOption.bind fun p =>
      (ofProgram {} .builtins "constant.ix" p).toOption.map fun r =>
        r.1.classes.any fun c => c.fields.toList.any (·.isConst)) = some true := by
    decide +kernel
  obtain ⟨p, hp, hrun⟩ := Option.bind_eq_some_iff.1 hrun
  obtain ⟨⟨u, exports⟩, hu, hany⟩ := Option.map_eq_some_iff.1 hrun
  have hu := of_toOption hu
  obtain ⟨c, hc, hany⟩ := List.any_eq_true.1 hany
  obtain ⟨f, hf, hconst⟩ := List.any_eq_true.1 hany
  have hf := Array.mem_toList_iff.1 hf
  obtain ⟨d, bodies, -, hbodies, hwrites, -⟩ := constants_written_once hu
  exact ⟨p, u, exports, d, bodies, of_toOption hp, hu, hbodies, c, hc, f, hf, hconst,
    hwrites c hc f hf hconst⟩

end ClassUnit

end Classwright
