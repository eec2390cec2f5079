import Classwright.Proofs.Registry.History
import Classwright.Proofs.Unit.ClassNames

/-!
The entry point of a program. It is there if the program declares a function `main` that takes nothing
and gives nothing back, unless it sees another `main` without arguments: functions of the host come
before those of the source, and the first one is taken (`ClassUnit.entry_iff`,
`ClassUnit.entry_missing`). The entry point then calls the `main` of the program.
-/

namespace Classwright

/-- A function `main` without arguments. -/
def Function.IsMain (f : Function) : Prop := f.name = ("main" : Text) ∧ f.sig.ins = []

namespace Registry

/-- All functions of a registry are of the host. -/
def IsHost (r : Registry) : Prop := ∀ f ∈ r.all, f.isLocal = false

variable {r : Registry} {f : Function} {fs : List Function}

theorem isMain_of_found (h : Represents r fs) (hf : r.findExact? "main" [] = some f) :
    f ∈ fs ∧ f.IsMain := by
  have hmem := List.mem_of_find?_eq_some hf
  rw [h.overloads, List.mem_filter] at hmem
  refine ⟨hmem.1, by simpa using hmem.2, ?_⟩
  have hsame := List.find?_some hf
  cases hins : f.sig.ins with
  | nil => rfl
  | cons t ts => simp [hins, Ty.sameAll] at hsame

/-- The `main` that is found is one of the source where the registry has no other. -/
theorem Represents.found_iff (h : Represents r fs) :
    (∃ f, r.findExact? "main" [] = some f ∧ f.isLocal = true) ↔
      (∃ f ∈ fs, f.IsMain ∧ f.isLocal = true) ∧ ∀ f ∈ fs, f.IsMain → f.isLocal = true := by
  have hmem {g : Function} (hg : g ∈ fs) (hmain : g.IsMain) : g ∈ r.overloads "main" := by
    rw [h.overloads]
    exact List.mem_filter.2 ⟨hg, beq_iff_eq.2 hmain.1⟩
  constructor
  · rintro ⟨f, hf, hlocal⟩
    obtain ⟨hffs, hfmain⟩ := isMain_of_found h hf
    refine ⟨⟨f, hffs, hfmain, hlocal⟩, fun g hg hgmain => ?_⟩
    obtain ⟨-, before, after, hsplit, hbefore⟩ := List.find?_eq_some_iff_append.1 hf
    have hpairs := h.apart.filter (·.name == ("main" : Text))
    have hgmem := hmem hg hgmain
    rw [← h.overloads, hsplit, List.pairwise_append, List.pairwise_cons] at hpairs
    rw [hsplit, List.mem_append, List.mem_cons] at hgmem
    rcases hgmem with hgmem | rfl | hgmem
    · have := hbefore g hgmem
      simp [hgmain.2, Ty.sameAll] at this
    · exact hlocal
    · exact (hpairs.2.1.1 g hgmem (hfmain.1.trans hgmain.1.symm) (by
        rw [Function.argDescriptor, Function.argDescriptor, hfmain.2, hgmain.2])).2
  · rintro ⟨⟨f, hf, hmain, hlocal⟩, hall⟩
    have hsome : (r.findExact? "main" []).isSome = true :=
      List.find?_isSome.2 ⟨f, hmem hf hmain, by simp [hmain.2, Ty.sameAll]⟩
    obtain ⟨g, hg⟩ := Option.isSome_iff_exists.1 hsome
    obtain ⟨hgfs, hgmain⟩ := isMain_of_found h hg
    exact ⟨g, hg, hall g hgfs hgmain⟩

end Registry

namespace ClassUnit

variable {options : UnitOptions} {funcs : Registry} {file : Text} {p : Program} {d : Declared}

/-- The program declares a function `main` that takes nothing and gives nothing back. -/
def DeclaresMain (env : Env) (p : Program) : Prop :=
  ∃ decl, .func decl ∈ p.stmts ∧ decl.name = ("main" : Text) ∧ env.signature decl = .ok ⟨[], none⟩

/-! ### The functions that a program sees -/

/-- The functions of the source that a program sees are its own. -/
structure Sees (d : Declared) : Prop where
  own : ∀ f ∈ d.env.funcs.all, f.isLocal = true → ∃ g ∈ d.functions, g.fn = f
  owner : ∀ g ∈ d.functions, g.fn.owner = d.env.mainClass
  represents : ∃ fs, d.env.funcs.Represents fs

theorem Sees.step
    (hstep : Declares modules d s d') (h : Sees d) : Sees d' := by
  cases hstep with
  | @use u c funcs _ hfuncs =>
    have hkeep : (∀ f ∈ funcs.all, f.isLocal = true → ∃ g ∈ d.functions, g.fn = f) ∧
        ∃ fs, funcs.Represents fs := by
      have := Registry.of_importModule
        (Q := fun r => (∀ f ∈ r.all, f.isLocal = true → ∃ g ∈ d.functions, g.fn = f) ∧
          ∃ fs, r.Represents fs)
        (fun _ hadd h => ⟨Registry.forall_add h.1 (fun h => (Bool.false_ne_true h).elim) hadd, _,
          h.2.choose_spec.add hadd⟩)
        ⟨h.own, h.represents⟩ c u.path
      rwa [hfuncs] at this
    exact ⟨hkeep.1, h.owner, hkeep.2⟩
  | struct => exact ⟨h.own, h.owner, h.represents⟩
  | func hsig hadd =>
    obtain ⟨fs, hfs⟩ := h.represents
    refine ⟨Registry.forall_add (fun f hf hlocal => ?_) (fun _ => ?_) hadd, ?_, _, hfs.add hadd⟩
    · obtain ⟨g, hg, hfn⟩ := h.own f hf hlocal
      exact ⟨g, List.mem_append_left _ hg, hfn⟩
    · exact ⟨_, List.mem_append_right _ (.head _), rfl⟩
    · exact List.forall_mem_append.2 ⟨h.owner, List.forall_mem_singleton.2 rfl⟩
  | nothing => exact h

theorem sees_of_declared (hfuncs : funcs.IsHost)
    (h : declared options (Registry.empty.merge funcs).1 file p = .ok d) : Sees d := by
  obtain ⟨aliases, -, -, h⟩ := declared_eq_ok h
  refine of_declareMembers (fun _ => Sees.step) ⟨fun f hf hlocal => ?_, List.forall_mem_nil _, _,
    Registry.represents_empty.addAll funcs.all⟩ h
  have hhost := Registry.forall_addAll (r := .empty) (List.forall_mem_nil _) hfuncs f hf
  cases hhost.symm.trans hlocal

/-- Every function that is declared at top level is one of the program. -/
theorem exists_of_declareMembers
    (h : declareMembers modules d ss = .ok d') : (∀ f ∈ d.functions, f ∈ d'.functions) ∧
      ∀ decl, .func decl ∈ ss → ∃ f ∈ d'.functions, f.decl = decl := by
  induction ss generalizing d with
  | nil =>
    cases h
    exact ⟨fun _ => id, nofun⟩
  | cons s ss ih =>
    obtain ⟨d₁, hd₁, h⟩ := bind_eq_ok h
    obtain ⟨hkeep, hrest⟩ := ih h
    have hstep := declares_of_declareMember hd₁
    refine ⟨fun f hf => hkeep f ?_, fun decl hdecl => ?_⟩
    · cases hstep with
      | func => exact List.mem_append_left _ hf
      | _ => exact hf
    · rcases List.mem_cons.1 hdecl with rfl | hdecl
      · cases hstep with
        | func => exact ⟨_, hkeep _ (List.mem_append_right _ (.head _)), rfl⟩
        | nothing hne => exact absurd rfl (hne decl)
      · exact hrest decl hdecl

/-- A result that is void is not written in a signature. -/
theorem out_of_signature {env : Env}
    (h : env.signature decl = .ok sig) (hvoid : sig.result.isVoid = true) : sig.out = none := by
  obtain ⟨ins, -, h⟩ := bind_eq_ok h
  split at h
  · cases h
    rfl
  · obtain ⟨out, -, h⟩ := bind_eq_ok h
    cases h
    by_cases hout : out.isVoid = true
    · exact if_pos hout
    · simp [Signature.result, hout] at hvoid

section
variable (hd : declared options (Registry.empty.merge funcs).1 file p = .ok d)
  (hfuncs : funcs.IsHost)
include hd hfuncs

/-- What the entry point calls is the declared function. -/
theorem IsCalled.exists_declared {f : Function} (h : IsCalled d.env d.env.mainClass f) :
    ∃ g ∈ d.functions, g.fn = f ∧ .func g.decl ∈ p.stmts ∧ g.decl.name = ("main" : Text) ∧
      f.name = ("main" : Text) ∧ f.sig = ⟨[], none⟩ ∧ d.env.signature g.decl = .ok f.sig := by
  have hsees := sees_of_declared hfuncs hd
  obtain ⟨fs, hfs⟩ := hsees.represents
  obtain ⟨env, -, hmembers⟩ := members_of_declared hd
  obtain ⟨hmem, hname, hins⟩ := Registry.isMain_of_found hfs h.found
  obtain ⟨g, hg, rfl⟩ := hsees.own f (hfs.perm.mem_iff.2 hmem) h.isLocal
  obtain ⟨hstated, hdecl⟩ := hmembers.functions g hg
  have hsig := (Env.signature_congr hmembers.named g.decl).trans hstated.sig
  refine ⟨g, hg, rfl, hdecl, hstated.name.symm.trans hname, hname, ?_, hsig⟩
  rw [← hins, ← out_of_signature hsig h.isVoid]

/-- The entry point has a function to call where the program declares one and sees no other. -/
theorem exists_isCalled_iff : (∃ f, IsCalled d.env d.env.mainClass f) ↔
    DeclaresMain d.env p ∧ ∀ f ∈ d.env.funcs.all, f.IsMain → f.isLocal = true := by
  have hsees := sees_of_declared hfuncs hd
  obtain ⟨fs, hfs⟩ := hsees.represents
  have hmem {f : Function} : f ∈ d.env.funcs.all ↔ f ∈ fs := hfs.perm.mem_iff
  simp only [hmem]
  constructor
  · rintro ⟨f, hf⟩
    obtain ⟨g, -, -, hdecl, hname, -, hempty, hsig⟩ := hf.exists_declared hd hfuncs
    exact ⟨⟨g.decl, hdecl, hname, hempty ▸ hsig⟩, (hfs.found_iff.1 ⟨f, hf.found, hf.isLocal⟩).2⟩
  · rintro ⟨⟨decl, hdecl, hname, hsig⟩, hall⟩
    obtain ⟨env, -, hmembers⟩ := members_of_declared hd
    obtain ⟨aliases, -, -, hdeclare⟩ := declared_eq_ok hd
    obtain ⟨g, hg, rfl⟩ := (exists_of_declareMembers hdeclare).2 decl hdecl
    have hstated := (hmembers.functions g hg).1
    have hgsig : g.fn.sig = ⟨[], none⟩ := by
      rw [Env.signature_congr hmembers.named, hstated.sig] at hsig
      exact Except.ok.inj hsig
    have hgmain : g.fn.IsMain := ⟨hstated.name.trans hname, by rw [hgsig]⟩
    have hlisted := List.mem_map_of_mem (f := (·.fn)) hg
    have hgmem := hmem.1 (Registry.mem_of_mem_overloads (hmembers.lists.mem hlisted))
    obtain ⟨f, hfound, hlocal⟩ :=
      hfs.found_iff.2 ⟨⟨g.fn, hgmem, hgmain, hmembers.lists.isLocal hlisted⟩, hall⟩
    obtain ⟨hffs, hfmain⟩ := Registry.isMain_of_found hfs hfound
    obtain ⟨g', hg', rfl⟩ := hsees.own f (hmem.2 hffs) hlocal
    -- Both are declared, so they are one.
    have heq : g'.fn = g.fn := by
      by_contra hne
      have : Std.Symm fun f g : Function => f.name = g.name → f.argDescriptor ≠ g.argDescriptor :=
        ⟨fun _ _ h hname hargs => h hname.symm hargs.symm⟩
      refine hmembers.lists.apart.forall (List.mem_map_of_mem (f := (·.fn)) hg') hlisted hne
        (hfmain.1.trans hgmain.1.symm) ?_
      rw [Function.argDescriptor, Function.argDescriptor, hfmain.2, hgmain.2]
    exact ⟨g'.fn, hfound, hlocal, hsees.owner g' hg', by rw [heq, hgsig]; rfl⟩

end

/-! ### Entry points in classes -/

/-- The class and the method of an entry point: it calls the function `main` of its class. -/
structure IsEntryOf (cls : Text) (c : ClassFile) (m : Method) : Prop where
  name : c.name = cls
  access : m.access = Access.pub ||| Access.static
  code : ∃ b, Makes b m ∧ b.code.instrs.toList =
    [⟨.invokestatic, .member ⟨cls, "main", "()V", false⟩ 0 0⟩, ⟨.returnVoid, .plain⟩]
  target : (("main", "()V") : Text × Text) ∈ keys c

theorem instrs_of_entryBody (hname : f.name = ("main" : Text))
    (hsig : f.sig = ⟨[], none⟩) (h : entryBody f staticStart = .ok ((), b)) :
    b.code.instrs.toList =
      [⟨.invokestatic, .member ⟨f.owner, "main", "()V", false⟩ 0 0⟩, ⟨.returnVoid, .plain⟩] := by
  have hdesc : Signature.ofDescriptor (⟨[], none⟩ : Signature).descriptor = .ok ⟨[], none⟩ :=
    Signature.ofDescriptor_descriptor (by decide)
  have hinvoke (c : Code) :
      c.invoke .invokestatic ⟨f.owner, "main", (⟨[], none⟩ : Signature).descriptor, false⟩ =
        .ok (c.emit ⟨.invokestatic, .member ⟨f.owner, "main", "()V", false⟩ 0 0⟩) := by
    rw [Code.invoke, hdesc]
    rfl
  simp only [entryBody, hname, hsig, Gen.invoke, hinvoke] at h
  cases h
  rfl

/-- Only main classes have entry points. -/
theorem AreClasses.of_entry (h : AreClasses d p cs)
    (hc : c ∈ cs) (hm : m ∈ c.methods) (hkey : (m.name, m.desc) = entryKey) :
    c.name = d.env.mainClass ∧ (∀ f ∈ d.functions, key f ∈ keys c) ∧
      ∃ f b, IsCalled d.env d.env.mainClass f ∧ entryBody f staticStart = .ok ((), b) ∧
        IsMethod (Access.pub ||| Access.static) "main" "([Ljava/lang/String;)V" b m := by
  have hfunctions {fs : List DeclaredFunction} {ms : List Method} {env : Env} {globals : List Var}
      (hms : List.Forall₂ (IsFunction env globals) fs ms) : m ∉ ms := by
    intro hmem
    have := List.mem_map_of_mem (f := fun m => (m.name, m.desc)) hmem
    rw [keys_of_functions hms, hkey] at this
    obtain ⟨f, -, hf⟩ := List.mem_map.1 this
    exact key_ne_entryKey f hf
  have hstructs {globals : List Var} {cs : List ClassFile}
      (hcs : List.Forall₂ (IsStruct d.env globals) d.env.structs cs) (hc : c ∈ cs) : False := by
    obtain ⟨s, -, hc⟩ := exists_of_forall₂ hcs hc
    obtain ⟨b, m', ms, hmethods, -, hm', hms⟩ := hc.methods
    rw [← Array.mem_toList_iff, hmethods] at hm
    rcases List.mem_cons.1 hm with rfl | hm
    · rw [hm'.name] at hkey
      exact absurd (Prod.mk.inj hkey).1 (by decide)
    · exact hfunctions hms hm
  cases h with
  | structs _ hcs => exact (hstructs hcs hc).elim
  | @main b₀ c₀ init _ _ _ hc₀ hinit hcs =>
    rcases List.mem_cons.1 hc with rfl | hc
    · have hext := extends_withInitializer c₀ init
      obtain ⟨ms, entry, hmethods, hms, hentry⟩ := hc₀.methods
      rw [← Array.mem_toList_iff, hext.methods, hmethods] at hm
      refine ⟨hext.name.trans hc₀.name, fun f hf => ?_, ?_⟩
      · rw [hext.keys_eq, keys, hmethods, List.map_append, keys_of_functions hms]
        exact List.mem_append_left _ (List.mem_append_left _ (List.mem_map_of_mem hf))
      · rcases List.mem_append.1 hm with hm | hm
        · rcases List.mem_append.1 hm with hm | hm
          · exact absurd hm (hfunctions hms)
          · cases hentry with
            | none => cases hm
            | some hf hb hm' => exact ⟨_, _, hf, hb, List.mem_singleton.1 hm ▸ hm'⟩
        · cases hinit with
          | none => cases hm
          | some hm' =>
            rw [List.mem_singleton.1 hm, hm'.name] at hkey
            exact absurd (Prod.mk.inj hkey).1 (by decide)
    · exact (hstructs hcs hc).elim

theorem AreClasses.exists_entry (h : AreClasses d p cs)
    (hmain : p.hasMain = true) (hf : IsCalled d.env d.env.mainClass f) :
    ∃ c ∈ cs, ∃ m ∈ c.methods, (m.name, m.desc) = entryKey := by
  cases h with
  | structs hnot => cases hnot.symm.trans hmain
  | @main b c init _ _ _ hc _ _ =>
    obtain ⟨ms, entry, hmethods, -, hentry⟩ := hc.methods
    cases hentry with
    | none hnone => exact absurd hf (hnone f)
    | @some _ _ m _ _ hm =>
      refine ⟨_, .head _, m, ?_, by rw [hm.name, hm.desc]; rfl⟩
      rw [← Array.mem_toList_iff, (extends_withInitializer c init).methods, hmethods]
      exact List.mem_append_left _ (List.mem_append_right _ (.head _))

/-! ### Sources -/

theorem host_of_startRegistry
    (himports : ∀ r ∈ imports, r.IsHost)
    (h : startRegistry config imports = .ok funcs) : funcs.IsHost := by
  have hmodules (names : List Text) {r r' : Registry} (hr : r.IsHost)
      (h : config.importAll r names = .ok r') : r'.IsHost := by
    induction names generalizing r with
    | nil =>
      cases h
      exact hr
    | cons name names ih =>
      have hstep := Registry.of_importModule (Q := Registry.IsHost)
        (fun _ hadd h => Registry.forall_add h rfl hadd) hr config name
      rw [Config.importAll] at h
      split at h
      · cases h
      · next heq => exact ih (by rwa [heq] at hstep) h
  unfold startRegistry at h
  split at h
  · cases h
  · next r hr =>
    replace hr := hmodules _ (by unfold Registry.IsHost; decide +kernel) hr
    induction imports generalizing r with
    | nil =>
      cases h
      exact hr
    | cons i is ih =>
      obtain ⟨hi, his⟩ := List.forall_mem_cons.1 himports
      have hstep := Registry.forall_addAll hr hi
      rw [addImports] at h
      split at h
      · cases h
      · next heq => exact ih his _ h (by rwa [← Registry.merge, heq] at hstep)

variable {config : Config} {imports : List Registry} {src : Text} {u : ClassUnit} {exports : Registry}

/-- The main class has an entry point where the program declares a function `main` that takes nothing
and gives nothing back, and sees no `main` without arguments of the host. The entry point calls the
function of the program. -/
theorem entry_iff (himports : ∀ r ∈ imports, r.IsHost)
    (h : ofSource config imports file src = .ok (u, exports)) :
    ∃ p funcs d, Source.program src = .ok p ∧ startRegistry config imports = .ok funcs ∧
      declared { package := config.package, modules := some config } (Registry.empty.merge funcs).1
        file p = .ok d ∧
      ((∃ c ∈ u.classes, c.name = u.main ∧ ∃ m ∈ c.methods, (m.name, m.desc) = entryKey) ↔
        DeclaresMain d.env p ∧ ∀ f ∈ d.env.funcs.all, f.IsMain → f.isLocal = true) ∧
      ∀ c ∈ u.classes, ∀ m ∈ c.methods, (m.name, m.desc) = entryKey → IsEntryOf u.main c m := by
  obtain ⟨funcs, hfuncs, h⟩ := bind_eq_ok h
  obtain ⟨p, hp, h⟩ := bind_eq_ok h
  obtain ⟨d, hd, -, hmain, hcs⟩ := of_ofProgram h
  have hhost := host_of_startRegistry himports hfuncs
  rw [← mainClass_of_declared hd] at hmain
  refine ⟨p, funcs, d, hp, hfuncs, hd, ?_, fun c hc m hm hkey => ?_⟩
  · rw [← exists_isCalled_iff hd hhost]
    constructor
    · rintro ⟨c, hc, -, m, hm, hkey⟩
      obtain ⟨-, -, f, b, hf, -⟩ := hcs.of_entry hc hm hkey
      exact ⟨f, hf⟩
    · rintro ⟨f, hf⟩
      obtain ⟨g, -, -, hdecl, -⟩ := hf.exists_declared hd hhost
      obtain ⟨c, hc, m, hm, hkey⟩ := hcs.exists_entry (List.any_eq_true.2 ⟨_, hdecl, rfl⟩) hf
      exact ⟨c, hc, (hcs.of_entry hc hm hkey).1.trans hmain.symm, m, hm, hkey⟩
  · obtain ⟨hname, hkeys, f, b, hf, hb, hm⟩ := hcs.of_entry hc hm hkey
    obtain ⟨g, hg, rfl, -, -, hmainName, hsig, -⟩ := hf.exists_declared hd hhost
    have hcode := instrs_of_entryBody hmainName hsig hb
    rw [hf.owner, ← hmain] at hcode
    refine ⟨hname.trans hmain.symm, hm.access, ⟨b, hm.makes, hcode⟩, ?_⟩
    have htarget := hkeys g hg
    rwa [key, hmainName, hsig] at htarget

/-- Whether a class has an entry point. -/
def hasEntry (c : ClassFile) : Bool := c.methods.any fun m => decide ((m.name, m.desc) = entryKey)

/-- A source with an entry point, and a variable of the top level that its function uses. -/
def sampleEntry : Text :=
  "n = 1\ndef main(a: int): int \x7b return a \x7d\ndef main() \x7b n = main(n) \x7d\n"

theorem entry_iff_sampleEntry :
    ∃ u exports, ofSource {} [] "entry.ix" sampleEntry = .ok (u, exports) ∧
      ∃ c ∈ u.classes, ∃ m ∈ c.methods, IsEntryOf u.main c m := by
  have hrun : ((ofSource {} [] "entry.ix" sampleEntry).toOption.any fun r =>
      r.1.classes.any hasEntry) = true := by
    decide +kernel
  obtain ⟨⟨u, exports⟩, hu, hrun⟩ := (Option.any_eq_true _ _).1 hrun
  obtain ⟨c, hc, hentry⟩ := List.any_eq_true.1 hrun
  obtain ⟨m, hm, hkey⟩ := Array.any_eq_true'.1 hentry
  obtain ⟨-, -, -, -, -, -, -, hall⟩ := entry_iff (List.forall_mem_nil _) (of_toOption hu)
  exact ⟨u, exports, of_toOption hu, c, hc, m, hm, hall c hc m hm (of_decide_eq_true hkey)⟩

/-- A source that has an entry point alone has none where it sees the `main` of another source. -/
theorem entry_missing :
    ∃ lib r alone u exports exports', ofSource {} [] "lib.ix" "pub def main() \x7b \x7d" = .ok (lib, r) ∧
      ofSource {} [] "m.ix" "def main() \x7b \x7d" = .ok (alone, exports) ∧
      ofSource {} [r] "m.ix" "def main() \x7b \x7d" = .ok (u, exports') ∧
      alone.classes.any hasEntry = true ∧ u.classes.any hasEntry = false := by
  have hrun : ((ofSource {} [] "lib.ix" "pub def main() \x7b \x7d").toOption.any fun l =>
      (ofSource {} [] "m.ix" "def main() \x7b \x7d").toOption.any fun a =>
        (ofSource {} [l.2] "m.ix" "def main() \x7b \x7d").toOption.any fun r =>
          a.1.classes.any hasEntry && !r.1.classes.any hasEntry) = true := by
    decide +kernel
  obtain ⟨⟨lib, r⟩, hlib, hrun⟩ := (Option.any_eq_true _ _).1 hrun
  obtain ⟨⟨alone, exports⟩, halone, hrun⟩ := (Option.any_eq_true _ _).1 hrun
  obtain ⟨⟨u, exports'⟩, hu, hrun⟩ := (Option.any_eq_true _ _).1 hrun
  rw [Bool.and_eq_true, Bool.not_eq_true'] at hrun
  exact ⟨lib, r, alone, u, exports, exports', of_toOption hlib, of_toOption halone, of_toOption hu,
    hrun⟩

end ClassUnit

end Classwright
