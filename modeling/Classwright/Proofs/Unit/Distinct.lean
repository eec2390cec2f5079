import Classwright.Proofs.Unit.Frames

/-!
The members of the classes of a program. No class has two methods with one name and one descriptor, or
two fields with one name (`ClassUnit.members_distinct`). Functions of one name differ in the descriptors
of their arguments, and those can be read off the descriptor of the method as long as no name of a class
has a semicolon in it; without that, results can make up for arguments
(`ClassUnit.members_not_distinct`).
-/

namespace Classwright

/-! ### Descriptors -/

namespace Ty

/-- The descriptor of a value is a letter or the name of a class up to a semicolon. -/
theorem descriptor_cases {t : Ty} (ht : t.isValue = true) (hplain : t.isPlain = true) :
    (∃ p : Prim, t.descriptor = p.descriptor) ∨
      ∃ name, ascii ';' ∉ name ∧ t.descriptor = "L" ++ name ++ ";" := by
  match t with
  | .prim p => exact .inl ⟨p, rfl⟩
  | .cls name => exact .inr ⟨name, isPlain_cls.1 hplain, by rw [descriptor]⟩
  | .null | .union ts => exact .inr ⟨"java/lang/Object", by decide, by rw [descriptor]; rfl⟩
  | .nullable t =>
    rw [descriptor]
    exact descriptor_cases ht hplain
  | .method ins out => cases ht

/-- A descriptor can be told from what follows it. -/
theorem descriptor_append_inj {t u : Ty} (ht : t.isValue = true ∧ t.isPlain = true)
    (hu : u.isValue = true ∧ u.isPlain = true) (h : t.descriptor ++ r = u.descriptor ++ r') :
    t.descriptor = u.descriptor ∧ r = r' := by
  have hletter : ∀ (p : Prim) (name r r' : Text), p.descriptor ++ r ≠ "L" ++ name ++ ";" ++ r' := by
    intro p name r r' h
    have hhead := congrArg List.head? h
    cases p <;> cases hhead
  rcases descriptor_cases ht.1 ht.2 with ⟨p, hp⟩ | ⟨name, hname, hcls⟩
  · rcases descriptor_cases hu.1 hu.2 with ⟨q, hq⟩ | ⟨name', -, hcls'⟩
    · rw [hp, hq] at h ⊢
      have hlength : p.descriptor.length = q.descriptor.length := by cases p <;> cases q <;> rfl
      exact List.append_inj h hlength
    · rw [hp, hcls'] at h
      exact absurd h (hletter p name' r r')
  · rcases descriptor_cases hu.1 hu.2 with ⟨q, hq⟩ | ⟨name', hname', hcls'⟩
    · rw [hq, hcls] at h
      exact absurd h.symm (hletter q name r' r)
    · rw [hcls, hcls'] at h ⊢
      have htext : ∀ name r : Text,
          ("L" ++ name ++ ";" ++ r : Text) = ascii 'L' :: (name ++ ascii ';' :: r) := by
        intro name r
        rw [List.append_assoc, List.append_assoc]
        rfl
      rw [htext, htext] at h
      have hnames := congrArg (List.takeWhile (· != ascii ';')) (List.cons.inj h).2
      rw [Descriptor.takeWhile_name hname, Descriptor.takeWhile_name hname'] at hnames
      subst hnames
      exact ⟨rfl, (List.cons.inj (List.append_cancel_left (List.cons.inj h).2)).2⟩

/-- Arguments can be told from the result that follows them. -/
theorem descriptors_append_inj
    (hts : ∀ t ∈ ts, t.isValue = true ∧ t.isPlain = true)
    (hus : ∀ u ∈ us, u.isValue = true ∧ u.isPlain = true)
    (h : descriptors ts ++ ascii ')' :: r = descriptors us ++ ascii ')' :: r') :
    descriptors ts = descriptors us := by
  have hend : ∀ (t : Ty) (ts : List Ty) (r r' : Text),
      descriptors (t :: ts) ++ r ≠ ascii ')' :: r' := by
    intro t ts r r' h
    obtain ⟨c, tail, htail, hne, -⟩ := Descriptor.head_descriptor t
    rw [descriptors, htail] at h
    exact hne (List.cons.inj h).1
  induction ts generalizing us with
  | nil =>
    cases us with
    | nil => rfl
    | cons u us => exact absurd h.symm (hend u us _ _)
  | cons t ts ih =>
    cases us with
    | nil => exact absurd h (hend t ts _ _)
    | cons u us =>
      obtain ⟨ht, hts⟩ := List.forall_mem_cons.1 hts
      obtain ⟨hu, hus⟩ := List.forall_mem_cons.1 hus
      rw [descriptors, descriptors, List.append_assoc, List.append_assoc] at h
      obtain ⟨hhead, hrest⟩ := descriptor_append_inj ht hu h
      rw [descriptors, descriptors, hhead, ih hts hus hrest]

end Ty

namespace ClassUnit

open Gen

/-! ### What is added to a class -/

/-- The names and descriptors of the methods of a class. -/
def keys (c : ClassFile) : List (Text × Text) := c.methods.toList.map fun m => (m.name, m.desc)

/-- The name and the descriptor of a declared function. -/
def key (f : DeclaredFunction) : Text × Text := (f.fn.name, f.fn.sig.descriptor)

def constructorKey (s : StructType) : Text × Text := ("<init>", s.constructor.descriptor)

def initializerKey : Text × Text := ("<clinit>", "()V")

def entryKey : Text × Text := ("main", "([Ljava/lang/String;)V")

variable {d : Declared} {p : Program} {env : Env} {c c' : ClassFile} {globals : List Var}

theorem Extends.keys_eq (h : Extends c ms c') :
    keys c' = keys c ++ ms.map fun m => (m.name, m.desc) := by
  rw [keys, h.methods, List.map_append]
  rfl

theorem keys_of_functions
    (h : List.Forall₂ (IsFunction env globals) fs ms) :
    (ms.map fun m => (m.name, m.desc)) = fs.map key := by
  induction h with
  | nil => rfl
  | cons hm _ ih =>
    obtain ⟨b, -, hm⟩ := hm
    rw [List.map_cons, List.map_cons, ih, hm.name, hm.desc, key]

theorem IsStruct.keys_eq (h : IsStruct env globals s c) :
    keys c = constructorKey s :: s.declared.map key := by
  obtain ⟨b, m, ms, hmethods, -, hm, hms⟩ := h.methods
  rw [keys, hmethods, List.map_cons, keys_of_functions hms, hm.name, hm.desc, constructorKey]

/-- The main class has its functions, and the entry point if there is one. -/
theorem IsMain.keys_eq (h : IsMain d b c) :
    keys c = d.functions.map key ∨ keys c = d.functions.map key ++ [entryKey] := by
  obtain ⟨ms, entry, hmethods, hms, hentry⟩ := h.methods
  rw [keys, hmethods, List.map_append, keys_of_functions hms]
  cases hentry with
  | none => exact .inl (List.append_nil _)
  | some _ _ hm =>
    refine .inr ?_
    rw [Option.toList_some, List.map_singleton, hm.name, hm.desc, entryKey]

/-! ### Members are distinct -/

section
variable {options : UnitOptions} (hmeans : Means options p env)
  (hpackage : ascii ';' ∉ options.package) (hp : ∀ s ∈ p.stmts, s.IsPlain)
include hmeans hpackage hp

/-- The arguments of a function are values with plain descriptors. -/
theorem of_stated {f : DeclaredFunction} (hf : f.Stated env) (hplain : f.decl.IsPlain) :
    ∀ t ∈ f.fn.sig.ins, t.isValue = true ∧ t.isPlain = true := by
  have henv := hmeans.plain hpackage hp
  refine (Env.of_signature (fun q hq t ht _ => ?_) hf.sig).2
  exact ⟨Env.value_of_typeRef hmeans.value ht, henv.of_typeRef (hplain.params q hq) ht⟩

/-- Functions with different arguments have different descriptors. -/
theorem nodup_key {r : Registry} {fs : List DeclaredFunction}
    (hfs : ∀ f ∈ fs, f.Stated env ∧ f.decl.IsPlain) (hr : r.Lists (fs.map (·.fn))) :
    (fs.map key).Nodup := by
  refine List.pairwise_map.2 ((List.pairwise_map.1 hr.apart).imp_of_mem fun {f g} hf hg hne => ?_)
  intro heq
  obtain ⟨hname, hdesc⟩ := Prod.mk.inj heq
  refine hne hname ?_
  rw [Signature.descriptor_eq, Signature.descriptor_eq] at hdesc
  refine Ty.descriptors_append_inj ?_ ?_ (List.cons.inj hdesc).2
  · exact of_stated hmeans hpackage hp (hfs f hf).1 (hfs f hf).2
  · exact of_stated hmeans hpackage hp (hfs g hg).1 (hfs g hg).2

end

/-- Names that are written have nothing of the names that only the machine uses. -/
theorem key_not_mem {fs : List DeclaredFunction} (hfs : ∀ f ∈ fs, f.fn.name.IsWord)
    (h : ascii '<' ∈ name) : (name, desc) ∉ fs.map key := by
  intro hmem
  obtain ⟨f, hf, heq⟩ := List.mem_map.1 hmem
  have hname : f.fn.name = name := (Prod.mk.inj heq).1
  exact (hfs f hf).not_mem (by decide) (by decide) (hname ▸ h)

/-- No argument of a function is an array. -/
theorem key_ne_entryKey (f : DeclaredFunction) : key f ≠ entryKey := by
  intro heq
  have hdesc : f.fn.sig.descriptor = "([Ljava/lang/String;)V" := (Prod.mk.inj heq).2
  rw [Signature.descriptor_eq] at hdesc
  have hrest := (List.cons.inj hdesc).2
  cases hts : f.fn.sig.ins with
  | nil =>
    rw [hts] at hrest
    exact absurd (List.cons.inj hrest).1 (by decide)
  | cons t ts =>
    obtain ⟨c, tail, htail, -, hne⟩ := Descriptor.head_descriptor t
    rw [hts, Ty.descriptors, htail] at hrest
    exact hne (List.cons.inj hrest).1

/-- A class whose members differ. -/
structure Distinct (c : ClassFile) : Prop where
  methods : (keys c).Nodup
  fields : (c.fields.toList.map (·.name)).Nodup

section
variable {options : UnitOptions} {file : Text} (hd : d.env.IsOuter) (hmeans : Means options p env)
  (h : Members env p.stmts d) (hpackage : ascii ';' ∉ options.package)
  (hp : ∀ s ∈ p.stmts, s.IsPlain)
include hmeans h hpackage hp

theorem IsStruct.distinct {s : StructType} (hc : IsStruct d.env globals s c) (hs : s ∈ d.env.structs) :
    Distinct c := by
  have hstated := h.structs s hs
  have hall : ∀ f ∈ s.declared, f.Stated env ∧ f.decl.IsPlain := by
    intro f hf
    obtain ⟨hf, sd, hsd, hdecl⟩ := hstated.declared f hf
    exact ⟨hf, (hp _ hsd).methods _ hdecl⟩
  refine ⟨?_, ?_⟩
  · rw [hc.keys_eq, List.nodup_cons]
    refine ⟨fun hmem => ?_, nodup_key hmeans hpackage hp hall hstated.lists⟩
    exact key_not_mem (fun f hf => (hall f hf).1.name ▸ (hall f hf).2.name) (by decide) hmem
  · rw [hc.fields, List.map_map]
    exact hstated.distinct

include hd

/-- The main class has its functions, the entry point and the class initializer. -/
theorem IsMain.distinct {b : Body} {init : Option Method} (hc : IsMain d b c)
    (hb : topLevelBody { d.env with topLevel := true } p.stmts staticStart = .ok ((), b))
    (hinit : IsInitializer b init) : Distinct (withInitializer c init) := by
  have hall : ∀ f ∈ d.functions, f.Stated env ∧ f.decl.IsPlain :=
    fun f hf => ⟨(h.functions f hf).1, hp _ (h.functions f hf).2⟩
  have hnodup := nodup_key hmeans hpackage hp hall h.lists
  have hmissing : initializerKey ∉ d.functions.map key :=
    key_not_mem (fun f hf => (hall f hf).1.name ▸ (hall f hf).2.name) (by decide)
  have hmain : (keys c).Nodup ∧ initializerKey ∉ keys c := by
    rcases hc.keys_eq with hkeys | hkeys
    · rw [hkeys]
      exact ⟨hnodup, hmissing⟩
    · rw [hkeys, List.mem_append, List.mem_singleton, not_or]
      refine ⟨List.nodup_append.2 ⟨hnodup, List.pairwise_singleton _ _, ?_⟩, hmissing, by decide⟩
      intro k hk k' hk' heq
      obtain ⟨f, hf, rfl⟩ := List.mem_map.1 hk
      rw [List.mem_singleton.1 hk'] at heq
      exact key_ne_entryKey f heq
  have hext := extends_withInitializer c init
  refine ⟨?_, ?_⟩
  · rw [hext.keys_eq]
    cases hinit with
    | none => exact (List.append_nil _).symm ▸ hmain.1
    | some hm =>
      rw [Option.toList_some, List.map_singleton, hm.name, hm.desc]
      refine List.nodup_append.2 ⟨hmain.1, List.pairwise_singleton _ _, fun k hk k' hk' heq => ?_⟩
      rw [heq, List.mem_singleton.1 hk'] at hk
      exact hmain.2 hk
  · obtain ⟨-, vs, -, hlisted⟩ := of_topLevelBody hb hd.self rfl
    have hnodup := hlisted.nodup
    rw [hlisted.names, List.nodup_reverse] at hnodup
    rwa [hext.fields, hc.fields]

theorem AreClasses.distinct (hcs : AreClasses d p cs) : ∀ c ∈ cs, Distinct c := by
  have hstructs {globals : List Var} {cs : List ClassFile}
      (hcs : List.Forall₂ (IsStruct d.env globals) d.env.structs cs) : ∀ c ∈ cs, Distinct c := by
    intro c hc
    obtain ⟨s, hs, hc⟩ := exists_of_forall₂ hcs hc
    exact hc.distinct hmeans h hpackage hp hs
  cases hcs with
  | structs _ hcs => exact hstructs hcs
  | main _ hb hc hinit hcs =>
    exact List.forall_mem_cons.2 ⟨hc.distinct hd hmeans h hpackage hp hb hinit, hstructs hcs⟩

end

variable {src file : Text} {options : UnitOptions} {funcs exports : Registry} {u : ClassUnit}

/-- Classes of a program have no two methods with one name and one descriptor, and no two fields with
one name. -/
theorem members_distinct (hp : Source.program src = .ok p) (hpackage : ascii ';' ∉ options.package)
    (h : ofProgram options funcs file p = .ok (u, exports)) :
    ∀ c ∈ u.classes, (c.methods.toList.map fun m => (m.name, m.desc)).Nodup ∧
      (c.fields.toList.map (·.name)).Nodup := by
  obtain ⟨d, hd, -, -, hcs⟩ := of_ofProgram h
  obtain ⟨env, hmeans, hmembers⟩ := members_of_declared hd
  intro c hc
  have hdistinct := hcs.distinct (isOuter_of_declared hd) hmeans hmembers hpackage
    (Source.isPlain_of_program hp) c hc
  exact ⟨hdistinct.methods, hdistinct.fields⟩

/-- A source with overloads of one name, a method like a function, and an entry point. -/
def sampleOverloads : Text :=
  "n = 0\ntype P = struct \x7b\n x: int?\n def f(a: int | string) \x7b n = 1 \x7d\n"
    ++ " def f(a: int) \x7b n = 2 \x7d\n\x7d\ndef f(a: int) \x7b n = 3 \x7d\n"
    ++ "def f(a: P?) \x7b n = 4 \x7d\ndef main() \x7b f(n) \x7d\n"

theorem members_distinct_sampleOverloads :
    ∃ p u exports, Source.program sampleOverloads = .ok p ∧
      ofProgram {} .builtins "overloads.ix" p = .ok (u, exports) ∧
      (u.classes.map fun c => (c.methods.size, c.fields.size)) = [(5, 1), (3, 1)] ∧
      ∀ c ∈ u.classes, (c.methods.toList.map fun m => (m.name, m.desc)).Nodup ∧
        (c.fields.toList.map (·.name)).Nodup := by
  have hrun : ((Source.program sampleOverloads).toOption.bind fun p =>
      (ofProgram {} .builtins "overloads.ix" p).toOption.map fun r =>
        r.1.classes.map fun c => (c.methods.size, c.fields.size)) = some [(5, 1), (3, 1)] := by
    decide +kernel
  obtain ⟨p, hp, hrun⟩ := Option.bind_eq_some_iff.1 hrun
  obtain ⟨⟨u, exports⟩, hu, hsizes⟩ := Option.map_eq_some_iff.1 hrun
  have hp := of_toOption hp
  have hu := of_toOption hu
  exact ⟨p, u, exports, hp, hu, hsizes, members_distinct hp List.not_mem_nil hu⟩

/-- In a package with a semicolon the result of a function may be read as the end of its argument. -/
theorem members_not_distinct :
    ∃ p u exports, Source.program ("type S = struct \x7b a: int \x7d\n"
        ++ "type T = struct \x7b b: int \x7d\ndef f(x: S): c.T \x7b while true \x7b \x7d \x7d\n"
        ++ "def f(x: c.S): T \x7b while true \x7b \x7d \x7d") = .ok p ∧
      ofProgram { package := "c/S;)Lc" } .builtins "m.ix" p = .ok (u, exports) ∧
      ∃ c ∈ u.classes, ¬ (c.methods.toList.map fun m => (m.name, m.desc)).Nodup := by
  have hrun : ((Source.program ("type S = struct \x7b a: int \x7d\n"
        ++ "type T = struct \x7b b: int \x7d\ndef f(x: S): c.T \x7b while true \x7b \x7d \x7d\n"
        ++ "def f(x: c.S): T \x7b while true \x7b \x7d \x7d")).toOption.any fun p =>
      (ofProgram { package := "c/S;)Lc" } .builtins "m.ix" p).toOption.any fun r =>
        r.1.classes.any fun c =>
          decide ¬ (c.methods.toList.map fun m => (m.name, m.desc)).Nodup) = true := by
    decide +kernel
  obtain ⟨p, hp, hrun⟩ := (Option.any_eq_true _ _).1 hrun
  obtain ⟨⟨u, exports⟩, hu, hrun⟩ := (Option.any_eq_true _ _).1 hrun
  obtain ⟨c, hc, hdup⟩ := List.any_eq_true.1 hrun
  exact ⟨p, u, exports, of_toOption hp, of_toOption hu, c, hc, of_decide_eq_true hdup⟩

end ClassUnit

end Classwright
