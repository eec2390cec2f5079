import Classwright.Proofs.Unit.Distinct

/-!
The names of the classes of a program, and the files they are written to. Structs have names of their
own, so their classes do; only a struct with the name of the main class shares its name with another
class (`ClassUnit.class_names_distinct`). Classes with different names are written to different files,
since the last part of a path is the name of the class.
-/

namespace Classwright

/-! ### Paths -/

namespace Path

/-- A name that is a part of a path and stays there. -/
structure IsPart (t : Text) : Prop where
  slash : slash ∉ t
  ne_nil : t ≠ []
  ne_dot : t ≠ "."
  ne_dots : t ≠ ".."

variable {t u x : Text}

theorem parts_append (t u : Text) : parts (t ++ slash :: u) = parts t ++ parts u :=
  List.splitOnP_append_cons (p := (· == slash)) t u (beq_self_eq_true slash)

theorem parts_of_not_mem (hx : slash ∉ x) : parts x = [x] :=
  List.splitOnP_eq_singleton fun _ hc => beq_false_of_ne fun h => hx (h ▸ hc)

/-- The last part is not taken back. -/
theorem cleanParts_concat (rooted : Bool) (kept ps : List Text) (hx : IsPart x) :
    cleanParts rooted kept (ps ++ [x]) = cleanParts rooted kept ps ++ [x] := by
  induction ps generalizing kept with
  | nil =>
    rw [List.nil_append, cleanParts.eq_def]
    dsimp only
    rw [if_neg (not_or.2 ⟨hx.ne_nil, hx.ne_dot⟩), if_neg hx.ne_dots, cleanParts, cleanParts,
      List.reverse_cons]
  | cons p ps ih =>
    rw [List.cons_append, cleanParts.eq_def, cleanParts.eq_def rooted kept (p :: ps)]
    dsimp only
    split
    · exact ih kept
    · split
      · split
        · split
          · exact ih []
          · exact ih [p]
        · split
          · exact ih _
          · exact ih _
      · exact ih _

theorem join_concat (ps : List Text) (x : Text) :
    ∃ u, Text.join [slash] (ps ++ [x]) = u ++ x ∧ (u = [] ∨ ∃ v, u = v ++ [slash]) := by
  cases ps with
  | nil => exact ⟨[], List.append_nil x, .inl rfl⟩
  | cons p ps =>
    refine ⟨p ++ ps.flatMap ([slash] ++ ·) ++ [slash], ?_, .inr ⟨_, rfl⟩⟩
    rw [List.cons_append, Text.join, List.flatMap_append, List.append_assoc, List.append_assoc]
    simp

/-- The last part of a path is told by `base`. -/
theorem base_append (hx : IsPart x) (hu : u = [] ∨ ∃ v, u = v ++ [slash]) : base (u ++ x) = x := by
  have hne : (u ++ x).isEmpty = false := by simp [hx.ne_nil]
  have hlast : ∀ c ∈ x.reverse, (c == slash) = false := fun c hc =>
    beq_false_of_ne fun h => hx.slash (h ▸ List.mem_reverse.1 hc)
  have hdrop : (u ++ x).reverse.dropWhile (· == slash) = x.reverse ++ u.reverse := by
    rw [List.reverse_append]
    cases hrev : x.reverse with
    | nil => exact absurd (List.reverse_eq_nil_iff.1 hrev) hx.ne_nil
    | cons c cs =>
      rw [hrev] at hlast
      rw [List.cons_append, List.dropWhile_cons_of_neg (by simp [hlast c (.head _)])]
  have htake : (x.reverse ++ u.reverse).takeWhile (· != slash) = x.reverse := by
    rw [List.takeWhile_append_of_pos fun c hc => by simp [bne, hlast c hc]]
    rcases hu with rfl | ⟨v, rfl⟩ <;> simp
  rw [base, hne, hdrop, htake]
  simp [hx.ne_nil]

theorem base_clean (ht : parts t = ps ++ [x]) (hx : IsPart x) :
    base (clean t) = x := by
  obtain ⟨u, hjoin, hu⟩ := join_concat (cleanParts (isRooted t) [] ps) x
  have hne : (u ++ x).isEmpty = false := by simp [hx.ne_nil]
  unfold clean
  dsimp only
  rw [ht, cleanParts_concat _ _ _ hx, hjoin, hne]
  split
  · refine base_append (u := slash :: u) hx (.inr ?_)
    rcases hu with rfl | ⟨v, rfl⟩
    · exact ⟨[], rfl⟩
    · exact ⟨slash :: v, rfl⟩
  · exact base_append hx hu

/-- A file keeps its name wherever it is put. -/
theorem base_join (dir : Text) (ht : parts t = ps ++ [x]) (hx : IsPart x) :
    base (join dir t) = x := by
  have hne : t.isEmpty = false := by
    cases t with
    | nil =>
      have hnil : [[]] = ps ++ [x] := ht
      have hlast := congrArg List.getLast? hnil
      rw [List.getLast?_singleton, List.getLast?_concat] at hlast
      exact absurd (Option.some.inj hlast).symm hx.ne_nil
    | cons => rfl
  unfold join
  rw [hne]
  split
  · exact base_clean ht hx
  · have hparts : parts (dir ++ [slash] ++ t) = (parts dir ++ ps) ++ [x] := by
      rw [List.append_assoc, List.singleton_append, parts_append, ht, List.append_assoc]
    exact base_clean hparts hx

end Path

namespace ClassUnit

/-! ### Names -/

theorem qualify_inj (h : qualify package a = qualify package b) : a = b := by
  unfold qualify at h
  split at h
  · exact h
  · exact List.append_cancel_left h

/-- The name of the class for top level code, inside its package. -/
def mainName (file : Text) : Text := (Path.base file).takeWhile (· != ascii '.') ++ "ixc"

/-- Structs with names of their own, each in a class of the package. -/
structure Apart (package : Text) (structs : List StructType) : Prop where
  names : (structs.map (·.name)).Nodup
  cls : ∀ s ∈ structs, s.cls = qualify package s.name

variable {package file name : Text} {env env' : Env} {ss : List Stmt} {d d' : Declared} {p : Program}
  {c c' : ClassFile} {globals : List Var}

theorem Apart.struct (h : Apart package structs)
    (hs : s.cls = qualify package s.name) :
    Apart package (structs.map fun t => if t.name = s.name then s else t) ∧
      (structs.map fun t => if t.name = s.name then s else t).map (·.name) = structs.map (·.name) := by
  have hnames : (structs.map fun t => if t.name = s.name then s else t).map (·.name) =
      structs.map (·.name) := by
    rw [List.map_map]
    refine List.map_congr_left fun t _ => ?_
    rw [Function.comp_apply]
    split
    · next heq => exact heq.symm
    · rfl
  refine ⟨⟨hnames ▸ h.names, List.forall_mem_map.2 fun t ht => ?_⟩, hnames⟩
  split
  · exact hs
  · exact h.cls t ht

/-- The structs of a program are those that it declares. -/
theorem apart_of_declared
    (h : declared options funcs file p = .ok d) :
    Apart options.package d.env.structs ∧ d.env.structs.map (·.name) = structNames p.stmts := by
  obtain ⟨aliases, -, hnodup, h⟩ := declared_eq_ok h
  have hnames : ((structNames p.stmts).map (bareStruct options.package)).map (·.name) =
      structNames p.stmts := by
    rw [List.map_map]
    exact List.map_id _
  have hbare : Apart options.package ((structNames p.stmts).map (bareStruct options.package)) :=
    ⟨hnames.symm ▸ hnodup, List.forall_mem_map.2 fun _ _ => rfl⟩
  refine of_declareMembers (Q := fun d => Apart options.package d.env.structs ∧
    d.env.structs.map (·.name) = structNames p.stmts) ?_ ⟨hbare, hnames⟩ h
  rintro s d d' - hstep ⟨hapart, hnames⟩
  cases hstep with
  | use | func | nothing => exact ⟨hapart, hnames⟩
  | @struct sd s s₁ s₂ hs h₁ h₂ =>
    obtain ⟨vs, rfl, -⟩ := declareFields_eq_ok h₁
    obtain ⟨hname, hcls⟩ := names_of_declareMethods h₂
    have hqualified : s₂.cls = qualify options.package s₂.name := by
      rw [hcls, hname]
      exact hapart.cls s (List.mem_of_find?_eq_some hs)
    obtain ⟨hapart', hnames'⟩ := hapart.struct hqualified
    exact ⟨hapart', hnames'.trans hnames⟩

theorem mainClass_of_declared
    (h : declared options funcs file p = .ok d) :
    d.env.mainClass = mainClass options.package file := by
  obtain ⟨structs, aliases, funcs', henv⟩ := env_of_declared h
  rw [henv]

/-! ### Classes -/

theorem names_of_structs
    (h : List.Forall₂ (IsStruct env globals) structs cs) : cs.map (·.name) = structs.map (·.cls) := by
  induction h with
  | nil => rfl
  | cons hc _ ih => rw [List.map_cons, List.map_cons, hc.name, ih]

theorem AreClasses.names_eq (h : AreClasses d p cs) :
    cs.map (·.name) =
      (if p.hasMain then [d.env.mainClass] else []) ++ d.env.structs.map (·.cls) := by
  cases h with
  | main hmain _ hc _ hcs =>
    rw [if_pos hmain, List.map_cons, names_of_structs hcs, (extends_withInitializer _ _).name, hc.name]
    rfl
  | structs hmain hcs =>
    rw [hmain]
    exact names_of_structs hcs

theorem names_of_ofProgram
    (h : ofProgram options funcs file p = .ok (u, exports)) :
    (structNames p.stmts).Nodup ∧ u.classes.map (·.name) =
      ((if p.hasMain then [mainName file] else []) ++ structNames p.stmts).map
        (qualify options.package) := by
  obtain ⟨d, hd, -, -, hcs⟩ := of_ofProgram h
  obtain ⟨hapart, hnames⟩ := apart_of_declared hd
  have hstructs : d.env.structs.map (·.cls) =
      (structNames p.stmts).map (qualify options.package) := by
    rw [← hnames, List.map_map]
    exact List.map_congr_left hapart.cls
  refine ⟨hnames ▸ hapart.names, ?_⟩
  rw [hcs.names_eq, mainClass_of_declared hd, hstructs, List.map_append]
  split <;> rfl

/-- The last part of a path has no slash in it, except for the root. -/
theorem slash_not_mem_base (h : Path.base file ≠ [Path.slash]) : Path.slash ∉ Path.base file := by
  unfold Path.base at h ⊢
  split
  · decide
  · next hne =>
    rw [if_neg hne] at h
    dsimp only at h ⊢
    split
    · next hempty =>
      rw [if_pos hempty] at h
      exact absurd rfl h
    · intro hmem
      have := List.mem_takeWhile_imp (List.mem_reverse.1 hmem)
      simp at this

/-- A class is written to a file of its name. -/
theorem base_classPath (dir package : Text) (hname : Path.slash ∉ name) :
    Path.base (Path.join dir (qualify package name ++ ".class")) = name ++ ".class" := by
  have hpart : Path.IsPart (name ++ ".class") := by
    have hlength : (name ++ Text.ofString ".class").length = name.length + 6 := List.length_append
    refine ⟨fun hmem => ?_, fun h => ?_, fun h => ?_, fun h => ?_⟩
    · exact (List.mem_append.1 hmem).elim hname (by decide)
    all_goals
      rw [h] at hlength
      have hshort : name.length + 6 ≤ 2 := by rw [← hlength]; decide
      omega
  unfold qualify
  split
  · have hparts : Path.parts (name ++ ".class") = [] ++ [name ++ ".class"] :=
      Path.parts_of_not_mem hpart.slash
    exact Path.base_join dir hparts hpart
  · have hparts : Path.parts (package ++ "/" ++ name ++ ".class") =
        Path.parts package ++ [name ++ ".class"] := by
      rw [List.append_assoc, List.append_assoc]
      exact (Path.parts_append package _).trans
        (congrArg (_ ++ ·) (Path.parts_of_not_mem hpart.slash))
    exact Path.base_join dir hparts hpart

/-- The classes of a program have names of their own exactly if no struct has the name of the main
class, and classes with names of their own are written to files of their own. -/
theorem class_names_distinct {src : Text} {options : UnitOptions} {funcs exports : Registry}
    {u : ClassUnit} (hp : Source.program src = .ok p)
    (h : ofProgram options funcs file p = .ok (u, exports)) :
    ((u.classes.map (·.name)).Nodup ↔
      (p.hasMain = true → ∀ d, .struct d ∈ p.stmts → d.name ≠ mainName file)) ∧
    (Path.base file ≠ [Path.slash] → (u.classes.map (·.name)).Nodup →
      ∀ dir, (u.classes.map fun c => Path.join dir (c.name ++ ".class")).Nodup) := by
  obtain ⟨hnodup, hnames⟩ := names_of_ofProgram h
  have hinj : Function.Injective (qualify options.package) := fun _ _ => qualify_inj
  refine ⟨?_, fun hbase hdistinct dir => ?_⟩
  · rw [hnames, List.nodup_map_iff hinj]
    cases p.hasMain with
    | false => simp [hnodup]
    | true =>
      rw [if_pos rfl, List.singleton_append, List.nodup_cons, mem_structNames]
      constructor
      · rintro ⟨hmain, -⟩ - d hd heq
        exact hmain ⟨d, hd, heq⟩
      · intro hmain
        refine ⟨?_, hnodup⟩
        rintro ⟨d, hd, heq⟩
        exact hmain rfl d hd heq
  · have hpaths : (u.classes.map fun c => Path.join dir (c.name ++ ".class")) =
        (u.classes.map (·.name)).map fun n => Path.join dir (n ++ ".class") := by
      rw [List.map_map]
      rfl
    have hslash : ∀ n ∈ (if p.hasMain then [mainName file] else []) ++ structNames p.stmts,
        Path.slash ∉ n := by
      intro n hn
      rcases List.mem_append.1 hn with hn | hn
      · split at hn
        · rw [List.mem_singleton.1 hn, mainName]
          intro hmem
          rcases List.mem_append.1 hmem with hmem | hmem
          · exact slash_not_mem_base hbase ((List.takeWhile_prefix _).mem hmem)
          · exact absurd hmem (by decide)
        · cases hn
      · obtain ⟨d, hd, rfl⟩ := mem_structNames.1 hn
        exact (Source.isPlain_of_program hp _ hd).name.not_mem (by decide) (by decide)
    rw [hpaths]
    refine List.Nodup.map_on (fun a ha b hb heq => ?_) hdistinct
    rw [hnames] at ha hb
    obtain ⟨m, hm, rfl⟩ := List.mem_map.1 ha
    obtain ⟨n, hn, rfl⟩ := List.mem_map.1 hb
    have hbases := congrArg Path.base heq
    rw [base_classPath _ _ (hslash m hm), base_classPath _ _ (hslash n hn)] at hbases
    rw [List.append_cancel_right hbases]

/-- A source with top level code and two structs. -/
def samplePair : Text :=
  "type A = struct \x7b x: int \x7d\ntype Aixc = struct \x7b a: A? \x7d\nprintln(new A(1).x)\n"

theorem class_names_distinct_samplePair :
    ∃ p u exports, Source.program samplePair = .ok p ∧
      ofProgram { package := "app" } .builtins "dir/B.ix" p = .ok (u, exports) ∧
      u.classes.map (·.name) = ["app/Bixc", "app/A", "app/Aixc"] ∧
      ((u.classes.map (·.name)).Nodup ↔
        (p.hasMain = true → ∀ d, .struct d ∈ p.stmts → d.name ≠ mainName "dir/B.ix")) ∧
      (u.classes.map fun c => Path.join "out" (c.name ++ ".class")).Nodup := by
  have hrun : ((Source.program samplePair).toOption.bind fun p =>
      (ofProgram { package := "app" } .builtins "dir/B.ix" p).toOption.map fun r =>
        r.1.classes.map (·.name)) = some (["app/Bixc", "app/A", "app/Aixc"] : List Text) := by
    decide +kernel
  obtain ⟨p, hp, hrun⟩ := Option.bind_eq_some_iff.1 hrun
  obtain ⟨⟨u, exports⟩, hu, hnames⟩ := Option.map_eq_some_iff.1 hrun
  obtain ⟨hiff, hpaths⟩ := class_names_distinct (of_toOption hp) (of_toOption hu)
  refine ⟨p, u, exports, of_toOption hp, of_toOption hu, hnames, hiff,
    hpaths (by decide) ?_ "out"⟩
  have hnames : u.classes.map (·.name) = ["app/Bixc", "app/A", "app/Aixc"] := hnames
  rw [hnames]
  decide

/-- A struct may have the name of the main class, whose file is then written twice. -/
theorem class_names_not_distinct :
    ∃ p u exports, Source.program "type testixc = struct \x7b a: int \x7d\nx = 1" = .ok p ∧
      ofProgram {} .builtins "test.ix" p = .ok (u, exports) ∧
      ¬ (u.classes.map (·.name)).Nodup := by
  have hrun : ((Source.program "type testixc = struct \x7b a: int \x7d\nx = 1").toOption.any fun p =>
      (ofProgram {} .builtins "test.ix" p).toOption.any fun r =>
        decide ¬ (r.1.classes.map (·.name)).Nodup) = true := by
    decide +kernel
  obtain ⟨p, hp, hrun⟩ := (Option.any_eq_true _ _).1 hrun
  obtain ⟨⟨u, exports⟩, hu, hrun⟩ := (Option.any_eq_true _ _).1 hrun
  exact ⟨p, u, exports, of_toOption hp, of_toOption hu, of_decide_eq_true hrun⟩

end ClassUnit

end Classwright
