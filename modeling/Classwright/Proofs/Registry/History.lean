import Classwright.Proofs.Registry.Overloads

/-!
What becomes of a registry. Functions are added and other registries merged in any order, and some of
this may fail. The registry then represents the functions that were accepted, in the order of their
declaration (`Registry.Represents`, `Registry.run_represents`): each of them is there once, under its
name, and of one name and one kind of arguments there is a function of the host, one of the source, or
one of the source after one of the host.
-/

namespace Classwright.Registry

/-- What may be done to a registry. -/
inductive Action where
  | add (f : Function)
  | merge (other : Registry)

/-- The functions that an action is to add. -/
def Action.functions : Action → List Function
  | add f => [f]
  | merge other => other.all

/-- The registry after an action. What is refused is not there. -/
def act (r : Registry) : Action → Registry
  | .add f =>
    match r.add f with
    | .ok r' => r'
    | .error _ => r
  | .merge other => (r.merge other).1

def run (r : Registry) : List Action → Registry
  | [] => r
  | a :: as => run (r.act a) as

/-- The functions that actions add, in their order. -/
def declared (r : Registry) : List Action → List Function
  | [] => []
  | a :: as => r.accepted a.functions ++ declared (r.act a) as

/-- A registry has the functions of a list, which is in the order of their declaration. -/
structure Represents (r : Registry) (fs : List Function) : Prop where
  /-- Only a function of the source comes after another one with its name and its arguments, and only
  after one of the host. -/
  apart : fs.Pairwise fun f g =>
    f.name = g.name → f.argDescriptor = g.argDescriptor → f.isLocal = false ∧ g.isLocal = true
  /-- The names are in the order of their first functions. -/
  names : r.groups.map (·.1) = (fs.map (·.name)).eraseDups
  overloads : ∀ name, r.overloads name = fs.filter (·.name == name)
  perm : r.all.Perm fs

variable {r r' : Registry} {f : Function} {fs gs : List Function}

theorem act_eq (r : Registry) (a : Action) : r.act a = (r.addAll a.functions).1 := by
  cases a with
  | add f =>
    rw [act, Action.functions, addAll]
    cases r.add f <;> rfl
  | merge other => rfl

theorem run_concat (r : Registry) (as : List Action) (a : Action) :
    r.run (as ++ [a]) = (r.run as).act a := by
  induction as generalizing r with
  | nil => rfl
  | cons b as ih => exact ih (r.act b)

/-! ### Names -/

theorem names_push (r : Registry) (f : Function) : (r.push f).groups.map (·.1) =
    r.groups.map (·.1) ++ if f.name ∈ r.groups.map (·.1) then [] else [f.name] := by
  obtain ⟨groups⟩ := r
  rw [push]
  induction groups with
  | nil => rfl
  | cons group groups ih =>
    obtain ⟨name, gs⟩ := group
    rw [insertGroup]
    dsimp only at ih ⊢
    split
    · next h => simp [h]
    · next h =>
      rw [List.map_cons, ih]
      simp only [List.map_cons, List.mem_cons, eq_false (Ne.symm h), false_or, List.cons_append]

theorem eraseDups_concat (names : List Text) (name : Text) :
    (names ++ [name]).eraseDups = names.eraseDups ++ if name ∈ names then [] else [name] := by
  rw [List.eraseDups_append]
  by_cases h : name ∈ names <;> simp [List.removeAll, h, List.eraseDups_cons]

theorem nodup_eraseDups (names : List Text) : names.eraseDups.Nodup := by
  induction names using List.reverseRecOn with
  | nil => exact List.nodup_nil
  | append_singleton names name ih =>
    rw [eraseDups_concat]
    split
    · simpa using ih
    · next h =>
      refine List.nodup_append.2 ⟨ih, List.pairwise_singleton _ _, ?_⟩
      rintro _ hmem _ hname rfl
      exact h (List.mem_singleton.1 hname ▸ List.mem_eraseDups.1 hmem)

/-! ### What is represented -/

theorem represents_empty : Represents .empty [] := ⟨.nil, rfl, fun _ => rfl, .refl _⟩

/-- A function is refused if one of its name and arguments stands in its way, and only then. -/
theorem Represents.add_cases (h : Represents r fs) (f : Function) :
    (∀ g ∈ fs, g.name = f.name → g.argDescriptor = f.argDescriptor →
        g.isLocal = false ∧ f.isLocal = true) ∧ r.add f = .ok (r.push f) ∨
      ∃ g ∈ fs, g.name = f.name ∧ g.argDescriptor = f.argDescriptor ∧
        (g.isLocal = true ∨ f.isLocal = false) ∧ r.add f = .error ⟨f.name, g.sig⟩ := by
  cases hconflict : r.conflict? f with
  | none =>
    refine .inl ⟨fun g hg hname hargs => ?_, by rw [Registry.add, hconflict]⟩
    have hmem : g ∈ r.overloads f.name := by
      rw [h.overloads]
      exact List.mem_filter.2 ⟨hg, by simpa using hname⟩
    simpa [hargs] using List.find?_eq_none.1 hconflict g hmem
  | some g =>
    have hmem := List.mem_of_find?_eq_some hconflict
    rw [h.overloads] at hmem
    obtain ⟨hg, hname⟩ := List.mem_filter.1 hmem
    have hstands := List.find?_some hconflict
    simp only [Bool.and_eq_true, Bool.or_eq_true, Bool.not_eq_true', beq_iff_eq] at hstands
    exact .inr ⟨g, hg, by simpa using hname, hstands.2, hstands.1, by rw [Registry.add, hconflict]⟩

theorem Represents.add (h : Represents r fs) (hr : r.add f = .ok r') : Represents r' (fs ++ [f]) := by
  obtain ⟨hapart, hadd⟩ | ⟨g, -, -, -, -, hadd⟩ := h.add_cases f
  rotate_left
  · cases hadd.symm.trans hr
  obtain ⟨rfl, -⟩ := push_of_add hr
  refine ⟨List.pairwise_append.2 ⟨h.apart, List.pairwise_singleton _ _, ?_⟩, ?_, ?_, ?_⟩
  · intro g hg _ hf
    cases List.mem_singleton.1 hf
    exact hapart g hg
  · rw [names_push, h.names, List.map_append, List.map_singleton, eraseDups_concat]
    simp only [List.mem_eraseDups]
  · intro name
    rw [overloads_add hr, h.overloads, List.filter_append]
  · exact (perm_insertGroup f r.groups).trans (h.perm.append_right [f])

theorem Represents.addAll (h : Represents r fs) (gs : List Function) :
    Represents (r.addAll gs).1 (fs ++ r.accepted gs) := by
  induction gs generalizing r fs with
  | nil => simpa [Registry.addAll, accepted] using h
  | cons g gs ih =>
    rw [Registry.addAll, accepted]
    cases hadd : r.add g with
    | error e => simpa using h
    | ok r' =>
      have := ih (h.add hadd)
      rwa [List.append_assoc] at this

theorem Represents.run (h : Represents r fs) (as : List Action) :
    Represents (r.run as) (fs ++ r.declared as) := by
  induction as generalizing r fs with
  | nil => simpa [Registry.run, declared] using h
  | cons a as ih =>
    rw [Registry.run, declared, ← List.append_assoc]
    refine ih ?_
    rw [act_eq]
    exact h.addAll a.functions

/-- All functions, name by name. -/
theorem Represents.all_eq (h : Represents r fs) :
    r.all = (fs.map (·.name)).eraseDups.flatMap fun name => fs.filter (·.name == name) := by
  have hnodup := nodup_eraseDups (fs.map (·.name))
  rw [← h.names] at hnodup ⊢
  rw [all, List.flatMap_map]
  refine List.flatMap_congr fun group hgroup => ?_
  rw [← h.overloads, overloads_of_mem hnodup hgroup]

/-- Functions are added up to the first conflict. -/
theorem addAll_of_conflict (h : (r.addAll fs).2 = some e) :
    ∃ pre f post, fs = pre ++ f :: post ∧ r.addAll pre = ((r.addAll fs).1, none) ∧
      (r.addAll fs).1.add f = .error e := by
  induction fs generalizing r with
  | nil => cases h
  | cons f fs ih =>
    rw [addAll] at h ⊢
    cases hadd : r.add f with
    | error e' =>
      rw [hadd] at h
      cases h
      exact ⟨[], f, fs, rfl, rfl, hadd⟩
    | ok r' =>
      rw [hadd] at h
      obtain ⟨pre, g, post, rfl, hpre, hg⟩ := ih h
      refine ⟨f :: pre, g, post, rfl, ?_, hg⟩
      rw [addAll, hadd]
      exact hpre

theorem accepted_of_isNone (h : (r.addAll fs).2.isNone = true) :
    (r.addAll fs).1 = fs.foldl push r ∧ r.accepted fs = fs := by
  induction fs generalizing r with
  | nil => exact ⟨rfl, rfl⟩
  | cons f fs ih =>
    rw [addAll] at h ⊢
    rw [accepted]
    cases hadd : r.add f with
    | error e =>
      rw [hadd] at h
      cases h
    | ok r' =>
      rw [hadd] at h
      obtain ⟨hpush, haccepted⟩ := ih h
      rw [List.foldl_cons, ← (push_of_add hadd).1]
      exact ⟨hpush, congrArg (f :: ·) haccepted⟩

theorem represents_builtins : Represents .builtins builtins.all := by
  have hnone : (empty.addAll (outputFunctions "print" ++ outputFunctions "println")).2.isNone = true := by
    decide +kernel
  have h := represents_empty.addAll (outputFunctions "print" ++ outputFunctions "println")
  obtain ⟨hpush, haccepted⟩ := accepted_of_isNone hnone
  rw [hpush, haccepted] at h
  exact h

/-- Whatever is added and merged, the registry represents the functions that were accepted. A function is
put at the end of its group unless another one stands in its way, and then the registry stays as it is;
merging stops at the first function that is refused. -/
theorem run_represents {start : Registry} (hstart : start = .empty ∨ start = .builtins)
    (as : List Action) :
    Represents (start.run as) (start.all ++ start.declared as) ∧
    ((start.run as).groups.map (·.1)).Nodup ∧
    (start.run as).all = ((start.all ++ start.declared as).map (·.name)).eraseDups.flatMap
      (fun name => (start.all ++ start.declared as).filter (·.name == name)) ∧
    (∀ f, (∀ g ∈ start.all ++ start.declared as, g.name = f.name → g.argDescriptor = f.argDescriptor →
          g.isLocal = false ∧ f.isLocal = true) ∧
        (start.run as).add f = .ok ((start.run as).push f) ∨
      ∃ g ∈ start.all ++ start.declared as, g.name = f.name ∧ g.argDescriptor = f.argDescriptor ∧
        (g.isLocal = true ∨ f.isLocal = false) ∧ (start.run as).add f = .error ⟨f.name, g.sig⟩ ∧
        start.run (as ++ [.add f]) = start.run as) ∧
    ∀ other e, ((start.run as).merge other).2 = some e → ∃ pre f post, other.all = pre ++ f :: post ∧
      (start.run as).addAll pre = (start.run (as ++ [.merge other]), none) ∧
      (start.run (as ++ [.merge other])).add f = .error e := by
  have hrepresents : Represents (start.run as) (start.all ++ start.declared as) := by
    refine Represents.run ?_ as
    rcases hstart with rfl | rfl
    · exact represents_empty
    · exact represents_builtins
  refine ⟨hrepresents, hrepresents.names ▸ nodup_eraseDups _, hrepresents.all_eq, fun f => ?_,
    fun other e h => ?_⟩
  · obtain hadded | ⟨g, hg, hname, hargs, hstands, hrefused⟩ := hrepresents.add_cases f
    · exact .inl hadded
    · exact .inr ⟨g, hg, hname, hargs, hstands, hrefused, by rw [run_concat, act, hrefused]⟩
  · rw [run_concat]
    exact addAll_of_conflict h

theorem run_represents_sampleHost : (builtins.run [.add sampleHost, .add sampleLocal, .add sampleHost,
    .merge ⟨[("f", [sampleHost])]⟩]).overloads "f" = [sampleHost, sampleLocal] ∧
    Represents (builtins.run [.add sampleHost, .add sampleLocal, .add sampleHost,
      .merge ⟨[("f", [sampleHost])]⟩]) (builtins.all ++ [sampleHost, sampleLocal]) := by
  have h := (run_represents (.inr rfl) [.add sampleHost, .add sampleLocal, .add sampleHost,
    .merge ⟨[("f", [sampleHost])]⟩]).1
  exact ⟨rfl, h⟩

end Classwright.Registry
