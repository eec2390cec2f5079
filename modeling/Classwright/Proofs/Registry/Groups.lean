import Classwright.Registry
import Mathlib.Data.List.Basic

/-!
How a registry groups its functions. Each name has one group, in the place of its first function, and
a group has only functions of its name (`Registry.Made.grouped`). So a registry is determined by the
list of its functions: adding them in this order to an empty registry makes it again
(`Registry.Made.foldl_push_map`).
-/

namespace Classwright.Registry

/-- Registries as they come about: function by function. -/
inductive Made : Registry → Prop
  | empty : Made .empty
  | push (f : Function) : Made r → Made (r.push f)

/-- Groups with different names, each of them with some function and only with those of its name. -/
structure Grouped (groups : List (Text × List Function)) : Prop where
  nodup : (groups.map (·.1)).Nodup
  filled : g ∈ groups → g.2 ≠ []
  named : g ∈ groups → f ∈ g.2 → f.name = g.1

variable {r r' : Registry} {groups : List (Text × List Function)} {f g : Function} {name : Text}

theorem push_of_add (h : r.add f = .ok r') : r' = r.push f ∧ r.conflict? f = none := by
  unfold add at h
  split at h
  · cases h
  · next hnone =>
    cases h
    exact ⟨rfl, hnone⟩

theorem mem_of_mem_overloads (h : f ∈ r.overloads name) : f ∈ r.all := by
  unfold overloads at h
  unfold all
  cases hl : r.groups.lookup name with
  | none =>
    rw [hl] at h
    cases h
  | some fs =>
    rw [hl] at h
    obtain ⟨l₁, l₂, hgroups, -⟩ := List.lookup_eq_some_iff.1 hl
    rw [List.mem_flatMap]
    exact ⟨(name, fs), by simp [hgroups], h⟩

theorem perm_insertGroup (f : Function) (groups : List (Text × List Function)) :
    ((insertGroup f groups).flatMap (·.2)).Perm (groups.flatMap (·.2) ++ [f]) := by
  induction groups with
  | nil => exact .refl _
  | cons group groups ih =>
    obtain ⟨name, fs⟩ := group
    rw [insertGroup, List.flatMap_cons]
    split
    · rw [List.flatMap_cons, List.append_assoc, List.append_assoc]
      exact List.perm_append_comm.append_left fs
    · rw [List.flatMap_cons, List.append_assoc]
      exact ih.append_left fs

theorem mem_insertGroup (h : g ∈ (insertGroup f groups).flatMap (·.2)) : g = f ∨ g ∈ groups.flatMap (·.2) := by
  rcases List.mem_append.1 ((perm_insertGroup f groups).mem_iff.1 h) with h | h
  · exact .inr h
  · exact .inl (List.mem_singleton.1 h)

/-- What holds of the functions of a registry and of those that are added to it. -/
theorem forall_add {P : Function → Prop} (h : ∀ g ∈ r.all, P g) (hf : P f) (hr : r.add f = .ok r') :
    ∀ g ∈ r'.all, P g := by
  rw [(push_of_add hr).1]
  intro g hg
  rcases mem_insertGroup hg with rfl | hg
  · exact hf
  · exact h g hg

theorem forall_addAll {P : Function → Prop} (h : ∀ g ∈ r.all, P g)
    (hfs : ∀ f ∈ fs, P f) : ∀ g ∈ (r.addAll fs).1.all, P g := by
  induction fs generalizing r with
  | nil => exact h
  | cons f fs ih =>
    rw [addAll]
    cases hr : r.add f with
    | error e => exact h
    | ok r' => exact ih (forall_add h (hfs f (.head _)) hr) fun g hg => hfs g (.tail _ hg)

theorem grouped_cons : Grouped ((name, fs) :: groups) ↔
    (name ∉ groups.map (·.1) ∧ fs ≠ [] ∧ ∀ f ∈ fs, f.name = name) ∧ Grouped groups := by
  constructor
  · intro h
    obtain ⟨hname, hnodup⟩ := List.nodup_cons.1 h.nodup
    exact ⟨⟨hname, h.filled (.head _), fun f hf => h.named (.head _) hf⟩, hnodup,
      fun hg => h.filled (.tail _ hg), fun hg => h.named (.tail _ hg)⟩
  · rintro ⟨⟨hname, hfilled, hnamed⟩, h⟩
    refine ⟨List.nodup_cons.2 ⟨hname, h.nodup⟩, fun hg => ?_, fun hg hf => ?_⟩
    · rcases List.mem_cons.1 hg with rfl | hg
      · exact hfilled
      · exact h.filled hg
    · rcases List.mem_cons.1 hg with rfl | hg
      · exact hnamed _ hf
      · exact h.named hg hf

theorem mem_names_insertGroup :
    name ∈ (insertGroup f groups).map (·.1) ↔ name = f.name ∨ name ∈ groups.map (·.1) := by
  induction groups with
  | nil => simp [insertGroup]
  | cons group groups ih =>
    obtain ⟨name', fs⟩ := group
    rw [insertGroup]
    split
    · next h => simp [h]
    · rw [List.map_cons, List.map_cons, List.mem_cons, List.mem_cons, ih]
      exact or_left_comm

theorem Grouped.insertGroup (h : Grouped groups) : Grouped (insertGroup f groups) := by
  induction groups with
  | nil => exact grouped_cons.2 ⟨⟨List.not_mem_nil, by simp, by simp⟩, h⟩
  | cons group groups ih =>
    obtain ⟨name, fs⟩ := group
    obtain ⟨⟨hname, hfilled, hnamed⟩, hrest⟩ := grouped_cons.1 h
    rw [Registry.insertGroup]
    split
    · next heq =>
      refine grouped_cons.2 ⟨⟨hname, by simp, fun g hg => ?_⟩, hrest⟩
      rcases List.mem_append.1 hg with hg | hg
      · exact hnamed g hg
      · rw [List.mem_singleton.1 hg, heq]
    · next hne =>
      refine grouped_cons.2 ⟨⟨fun hmem => ?_, hfilled, hnamed⟩, ih hrest⟩
      rcases mem_names_insertGroup.1 hmem with heq | hmem
      · exact hne heq
      · exact hname hmem

theorem Made.grouped (h : r.Made) : Grouped r.groups := by
  induction h with
  | empty => exact ⟨List.nodup_nil, nofun, nofun⟩
  | push f _ ih => exact ih.insertGroup

/-! ### The functions of a name -/

theorem overloads_push (r : Registry) (f : Function) (name : Text) :
    (r.push f).overloads name = if f.name = name then r.overloads name ++ [f] else r.overloads name := by
  obtain ⟨groups⟩ := r
  unfold overloads push
  dsimp only
  induction groups with
  | nil =>
    rw [insertGroup, List.lookup_cons, List.lookup_nil]
    by_cases h : name = f.name
    · simp [h]
    · simp [beq_eq_false_iff_ne.2 h, Ne.symm h]
  | cons group groups ih =>
    obtain ⟨name', fs⟩ := group
    rw [insertGroup]
    split
    · next h =>
      rw [List.lookup_cons, List.lookup_cons]
      subst h
      by_cases h : name = f.name
      · simp [h]
      · simp [beq_eq_false_iff_ne.2 h, Ne.symm h]
    · next h =>
      rw [List.lookup_cons, List.lookup_cons]
      by_cases h' : name = name'
      · subst h'
        simp [Ne.symm h]
      · simp only [beq_eq_false_iff_ne.2 h']
        exact ih

theorem Made.name_of_mem_overloads (h : r.Made) (hf : f ∈ r.overloads name) : f.name = name := by
  induction h with
  | empty => cases hf
  | push g _ ih =>
    rw [overloads_push] at hf
    split at hf
    · rcases List.mem_append.1 hf with hf | hf
      · exact ih hf
      · rwa [List.mem_singleton.1 hf]
    · exact ih hf

theorem overloads_of_mem (h : (groups.map (·.1)).Nodup) (hg : (name, fs) ∈ groups) :
    Registry.overloads ⟨groups⟩ name = fs := by
  unfold Registry.overloads
  induction groups with
  | nil => cases hg
  | cons group groups ih =>
    obtain ⟨name', fs'⟩ := group
    obtain ⟨hname, hrest⟩ := List.nodup_cons.1 h
    rw [List.lookup_cons]
    rcases List.mem_cons.1 hg with heq | hmem
    · cases heq
      simp
    · have hne : name ≠ name' := by
        rintro rfl
        exact hname (List.mem_map.2 ⟨_, hmem, rfl⟩)
      simp only [beq_eq_false_iff_ne.2 hne]
      exact ih hrest hmem

/-! ### Adding all functions again -/

theorem insertGroup_of_not_mem (h : f.name ∉ groups.map (·.1)) (fs : List Function) :
    insertGroup f groups = groups ++ [(f.name, [f])] ∧
      insertGroup f (groups ++ [(f.name, fs)]) = groups ++ [(f.name, fs ++ [f])] := by
  induction groups with
  | nil => simp [insertGroup]
  | cons group groups ih =>
    obtain ⟨name, fs'⟩ := group
    simp only [List.map_cons, List.mem_cons, not_or] at h
    obtain ⟨hnew, hlast⟩ := ih h.2
    constructor
    · rw [insertGroup, if_neg (Ne.symm h.1), hnew]
      rfl
    · rw [List.cons_append, insertGroup, if_neg (Ne.symm h.1), hlast]
      rfl

/-- The functions of one more name make its group. -/
theorem foldl_push_group (h : name ∉ groups.map (·.1)) (hfs : fs ≠ [])
    (hnamed : ∀ f ∈ fs, f.name = name) :
    fs.foldl push ⟨groups⟩ = ⟨groups ++ [(name, fs)]⟩ := by
  obtain ⟨f, fs, rfl⟩ := List.exists_cons_of_ne_nil hfs
  have hrest : ∀ gs gs' : List Function, (∀ f ∈ gs', f.name = name) →
      gs'.foldl push ⟨groups ++ [(name, gs)]⟩ = ⟨groups ++ [(name, gs ++ gs')]⟩ := by
    intro gs gs' hgs
    induction gs' generalizing gs with
    | nil => simp
    | cons g gs' ih =>
      have hg := hgs g (.head _)
      subst hg
      rw [List.foldl_cons, push, (insertGroup_of_not_mem h gs).2, ih _ fun f hf => hgs f (.tail _ hf)]
      simp
  have hf := hnamed f (.head _)
  subst hf
  rw [List.foldl_cons, push, (insertGroup_of_not_mem h []).1,
    hrest _ _ fun g hg => hnamed g (.tail _ hg)]
  rfl

theorem foldl_push_groups
    (h : ∀ g ∈ more, g.1 ∉ groups.map (·.1)) (hmore : Grouped more) :
    (more.flatMap (·.2)).foldl push ⟨groups⟩ = ⟨groups ++ more⟩ := by
  induction more generalizing groups with
  | nil => simp
  | cons group more ih =>
    obtain ⟨name, fs⟩ := group
    obtain ⟨⟨hname, hfilled, hnamed⟩, hrest⟩ := grouped_cons.1 hmore
    rw [List.flatMap_cons, List.foldl_append, foldl_push_group (h _ (.head _)) hfilled hnamed,
      ih ?_ hrest, List.append_assoc]
    · rfl
    · intro g hg
      rw [List.map_append, List.mem_append, not_or]
      refine ⟨h g (.tail _ hg), ?_⟩
      rw [List.map_singleton, List.mem_singleton]
      intro heq
      have hmem : g.1 ∈ more.map (·.1) := List.mem_map_of_mem hg
      rw [heq] at hmem
      exact hname hmem

/-- The functions of a registry, changed without changing their names, make a registry that lists
them. -/
theorem Made.foldl_push_map (h : r.Made)
    (hname : ∀ f, (change f).name = f.name) :
    ((r.all.map change).foldl Registry.push .empty).all = r.all.map change := by
  let more := r.groups.map fun g => (g.1, g.2.map change)
  have hall : r.all.map change = more.flatMap (·.2) := by
    simp [more, all, List.map_flatMap, List.flatMap_map]
  have hmore : Grouped more := by
    refine ⟨?_, ?_, ?_⟩
    · simpa [more, Function.comp_def] using h.grouped.nodup
    · intro g hg
      obtain ⟨g', hg', rfl⟩ := List.mem_map.1 hg
      simpa using h.grouped.filled hg'
    · intro g f hg hf
      obtain ⟨g', hg', rfl⟩ := List.mem_map.1 hg
      obtain ⟨f', hf', rfl⟩ := List.mem_map.1 hf
      exact (hname f').trans (h.grouped.named (g := g') hg' hf')
  rw [hall, Registry.empty, foldl_push_groups (by simp) hmore]
  rfl

end Classwright.Registry
