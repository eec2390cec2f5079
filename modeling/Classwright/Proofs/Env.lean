import Classwright.Proofs.Registry.Overloads

/-!
Environments and scopes in which every type takes the slots of its descriptor (`Env.Sound`,
`Scopes.Sound`): what a name is found to be takes those slots too, and a call that is resolved gives
each parameter an argument that it takes.
-/

namespace Classwright

/-! ### Functions -/

namespace Registry

/-- The overload that a call takes is there, and its parameters take the arguments. -/
theorem of_lookup? {r : Registry}
    (h : r.lookup? name args = some f) :
    f ∈ r.all ∧ List.Forall₂ (fun t u => t.assignable u = true) f.sig.ins args := by
  obtain ⟨c, i, hi, hcost, -⟩ := isBest_of_lookup? h
  obtain ⟨htakes, -⟩ := Function.callCost?_eq_some_iff.1 hcost
  exact ⟨mem_of_mem_overloads (List.mem_of_getElem? hi),
    List.forall₂_iff_zip.2 ⟨htakes.length, htakes.assignable⟩⟩

/-- All functions of a registry take the slots of their descriptors. -/
def IsProper (r : Registry) : Prop := ∀ f ∈ r.all, f.sig.isProper = true

theorem IsProper.add {r : Registry} (h : r.IsProper) (hf : f.sig.isProper = true)
    (hr : r.add f = .ok r') : r'.IsProper := forall_add h hf hr

theorem isProper_empty : empty.IsProper := nofun

theorem IsProper.merge {r : Registry} (h : r.IsProper) (ho : other.IsProper) :
    (r.merge other).1.IsProper := forall_addAll h ho

end Registry

/-! ### Variables -/

/-- A variable holds values that take the slots of its descriptor. -/
structure Var.Sound (v : Var) : Prop where
  tight : v.type.isTight = true
  isVoid : v.type.isVoid = false

/-- All variables in scope are sound, and so is the result of the method that is being written. -/
structure Scopes.Sound (s : Scopes) : Prop where
  vars : ∀ vs ∈ s.vars, ∀ v ∈ vs, v.Sound
  result : s.frame = some f → f.result = some t → t.isTight = true

namespace Scopes

variable {s : Scopes}

theorem Sound.of_lookup? (h : s.Sound)
    (hv : s.lookup? name = some v) : v.Sound := by
  obtain ⟨vs, hvs, hfind⟩ := List.exists_of_findSome?_eq_some hv
  exact h.vars vs hvs v (List.mem_of_find?_eq_some hfind)

theorem Sound.push (h : s.Sound) : s.push.Sound where
  vars vs hvs := by
    rcases List.mem_cons.1 hvs with rfl | hvs
    · exact List.forall_mem_nil _
    · exact h.vars vs hvs
  result := h.result

theorem result_releaseAll (f : Frame) (vs : List Var) : (releaseAll f vs).result = f.result := by
  unfold releaseAll
  induction vs generalizing f with
  | nil => rfl
  | cons v vs ih =>
    rw [List.foldl_cons, ih]
    split <;> rfl

theorem Sound.pop (h : s.Sound) : s.pop.Sound := by
  unfold Scopes.pop
  split
  · exact h
  · next vs outer hvars =>
    refine ⟨fun vs' hvs' => h.vars vs' (hvars ▸ .tail _ hvs'), ?_⟩
    intro f t hf ht
    obtain ⟨f', hf', rfl⟩ := Option.map_eq_some_iff.1 hf
    rw [result_releaseAll] at ht
    exact h.result hf' ht

/-- What declaring a variable does: the innermost scope gets it, perhaps in a slot, and the result of
the method stays. -/
theorem of_declare (h : s.declare v = .ok (v', s')) :
    v'.name = v.name ∧ v'.type = v.type ∧ v'.kind = v.kind ∧
      (∃ vs outer, s.vars = vs :: outer ∧ s'.vars = (v' :: vs) :: outer) ∧
      s'.frame.map (·.result) = s.frame.map (·.result) := by
  unfold declare at h
  split at h
  · cases h
  · next vs outer hvars =>
    split at h
    · cases h
    · split at h
      · split at h
        · cases h
        · next f hf =>
          cases h
          exact ⟨rfl, rfl, rfl, ⟨vs, outer, hvars, rfl⟩, by rw [hf]; rfl⟩
      · cases h
        exact ⟨rfl, rfl, rfl, ⟨vs, outer, hvars, rfl⟩, rfl⟩

theorem Sound.declare (h : s.Sound) (hv : v.Sound)
    (hd : s.declare v = .ok (v', s')) : v'.Sound ∧ s'.Sound := by
  obtain ⟨-, htype, -, ⟨vs, outer, hvars, hvars'⟩, hframe⟩ := of_declare hd
  have hv' : v'.Sound := ⟨htype ▸ hv.tight, htype ▸ hv.isVoid⟩
  refine ⟨hv', ?_, ?_⟩
  · intro us hus u hu
    rw [hvars'] at hus
    rcases List.mem_cons.1 hus with rfl | hus
    · rcases List.mem_cons.1 hu with rfl | hu
      · exact hv'
      · exact h.vars vs (hvars ▸ .head _) u hu
    · exact h.vars us (hvars ▸ .tail _ hus) u hu
  · intro f t hf ht
    rw [hf] at hframe
    obtain ⟨f', hf', hresult⟩ := Option.map_eq_some_iff.1 hframe.symm
    exact h.result hf' (hresult.trans ht)

/-! #### Scopes that grow -/

/-- All names that are known stand for variables in scope. -/
def Covers (s : Scopes) (known : List Text) : Prop :=
  ∀ name ∈ known, (s.lookup? name).isSome = true

/-- Scopes in which the innermost one may have got more variables. -/
structure Extends (s s' : Scopes) : Prop where
  head : ∃ new, s'.vars.head? = s.vars.head?.map (new ++ ·)
  tail : s'.vars.tail = s.vars.tail
  result : s'.frame.map (·.result) = s.frame.map (·.result)

theorem Extends.refl (s : Scopes) : s.Extends s where
  head := ⟨[], by simp⟩
  tail := rfl
  result := rfl

theorem Extends.trans (h : s.Extends s') (h' : s'.Extends s'') :
    s.Extends s'' := by
  obtain ⟨new, hnew⟩ := h.head
  obtain ⟨new', hnew'⟩ := h'.head
  refine ⟨⟨new' ++ new, ?_⟩, h'.tail.trans h.tail, h'.result.trans h.result⟩
  rw [hnew', hnew, Option.map_map]
  congr 1
  funext vs
  exact (List.append_assoc new' new vs).symm

/-- A name that is in scope stays there. -/
theorem Extends.isSome_lookup? (h : s.Extends s')
    (hn : (s.lookup? name).isSome = true) : (s'.lookup? name).isSome = true := by
  obtain ⟨new, hnew⟩ := h.head
  have htail := h.tail
  unfold lookup? at hn ⊢
  cases hs : s.vars with
  | nil =>
    rw [hs] at hn
    cases hn
  | cons vs outer =>
    cases hs' : s'.vars with
    | nil =>
      rw [hs, hs'] at hnew
      cases hnew
    | cons us outer' =>
      rw [hs, hs'] at hnew htail
      cases hnew
      cases htail
      rw [hs, List.findSome?_cons] at hn
      rw [List.findSome?_cons, List.find?_append]
      cases new.find? (·.name == name) with
      | some v => rfl
      | none => exact hn

theorem Covers.extends (hk : s.Covers known) (h : s.Extends s') :
    s'.Covers known :=
  fun name hname => h.isSome_lookup? (hk name hname)

theorem extends_of_declare (h : s.declare v = .ok (v', s')) :
    s.Extends s' ∧ (s'.lookup? v.name).isSome = true := by
  obtain ⟨hname, -, -, ⟨vs, outer, hvars, hvars'⟩, hframe⟩ := of_declare h
  refine ⟨⟨⟨[v'], by simp [hvars, hvars']⟩, by rw [hvars, hvars']; rfl, hframe⟩, ?_⟩
  unfold lookup?
  rw [hvars', List.findSome?_cons, List.find?_cons_of_pos (by simp [hname])]
  rfl

/-- Leaving a scope brings back the variables from before it. -/
theorem Extends.pop (h : s.push.Extends s') : s.Extends s'.pop := by
  obtain ⟨new, hnew⟩ := h.head
  have htail := h.tail
  have hresult := h.result
  unfold push at hnew htail hresult
  unfold Scopes.pop
  cases hs' : s'.vars with
  | nil =>
    rw [hs'] at hnew
    cases hnew
  | cons vs outer =>
    rw [hs'] at htail
    cases htail
    refine ⟨⟨[], by simp⟩, rfl, ?_⟩
    rw [← hresult]
    dsimp only
    cases s'.frame with
    | none => rfl
    | some f => exact congrArg some (result_releaseAll f vs)

end Scopes

/-! ### Environments -/

/-- All types of a struct take the slots of their descriptors. -/
structure StructType.Sound (s : StructType) : Prop where
  fields : ∀ f ∈ s.fields, f.Sound ∧ f.type.isPlain = true
  kinds : ∀ f ∈ s.fields, f.kind = .field
  methods : s.methods.IsProper

structure Env.Sound (env : Env) : Prop where
  structs : ∀ s ∈ env.structs, s.Sound
  self : env.self = some s → s.Sound
  aliases : ∀ a ∈ env.aliases, a.2.isTight = true
  funcs : env.funcs.IsProper

theorem StructType.Sound.constructor {s : StructType} (h : s.Sound) :
    s.constructor.isProper = true := by
  rw [Signature.isProper_iff]
  refine ⟨fun t ht => ?_, rfl⟩
  obtain ⟨f, hf, rfl⟩ := List.mem_map.1 ht
  obtain ⟨hsound, hplain⟩ := h.fields f hf
  exact Ty.isProper_iff.2 ⟨hsound.tight, hplain⟩

namespace Env

variable {env : Env}

theorem mem_of_structOfClass? (h : env.structOfClass? cls = some s) :
    s ∈ env.structs := List.mem_of_find?_eq_some h

/-- Only references to an object of a struct have properties and methods. -/
theorem of_structOf? (h : env.structOf? t = some s) :
    s ∈ env.structs ∧ t.size = 1 ∧ t.isVoid = false := by
  unfold structOf? at h
  split at h
  · exact ⟨mem_of_structOfClass? h, rfl, rfl⟩
  · exact ⟨mem_of_structOfClass? h, rfl, rfl⟩
  · cases h

/-- A function that a call by name takes. -/
theorem Sound.of_function (h : env.Sound)
    (hf : env.function tok name args = .ok f) :
    f.sig.isProper = true ∧ List.Forall₂ (fun t u => t.assignable u = true) f.sig.ins args := by
  have hmem : ∀ {r : Registry}, r.IsProper → r.lookup? name args = some f →
      f.sig.isProper = true ∧ List.Forall₂ (fun t u => t.assignable u = true) f.sig.ins args := by
    intro r hr hl
    obtain ⟨hmem, hargs⟩ := Registry.of_lookup? hl
    exact ⟨hr f hmem, hargs⟩
  unfold function at hf
  dsimp only at hf
  split at hf
  · next g hg =>
    cases hf
    rcases Option.or_eq_some_iff.1 hg with hown | ⟨-, hrest⟩
    · obtain ⟨s, hs, hl⟩ := Option.bind_eq_some_iff.1 hown
      exact hmem (h.self hs).methods hl
    · rcases Option.or_eq_some_iff.1 hrest with hfuncs | ⟨-, hstructs⟩
      · exact hmem h.funcs hfuncs
      · obtain ⟨s, hs, hl⟩ := List.exists_of_findSome?_eq_some hstructs
        exact hmem (h.structs s hs).methods hl
  · cases hf

/-- A method that a call on a value takes. -/
theorem Sound.of_method (h : env.Sound)
    (hf : env.method tok t name args = .ok f) :
    f.sig.isProper = true ∧ List.Forall₂ (fun t u => t.assignable u = true) f.sig.ins args ∧
      t.size = 1 := by
  unfold method at hf
  split at hf
  · cases hf
  · next s hs =>
    obtain ⟨hmem, hsize, -⟩ := of_structOf? hs
    split at hf
    · next g hl =>
      cases hf
      obtain ⟨hg, hargs⟩ := Registry.of_lookup? hl
      exact ⟨(h.structs s hmem).methods _ hg, hargs, hsize⟩
    · cases hf

theorem Sound.of_property (h : env.Sound)
    (hf : env.property tok t name = .ok (s, f)) :
    f.Sound ∧ t.size = 1 ∧ t.isVoid = false := by
  unfold property at hf
  split at hf
  · cases hf
  · next s' hs =>
    obtain ⟨hmem, hsize, hvoid⟩ := of_structOf? hs
    split at hf
    · cases hf
    · next f' hfield =>
      cases hf
      exact ⟨((h.structs _ hmem).fields _ (List.mem_of_find?_eq_some hfield)).1, hsize, hvoid⟩

/-! ### Types as they are written -/

theorem exists_prim_or_cls_of_ofName? (h : Ty.ofName? name = some t) :
    (∃ p, t = .prim p) ∨ ∃ c, t = .cls c ∧ ascii ';' ∉ c := by
  have hif : ∀ {c : Prop} [Decidable c] {u v : Option Ty}, (if c then u else v) = some t →
      u = some t ∨ v = some t := by
    intro c _ u v h
    split at h
    · exact .inl h
    · exact .inr h
  have hprim : ∀ {p : Prim}, some (Ty.prim p) = some t → ∃ p, t = .prim p :=
    fun h => ⟨_, (Option.some.inj h).symm⟩
  have hcls : ∀ {c : Text}, ascii ';' ∉ c → some (Ty.cls c) = some t →
      ∃ c, t = .cls c ∧ ascii ';' ∉ c :=
    fun hc h => ⟨_, (Option.some.inj h).symm, hc⟩
  unfold Ty.ofName? at h
  iterate 9
    rcases hif h with h | h
    · exact .inl (hprim h)
  iterate 3
    rcases hif h with h | h
    · exact .inr (hcls (by decide) h)
  cases h

/-- What a bare name may stand for. -/
inductive Named (env : Env) (name : Text) : Ty → Prop
  | prim (p : Prim) : Named env name (.prim p)
  | builtin {c : Text} : ascii ';' ∉ c → Named env name (.cls c)
  | other : a ∈ env.aliases → Named env name a.2
  | struct : s ∈ env.structs → Named env name s.type
  | host : Named env name (.cls (name.map fun b => if b = ascii '.' then ascii '/' else b))

theorem of_named (h : env.named tok name = .ok t) :
    Named env name t := by
  unfold named at h
  dsimp only at h
  split at h
  · next u hu =>
    cases h
    rcases Option.or_eq_some_iff.1 hu with hname | ⟨-, hu⟩
    · rcases exists_prim_or_cls_of_ofName? hname with ⟨p, rfl⟩ | ⟨c, rfl, hc⟩
      · exact .prim p
      · exact .builtin hc
    rcases Option.or_eq_some_iff.1 hu with halias | ⟨-, hu⟩
    · obtain ⟨l₁, l₂, hl, -⟩ := List.lookup_eq_some_iff.1 halias
      exact .other (a := (name, t)) (by simp [hl])
    rcases Option.or_eq_some_iff.1 hu with hstruct | ⟨-, hhost⟩
    · obtain ⟨s, hs, rfl⟩ := Option.map_eq_some_iff.1 hstruct
      exact .struct (List.mem_of_find?_eq_some hs)
    · unfold hostClass? at hhost
      split at hhost
      · cases hhost
        exact .host
      · cases hhost
  · cases h

/-- A property of types that marks and unions keep. -/
structure Lifts (P : Ty → Prop) : Prop where
  list : P .list
  nullable : P t → Env.nullable tok t = .ok u → P u
  union : (∀ t ∈ ts, P t ∧ t.isVoid = false) → P (Ty.unionOf ts)

theorem Lifts.of_typeName (hP : Lifts P)
    (hn : ∀ u, Named env n.name u → P u) (h : env.typeName n = .ok t) : P t := by
  have hmark : ∀ u : Ty, P u → (if n.nullable then Env.nullable n.tok u else pure u) = .ok t → P t := by
    intro u hu ht
    split at ht
    · exact hP.nullable hu ht
    · cases ht
      exact hu
  unfold typeName at h
  dsimp only at h
  split at h
  · exact hmark _ hP.list h
  · obtain ⟨u, hu, h⟩ := bind_eq_ok h
    exact hmark u (hn u (of_named hu)) h

theorem Lifts.of_unionMembers (hP : Lifts P)
    (hns : ∀ n ∈ ns, ∀ u, Named env n.name u → P u) (h : env.unionMembers ns = .ok ts) :
    ∀ t ∈ ts, P t ∧ t.isVoid = false := by
  induction ns generalizing ts with
  | nil =>
    cases h
    exact List.forall_mem_nil _
  | cons n ns ih =>
    rw [unionMembers] at h
    obtain ⟨t, hn, h⟩ := bind_eq_ok h
    split at h
    · cases h
    · next hvoid =>
      obtain ⟨us, hus, h⟩ := bind_eq_ok h
      cases h
      refine List.forall_mem_cons.2 ⟨⟨hP.of_typeName (hns n (.head _)) hn, by simpa using hvoid⟩, ?_⟩
      exact ih (fun m hm => hns m (.tail _ hm)) hus

/-- What holds of bare names holds of a type as it is written. -/
theorem Lifts.of_typeRef (hP : Lifts P)
    (hr : ∀ n ∈ r.members, ∀ u, Named env n.name u → P u) (h : env.typeRef r = .ok t) : P t := by
  unfold typeRef at h
  split at h
  · exact hP.of_typeName (hr _ (.head _)) h
  · obtain ⟨ts, hts, h⟩ := bind_eq_ok h
    cases h
    exact hP.union (hP.of_unionMembers hr hts)

end Env

namespace Ty

mutual

/-- The types that a type stands for in a union. -/
def parts : Ty → List Ty
  | union ts => partsAll ts
  | t => [t]

def partsAll : List Ty → List Ty
  | [] => []
  | t :: ts => parts t ++ partsAll ts

end

/-- One more member of a union, unless it is there. -/
def place (ms : List Ty) (t : Ty) : List Ty := if hasMember ms t then ms else ms ++ [t]

mutual

theorem addMember_eq (ms : List Ty) (t : Ty) : addMember ms t = (parts t).foldl place ms := by
  match t with
  | union ts => rw [addMember, parts, addMembers_eq]
  | .prim _ | .cls _ | .null | .nullable _ | .method _ _ => rfl

theorem addMembers_eq (ms ts : List Ty) : addMembers ms ts = (partsAll ts).foldl place ms := by
  match ts with
  | [] => rfl
  | t :: ts => rw [addMembers, partsAll, List.foldl_append, addMember_eq, addMembers_eq]

end

mutual

/-- What holds of a union's members if it holds of the union holds of the types that a type stands for. -/
theorem forall_parts {P : Ty → Prop} (hP : ∀ ts, P (.union ts) → ∀ t ∈ ts, P t) (h : P t) :
    ∀ x ∈ parts t, P x := by
  match t with
  | .union ts => exact forall_partsAll hP (hP ts h)
  | .prim _ | .cls _ | .null | .nullable _ | .method _ _ => exact List.forall_mem_singleton.2 h

theorem forall_partsAll {P : Ty → Prop} (hP : ∀ ts, P (.union ts) → ∀ t ∈ ts, P t)
    (h : ∀ t ∈ ts, P t) : ∀ x ∈ partsAll ts, P x := by
  match ts with
  | [] => exact List.forall_mem_nil _
  | t :: ts =>
    exact List.forall_mem_append.2 ⟨forall_parts hP (h t (.head _)),
      forall_partsAll hP fun u hu => h u (.tail _ hu)⟩

end

theorem mem_of_mem_foldl_place {ts : List Ty} (h : t ∈ ts.foldl place ms) : t ∈ ms ∨ t ∈ ts := by
  induction ts generalizing ms with
  | nil => exact .inl h
  | cons u ts ih =>
    rcases ih h with h | h
    · unfold place at h
      split at h
      · exact .inl h
      · exact (List.mem_append.1 h).imp_right fun h => by simp [List.mem_singleton.1 h]
    · exact .inr (.tail _ h)

/-- A union gets no members but the types that are added, or theirs. -/
theorem addMembers_subset (ts : List Ty) : addMembers [] ts ⊆ partsAll ts := fun t ht => by
  rw [addMembers_eq] at ht
  exact (mem_of_mem_foldl_place ht).resolve_left nofun

/-- What holds of the members of a union holds of it, if it is one. -/
theorem unionOf_cases {P : Ty → Prop} (hP : ∀ ts, P (.union ts) → ∀ t ∈ ts, P t)
    (hts : ∀ t ∈ ts, P t) : P (unionOf ts) ∨ ∃ us, unionOf ts = .union us ∧ ∀ u ∈ us, P u := by
  have hall : ∀ u ∈ addMembers [] ts, P u := fun u hu => forall_partsAll hP hts u (addMembers_subset ts hu)
  unfold unionOf
  split
  · next t ht =>
    rw [ht] at hall
    exact .inl (hall t (.head _))
  · exact .inr ⟨_, rfl, hall⟩

end Ty

namespace Env

variable {env : Env}

theorem lifts_isTight : Lifts fun t => t.isTight = true where
  list := rfl
  nullable {t _ _} ht hu := by
    unfold nullable at hu
    split at hu
    · cases hu
    · cases hu
      rfl
    · cases hu
      exact ht
    · cases hu
      rfl
    · next hprim _ _ =>
      cases hu
      refine Ty.isTight_nullable.2 ⟨?_, ht⟩
      cases t with
      | prim p => exact absurd rfl (hprim p)
      | _ => rfl
  union {ts} hts := by
    rcases Ty.unionOf_cases (P := fun t => t.isTight = true ∧ t.isVoid = false)
      (fun _ h => Ty.isTight_union.1 h.1) hts with h | ⟨us, hus, hall⟩
    · exact h.1
    · rw [hus]
      exact Ty.isTight_union.2 hall

theorem tight_of_named (h : ∀ a ∈ env.aliases, a.2.isTight = true)
    (ht : Named env name t) : t.isTight = true := by
  cases ht with
  | prim | builtin | struct | host => rfl
  | other ha => exact h _ ha

theorem tight_of_typeName (h : ∀ a ∈ env.aliases, a.2.isTight = true)
    (ht : env.typeName n = .ok t) : t.isTight = true :=
  lifts_isTight.of_typeName (fun _ => tight_of_named h) ht

theorem tight_of_typeRef (h : ∀ a ∈ env.aliases, a.2.isTight = true)
    (ht : env.typeRef r = .ok t) : t.isTight = true :=
  lifts_isTight.of_typeRef (fun _ _ _ => tight_of_named h) ht

theorem typeRef_congr {env' : Env} (h : ∀ tok name, env'.named tok name = env.named tok name)
    (r : TypeRef) : env'.typeRef r = env.typeRef r := by
  have hname : ∀ n, env'.typeName n = env.typeName n := by
    intro n
    unfold typeName
    rw [h]
  have hmembers : ∀ ns, env'.unionMembers ns = env.unionMembers ns := by
    intro ns
    induction ns with
    | nil => rfl
    | cons n ns ih => rw [unionMembers, unionMembers, hname, ih]
  unfold typeRef
  rw [hname, hmembers]

end Env

end Classwright
