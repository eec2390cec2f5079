import Classwright.Proofs.Ty.Same

/-!
Unions are canonical. A union is made from the types that are left when nested unions are opened
(`Ty.partsAll`), each of which is placed unless it is there already. The union is therefore the same
for types in another order, several times or in other groups (`Ty.Rearranges`), and it is equal for
types that are only grouped in another way (`Ty.Regroups`).
-/

namespace Classwright.Ty

theorem partsAll_append (ts us : List Ty) : partsAll (ts ++ us) = partsAll ts ++ partsAll us := by
  induction ts with
  | nil => rfl
  | cons t ts ih => rw [List.cons_append, partsAll, partsAll, ih, List.append_assoc]

theorem mem_partsAll : x ∈ partsAll ts ↔ ∃ t ∈ ts, x ∈ parts t := by
  induction ts with
  | nil => simp [partsAll]
  | cons t ts ih => simp [partsAll, ih]

mutual

/-- A part is no union. -/
theorem parts_of_mem (h : x ∈ parts t) : parts x = [x] := by
  match t with
  | .union ts => exact @parts_of_mem_partsAll ts _ h
  | .prim _ | .cls _ | .null | .nullable _ | .method _ _ =>
    cases List.mem_singleton.1 h
    rfl

theorem parts_of_mem_partsAll (h : x ∈ partsAll ts) : parts x = [x] := by
  match ts with
  | t :: ts => exact (List.mem_append.1 h).elim parts_of_mem parts_of_mem_partsAll

end

/-! ### Members -/

section
variable {ms ts : List Ty} {t : Ty}

theorem hasMember_place (h : hasMember ms u = true) : hasMember (place ms t) u = true := by
  obtain ⟨m, hm, hsame⟩ := hasMember_iff.1 h
  unfold place
  split
  · exact h
  · exact hasMember_iff.2 ⟨m, List.mem_append_left _ hm, hsame⟩

theorem hasMember_place_self (h : Distinct t) : hasMember (place ms t) t = true := by
  unfold place
  split
  · assumption
  · exact hasMember_iff.2 ⟨t, by simp, h.same_refl⟩

theorem hasMember_foldl_place (hts : ∀ t ∈ ts, Distinct t) (h : hasMember ms u = true ∨ u ∈ ts) :
    hasMember (ts.foldl place ms) u = true := by
  induction ts generalizing ms with
  | nil => simpa using h
  | cons t ts ih =>
    refine ih (fun v hv => hts v (.tail _ hv)) ?_
    rcases h with h | h
    · exact .inl (hasMember_place h)
    · rcases List.mem_cons.1 h with rfl | h
      · exact .inl (hasMember_place_self (hts u (.head _)))
      · exact .inr h

/-- Types that were placed somewhere else before are placed as if they had not been. -/
theorem foldl_place_foldl (hds : ∀ t ∈ ds, Distinct t) (hts : ∀ t ∈ ts, Distinct t) :
    (ts.foldl place ds).foldl place ms = ts.foldl place (ds.foldl place ms) := by
  induction ts generalizing ds with
  | nil => rfl
  | cons t ts ih =>
    have ht := hts t (.head _)
    have hts := fun v hv => hts v (.tail _ hv)
    rw [List.foldl_cons, List.foldl_cons]
    by_cases h : hasMember ds t = true
    · obtain ⟨d, hd, hdt⟩ := hasMember_iff.1 h
      have hd' : hasMember (ds.foldl place ms) d = true := hasMember_foldl_place hds (.inr hd)
      obtain ⟨m, hm, hmd⟩ := hasMember_iff.1 hd'
      have hmt := hasMember_iff.2 ⟨m, hm, ht.same_trans.2 hmd hdt⟩
      rw [place, if_pos h, ih hds hts, place, if_pos hmt]
    · rw [place, if_neg h, ih (List.forall_mem_append.2 ⟨hds, List.forall_mem_singleton.2 ht⟩) hts,
        List.foldl_append]
      rfl

end

theorem exists_mem_addMembers (hts : ∀ t ∈ partsAll ts, Distinct t)
    (ht : t ∈ partsAll ts) : ∃ m ∈ addMembers [] ts, m.same t = true := by
  rw [addMembers_eq]
  exact hasMember_iff.1 (hasMember_foldl_place hts (.inr ht))

theorem distinct_unionOf (hts : ∀ t ∈ partsAll ts, Distinct t) : Distinct (unionOf ts) := by
  have hsub := addMembers_subset ts
  unfold unionOf
  split
  · next h => exact hts _ (hsub (h ▸ .head _))
  · exact .union (fun m hm => hts m (hsub hm)) (pairwise_addMembers ts)

theorem parts_unionOf (ts : List Ty) : parts (unionOf ts) = addMembers [] ts := by
  have hsub := addMembers_subset ts
  have hall (ms : List Ty) (hsub : ms ⊆ partsAll ts) : partsAll ms = ms := by
    induction ms with
    | nil => rfl
    | cons m ms ih =>
      rw [partsAll, parts_of_mem_partsAll (hsub (.head _)), ih fun _ h => hsub (.tail _ h)]
      rfl
  unfold unionOf
  split
  · next h => exact h ▸ parts_of_mem_partsAll (hsub (h ▸ .head _))
  · exact hall _ hsub

/-- Unions of types that stand for the same types are the same. -/
theorem same_unionOf (hts : ∀ t ∈ partsAll ts, Distinct t)
    (hsub : partsAll us ⊆ partsAll ts) (hcover : ∀ t ∈ partsAll ts, ∃ u ∈ partsAll us, u.same t = true) :
    (unionOf ts).same (unionOf us) = true := by
  have hus := fun u hu => hts u (hsub hu)
  have hms := fun m hm => hts m (addMembers_subset ts hm)
  have hns := fun n hn => hus n (addMembers_subset us hn)
  have hmembers : ∀ m ∈ addMembers [] ts, ∃ n ∈ addMembers [] us, n.same m = true := fun m hm => by
    obtain ⟨u, hu, hum⟩ := hcover m (addMembers_subset ts hm)
    obtain ⟨n, hn, hnu⟩ := exists_mem_addMembers hus hu
    exact ⟨n, hn, (hms m hm).same_trans.2 hnu hum⟩
  obtain ⟨zs, hperm, hall⟩ := exists_perm_of_covers hns (pairwise_addMembers us) hms
    (pairwise_addMembers ts) hmembers fun n hn =>
      exists_mem_addMembers hts (hsub (addMembers_subset us hn))
  have hlength := hperm.length_eq.symm.trans hall.length_eq
  have hsame := same_union_iff.2 ⟨hlength, hmembers⟩
  unfold unionOf
  generalize addMembers [] ts = ms, addMembers [] us = ns at *
  rcases ms with _ | ⟨m, _ | ⟨m', ms⟩⟩ <;> rcases ns with _ | ⟨n, _ | ⟨n', ns⟩⟩
  case cons.nil.cons.nil =>
    obtain ⟨_, hn, hnm⟩ := hmembers m (.head _)
    cases List.mem_singleton.1 hn
    exact ((hns n (.head _)).same_symm (hms m (.head _))).1 hnm
  all_goals first | exact hsame | cases hlength

/-! ### Other orders and other groups -/

/-- Types are put together in a union, as it stands or without what is there twice, or they are taken
out of one. -/
inductive Regroups : List Ty → List Ty → Prop
  | group (xs ys zs : List Ty) : Regroups (xs ++ (ys ++ zs)) (xs ++ union ys :: zs)
  | unite (xs ys zs : List Ty) : Regroups (xs ++ (ys ++ zs)) (xs ++ unionOf ys :: zs)
  | ungroup (xs ys zs : List Ty) : Regroups (xs ++ union ys :: zs) (xs ++ (ys ++ zs))

/-- Types are put in other groups or in another order, or one of them is repeated. -/
inductive Rearranges : List Ty → List Ty → Prop
  | regroup : Regroups ts us → Rearranges ts us
  | reorder : ts.Perm us → Rearranges ts us
  | again : t ∈ ts → Rearranges ts (t :: ts)

variable {ts us : List Ty}

theorem partsAll_group (xs ys zs : List Ty) :
    partsAll (xs ++ union ys :: zs) = partsAll (xs ++ (ys ++ zs)) := by
  simp only [partsAll_append, partsAll, parts]

theorem Regroups.subset (h : Regroups ts us) : partsAll us ⊆ partsAll ts := by
  cases h with
  | group xs ys zs | ungroup xs ys zs => rw [partsAll_group]; exact List.Subset.refl _
  | unite xs ys zs =>
    have := addMembers_subset ys
    simp only [partsAll_append, partsAll, parts_unionOf]
    grind

theorem Regroups.addMembers_eq (h : Regroups ts us) (hts : ∀ t ∈ partsAll ts, Distinct t) :
    addMembers [] us = addMembers [] ts := by
  cases h with
  | group xs ys zs | ungroup xs ys zs => rw [Ty.addMembers_eq, Ty.addMembers_eq, partsAll_group]
  | unite xs ys zs =>
    simp only [partsAll_append, List.forall_mem_append] at hts
    simp only [Ty.addMembers_eq, partsAll_append, partsAll, parts_unionOf, List.foldl_append,
      foldl_place_foldl (List.forall_mem_nil _) hts.2.1, List.foldl_nil]

/-- What a rearrangement keeps: the types that the types stand for. -/
theorem Rearranges.partsAll (h : Rearranges ts us) (hts : ∀ t ∈ partsAll ts, Distinct t) :
    partsAll us ⊆ partsAll ts ∧ ∀ t ∈ partsAll ts, ∃ u ∈ partsAll us, u.same t = true := by
  cases h with
  | regroup h =>
    refine ⟨h.subset, fun t ht => ?_⟩
    obtain ⟨m, hm, hmt⟩ := exists_mem_addMembers hts ht
    exact ⟨m, addMembers_subset us (h.addMembers_eq hts ▸ hm), hmt⟩
  | reorder h =>
    have hmem (t : Ty) : t ∈ Ty.partsAll ts ↔ t ∈ Ty.partsAll us := by
      simp only [mem_partsAll, h.mem_iff]
    exact ⟨fun t => (hmem t).2, fun t ht => ⟨t, (hmem t).1 ht, (hts t ht).same_refl⟩⟩
  | @again t h =>
    have hmem (u : Ty) : u ∈ Ty.partsAll (t :: ts) ↔ u ∈ Ty.partsAll ts := by
      simp only [mem_partsAll, List.exists_mem_cons_iff, or_iff_right_iff_imp]
      exact fun hu => ⟨t, h, hu⟩
    exact ⟨fun u => (hmem u).1, fun u hu => ⟨u, (hmem u).2 hu, (hts u hu).same_refl⟩⟩

theorem distinct_of_mem_partsAll (hts : ∀ t ∈ ts, Distinct t) : ∀ t ∈ partsAll ts, Distinct t := by
  refine forall_partsAll (P := Distinct) ?_ hts
  rintro _ ⟨⟩
  assumption

/-- Rearranging several times keeps the types that the types stand for. -/
theorem partsAll_of_rearranges (h : Relation.ReflTransGen Rearranges ts us)
    (hts : ∀ t ∈ partsAll ts, Distinct t) :
    partsAll us ⊆ partsAll ts ∧ ∀ t ∈ partsAll ts, ∃ u ∈ partsAll us, u.same t = true := by
  induction h with
  | refl => exact ⟨List.Subset.refl _, fun t ht => ⟨t, ht, (hts t ht).same_refl⟩⟩
  | tail _ h ih =>
    obtain ⟨hsub, hcover⟩ := h.partsAll fun t ht => hts t (ih.1 ht)
    refine ⟨List.Subset.trans hsub ih.1, fun t ht => ?_⟩
    obtain ⟨u, hu, hut⟩ := ih.2 t ht
    obtain ⟨v, hv, hvu⟩ := hcover u hu
    exact ⟨v, hv, (hts t ht).same_trans.2 hvu hut⟩

theorem addMembers_of_regroups (h : Relation.ReflTransGen Regroups ts us)
    (hts : ∀ t ∈ partsAll ts, Distinct t) :
    partsAll us ⊆ partsAll ts ∧ addMembers [] us = addMembers [] ts := by
  induction h with
  | refl => exact ⟨List.Subset.refl _, rfl⟩
  | tail _ h ih =>
    exact ⟨List.Subset.trans h.subset ih.1, (h.addMembers_eq fun t ht => hts t (ih.1 ht)).trans ih.2⟩

/-- On types none of whose unions has a member twice, being the same is an equivalence; the union of
such types is one of them. It is the same for types in another order, several times or in other groups,
and equal if only the groups are others. -/
theorem unionOf_canonical :
    (∀ t, Distinct t → t.same t = true) ∧
    (∀ s t, Distinct s → Distinct t → s.same t = true → t.same s = true) ∧
    (∀ s t u, Distinct s → Distinct t → Distinct u → s.same t = true → t.same u = true →
      s.same u = true) ∧
    ∀ ts, (∀ t ∈ ts, Distinct t) → Distinct (unionOf ts) ∧
      (∀ us, Relation.ReflTransGen Rearranges ts us → (unionOf ts).same (unionOf us) = true) ∧
      ∀ us, Relation.ReflTransGen Regroups ts us → unionOf us = unionOf ts := by
  refine ⟨fun t ht => ht.same_refl, fun s t hs ht => (hs.same_symm ht).1,
    fun s t u hs _ _ => hs.same_trans.1, fun ts hts => ?_⟩
  have hts := distinct_of_mem_partsAll hts
  refine ⟨distinct_unionOf hts, fun us h => ?_, fun us h => ?_⟩
  · obtain ⟨hsub, hcover⟩ := partsAll_of_rearranges h hts
    exact same_unionOf hts hsub hcover
  · unfold unionOf
    rw [(addMembers_of_regroups h hts).2]

theorem unionOf_canonical_sampleGroups :
    (∀ t ∈ [int, string, bool], Distinct t) ∧
    Relation.ReflTransGen Rearranges [int, string, bool] [bool, union [string, int], int] ∧
    (unionOf [int, string, bool]).same (unionOf [bool, union [string, int], int]) = true ∧
    unionOf [int, unionOf [string, int], bool] = unionOf [int, string, int, bool] := by
  have hdistinct : ∀ t ∈ [int, string, int, bool], Distinct t := by
    simp only [List.forall_mem_cons, int, string, bool]
    exact ⟨.prim _, .cls _, .prim _, .prim _, nofun⟩
  have hall : ∀ t ∈ [int, string, bool], Distinct t := fun t ht => hdistinct t (by grind)
  have hchain : Relation.ReflTransGen Rearranges [int, string, bool] [bool, union [string, int], int] :=
    .tail (.tail (.single (.again (.head _))) (.reorder (List.reverse_perm _).symm))
      (.regroup (.group [bool] [string, int] [int]))
  exact ⟨hall, hchain, (unionOf_canonical.2.2.2 _ hall).2.1 _ hchain,
    (unionOf_canonical.2.2.2 _ hdistinct).2.2 _ (.single (.unite [int] [string, int] [bool]))⟩

end Classwright.Ty
