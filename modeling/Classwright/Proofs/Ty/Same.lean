import Classwright.Proofs.Env

/-!
Types that are the same. The members of a union are compared as a set by looking up each member of the
one in the other, which goes one way only. On types as they are built (`Ty.Built`), where no member of
a union is there twice, being the same is symmetric and transitive nevertheless.
-/

namespace Classwright

/-- Things with partners of their own among others can be put in the order of these partners. -/
theorem exists_partners {ys : List β}
    (hpartner : ∀ x ∈ xs, ∃ y ∈ ys, R x y)
    (hown : xs.Pairwise fun x x' => ∀ y ∈ ys, R x y → ¬ R x' y) :
    ∃ zs rest, (zs ++ rest).Perm ys ∧ List.Forall₂ R xs zs := by
  induction xs generalizing ys with
  | nil => exact ⟨[], ys, .refl _, .nil⟩
  | cons x xs ih =>
    obtain ⟨y, hy, hxy⟩ := hpartner x (.head _)
    obtain ⟨hx, hxs⟩ := List.pairwise_cons.1 hown
    obtain ⟨ys₁, ys₂, rfl⟩ := List.append_of_mem hy
    have hperm : (y :: (ys₁ ++ ys₂)).Perm (ys₁ ++ y :: ys₂) := List.perm_middle.symm
    obtain ⟨zs, rest, hzs, hall⟩ := @ih (ys₁ ++ ys₂)
      (fun x' hx' => by
        obtain ⟨y', hy', hxy'⟩ := hpartner x' (.tail _ hx')
        rcases List.mem_cons.1 (hperm.mem_iff.2 hy') with rfl | hy'
        · exact absurd hxy' (hx x' hx' y' hy hxy)
        · exact ⟨y', hy', hxy'⟩)
      (hxs.imp fun h y' hy' => h y' (hperm.mem_iff.1 (.tail _ hy')))
    exact ⟨y :: zs, rest, (hzs.cons y).trans hperm, .cons hxy hall⟩

/-- If there are no more partners than things, each of them is the partner of one. -/
theorem exists_perm_partners {ys : List β}
    (hpartner : ∀ x ∈ xs, ∃ y ∈ ys, R x y)
    (hown : xs.Pairwise fun x x' => ∀ y ∈ ys, R x y → ¬ R x' y) (hlength : ys.length ≤ xs.length) :
    ∃ zs, zs.Perm ys ∧ List.Forall₂ R xs zs := by
  obtain ⟨zs, rest, hperm, hall⟩ := exists_partners hpartner hown
  have hlengths := hperm.length_eq
  rw [List.length_append, ← hall.length_eq] at hlengths
  obtain rfl := List.length_eq_zero_iff.1 (show rest.length = 0 by omega)
  exact ⟨zs, by simpa using hperm, hall⟩

namespace Ty

theorem hasMember_iff : hasMember ms t = true ↔ ∃ m ∈ ms, m.same t = true := by
  induction ms with
  | nil => simp [hasMember]
  | cons m ms ih => simp [hasMember, ih]

theorem same_union_iff : (union ss).same (union ts) = true ↔
    ss.length = ts.length ∧ ∀ s ∈ ss, ∃ t ∈ ts, t.same s = true := by
  have hall (ss : List Ty) : allMembers ts ss = true ↔ ∀ s ∈ ss, ∃ t ∈ ts, t.same s = true := by
    induction ss with
    | nil => simp [allMembers]
    | cons s ss ih => simp [allMembers, ih, hasMember_iff]
  simp [same, hall]

theorem same_method_iff :
    (method is o).same (method js q) = true ↔ (is.length = js.length ∧
      ∀ i h h', (is.get ⟨i, h⟩).same (js.get ⟨i, h'⟩) = true) ∧
      (o.getD void).same (q.getD void) = true := by
  have hall : sameAll is js = true ↔ List.Forall₂ (fun s t => s.same t = true) is js := by
    induction is generalizing js with
    | nil => cases js <;> simp [sameAll]
    | cons s is ih => cases js <;> simp [sameAll, ih]
  have hvoid (t : Ty) : t.isVoid = void.same t ∧ t.isVoid = t.same void := by
    cases t with
    | prim p => cases p <;> simp [isVoid, void, same]
    | _ => simp [isVoid, void, same]
  have hresult : sameResult o q = (o.getD void).same (q.getD void) := by
    rcases o with _ | s <;> rcases q with _ | t <;> rw [sameResult]
    exacts [by simp [void, same], (hvoid t).1, (hvoid s).2, rfl]
  rw [same, Bool.and_eq_true, hall, hresult, List.forall₂_iff_get]

/-- No union in a type has the same member twice. -/
inductive Distinct : Ty → Prop
  | prim (p : Prim) : Distinct (prim p)
  | cls (name : Text) : Distinct (cls name)
  | null : Distinct null
  | nullable : Distinct t → Distinct (nullable t)
  | union : (∀ t ∈ ts, Distinct t) → ts.Pairwise (fun s t => s.same t = false) → Distinct (union ts)
  | method : (∀ t ∈ ins, Distinct t) → Distinct (out.getD void) → Distinct (method ins out)

/-- Types as they are built from written ones: only references are nullable, and the members of a union
are all different. -/
inductive Built : Ty → Prop
  | prim (p : Prim) : Built (prim p)
  | cls (name : Text) : Built (cls name)
  | null : Built null
  | nullable : t.isReference = true → Built t → Built (nullable t)
  | union : (∀ t ∈ ts, Built t) → ts.Pairwise (fun s t => s.same t = false) → Built (union ts)

variable {s t u : Ty}

theorem Distinct.same_refl (h : Distinct s) : s.same s = true := by
  induction h with
  | prim | cls | null => simp [same]
  | nullable _ ih => rwa [same]
  | union _ _ ih => exact same_union_iff.2 ⟨rfl, fun t ht => ⟨t, ht, ih t ht⟩⟩
  | method _ _ ihs ih => exact same_method_iff.2 ⟨⟨rfl, fun i h _ => ihs _ (List.get_mem _ _)⟩, ih⟩

theorem Distinct.same_trans (h : Distinct s) : (s.same t = true → t.same u = true → s.same u = true) ∧
    (u.same t = true → t.same s = true → u.same s = true) := by
  induction h generalizing t u with
  | prim | cls | null => cases t <;> cases u <;> simp +contextual [same]
  | nullable _ ih =>
    cases t with
    | nullable t =>
      cases u with
      | nullable u => simpa only [same] using ih
      | _ => simp [same]
    | _ => simp [same]
  | @union ss _ _ ih =>
    cases t with
    | union ts =>
      cases u with
      | union us =>
        simp only [same_union_iff]
        constructor
        · rintro ⟨hst, hss⟩ ⟨htu, hts⟩
          refine ⟨hst.trans htu, fun s hs => ?_⟩
          obtain ⟨t, ht, hts'⟩ := hss s hs
          obtain ⟨u, hu, hut⟩ := hts t ht
          exact ⟨u, hu, (ih s hs).2 hut hts'⟩
        · rintro ⟨hut, hus⟩ ⟨hts, htss⟩
          refine ⟨hut.trans hts, fun u hu => ?_⟩
          obtain ⟨t, ht, htu⟩ := hus u hu
          obtain ⟨s, hs, hst⟩ := htss t ht
          exact ⟨s, hs, (ih s hs).1 hst htu⟩
      | _ => simp [same]
    | _ => simp [same]
  | method _ _ ihs ih =>
    cases t with
    | method js q =>
      cases u with
      | method ks r =>
        simp only [same_method_iff]
        constructor
        · rintro ⟨⟨hij, his⟩, ho⟩ ⟨⟨hjk, hjs⟩, hq⟩
          exact ⟨⟨hij.trans hjk, fun n hi hk => (ihs _ (List.get_mem _ _)).1 (his n hi (hij ▸ hi))
            (hjs n _ hk)⟩, ih.1 ho hq⟩
        · rintro ⟨⟨hkj, hks⟩, hr⟩ ⟨⟨hji, hjs⟩, hq⟩
          exact ⟨⟨hkj.trans hji, fun n hk hi => (ihs _ (List.get_mem _ _)).2 (hks n hk (hkj ▸ hk))
            (hjs n _ hi)⟩, ih.2 hr hq⟩
      | _ => simp [same]
    | _ => simp [same]

/-- Different types are not the same as a third one. -/
theorem Distinct.not_same (hs : Distinct s) (h : s.same u = false) (hst : s.same t = true) :
    ¬ t.same u = true := fun htu => by
  cases h.symm.trans (hs.same_trans.1 hst htu)

theorem Distinct.same_symm (hs : Distinct s) (ht : Distinct t) :
    (s.same t = true → t.same s = true) ∧ (t.same s = true → s.same t = true) := by
  induction hs generalizing t with
  | prim | cls | null =>
    cases t <;> simp only [same, beq_iff_eq, Bool.false_eq_true, imp_self, and_self]
    all_goals exact ⟨Eq.symm, Eq.symm⟩
  | nullable _ ih =>
    cases ht with
    | nullable ht => simpa only [same] using ih ht
    | _ => simp [same]
  | @union ss hss hdistinct ih =>
    cases ht with
    | @union ts hts hdistinct' =>
      -- a member for each member, the other way round
      have hback {xs ys : List Ty} (hxs : ∀ x ∈ xs, Distinct x) (hlength : xs.length = ys.length)
          (hd : xs.Pairwise fun x x' => x.same x' = false)
          (hsymm : ∀ x ∈ xs, ∀ y ∈ ys, y.same x = true → x.same y = true)
          (h : ∀ x ∈ xs, ∃ y ∈ ys, y.same x = true) : ∀ y ∈ ys, ∃ x ∈ xs, x.same y = true := by
        obtain ⟨zs, hperm, hall⟩ := exists_perm_partners h (List.Pairwise.imp_of_mem
          (fun hx hx' hne y hy hyx hyx' => (hxs _ hx).not_same hne (hsymm _ hx y hy hyx) hyx') hd)
          (Nat.le_of_eq hlength.symm)
        intro y hy
        obtain ⟨x, hx, hyx⟩ := exists_of_forall₂ hall (hperm.mem_iff.2 hy)
        exact ⟨x, hx, hsymm x hx y hy hyx⟩
      simp only [same_union_iff]
      exact ⟨fun h => ⟨h.1.symm,
          hback hss h.1 hdistinct (fun s hs t ht => (ih s hs (hts t ht)).2) h.2⟩,
        fun h => ⟨h.1.symm,
          hback hts h.1 hdistinct' (fun t ht s hs => (ih s hs (hts t ht)).1) h.2⟩⟩
    | _ => simp [same]
  | method _ _ ihs ih =>
    cases ht with
    | method hjs hq =>
      simp only [same_method_iff]
      constructor
      · rintro ⟨⟨hl, h⟩, ho⟩
        exact ⟨⟨hl.symm, fun n hj hi =>
          (ihs _ (List.get_mem _ _) (hjs _ (List.get_mem _ _))).1 (h n hi hj)⟩, (ih hq).1 ho⟩
      · rintro ⟨⟨hl, h⟩, ho⟩
        exact ⟨⟨hl.symm, fun n hi hj =>
          (ihs _ (List.get_mem _ _) (hjs _ (List.get_mem _ _))).2 (h n hj hi)⟩, (ih hq).2 ho⟩
    | _ => simp [same]

theorem Built.distinct (h : Built t) : Distinct t := by
  induction h with
  | nullable _ _ ih => exact .nullable ih
  | union _ hdistinct ih => exact .union ih hdistinct
  | _ => constructor

/-- Different types that are all members of a union and cover it are its members in some order. -/
theorem exists_perm_of_covers (hms : ∀ m ∈ ms, Distinct m)
    (hmsdistinct : ms.Pairwise fun s t => s.same t = false) (htypes : ∀ t ∈ types, Distinct t)
    (hdistinct : types.Pairwise fun s t => s.same t = false)
    (hmembers : ∀ t ∈ types, ∃ m ∈ ms, m.same t = true)
    (hcovers : ∀ m ∈ ms, ∃ t ∈ types, t.same m = true) :
    ∃ ts, ts.Perm types ∧ List.Forall₂ (fun t m => t.same m = true) ts ms := by
  have hlength : types.length ≤ ms.length := by
    obtain ⟨zs, rest, hperm, hall⟩ := exists_partners hmembers (List.Pairwise.imp_of_mem
      (fun ht ht' hne m hm hmt hmt' =>
        (htypes _ ht).not_same hne (((htypes _ ht).same_symm (hms m hm)).2 hmt) hmt') hdistinct)
    rw [← hperm.length_eq, hall.length_eq, List.length_append]
    exact Nat.le_add_right _ _
  obtain ⟨ts, hperm, hall⟩ := exists_perm_partners hcovers (List.Pairwise.imp_of_mem
    (fun hm hm' hne t ht htm htm' =>
      (hms _ hm).not_same hne (((hms _ hm).same_symm (htypes t ht)).2 htm) htm') hmsdistinct) hlength
  exact ⟨ts, hperm, hall.flip⟩

theorem pairwise_foldl_place {ts : List Ty} (h : ms.Pairwise fun s t => s.same t = false) :
    (ts.foldl place ms).Pairwise fun s t => s.same t = false := by
  induction ts generalizing ms with
  | nil => exact h
  | cons t ts ih =>
    refine ih ?_
    unfold place
    split
    · exact h
    · next hnew =>
      refine List.pairwise_append.2 ⟨h, List.pairwise_singleton _ _, fun m hm u hu => ?_⟩
      cases List.mem_singleton.1 hu
      exact Bool.eq_false_iff.2 fun hsame => hnew (hasMember_iff.2 ⟨m, hm, hsame⟩)

theorem pairwise_addMembers (ts : List Ty) :
    (addMembers [] ts).Pairwise fun s t => s.same t = false := by
  rw [addMembers_eq]
  exact pairwise_foldl_place .nil

/-- Marks and unions as they are written give types of this kind. -/
theorem lifts_built : Env.Lifts Built where
  list := .cls _
  nullable {t _ _} ht hu := by
    unfold Env.nullable at hu
    split at hu
    · cases hu
    · cases hu
      exact .nullable rfl (.cls _)
    · cases hu
      exact ht
    · cases hu
      exact .null
    · cases hu
      cases ht with
      | prim p => exact absurd rfl (‹∀ p, Ty.prim _ = .prim p → False› p)
      | cls | null => exact .nullable rfl (by constructor)
      | nullable href ht => exact .nullable rfl (.nullable href ht)
      | union hts hdistinct => exact .nullable rfl (.union hts hdistinct)
  union {ts} hts := by
    have hbuilt : ∀ m ∈ addMembers [] ts, Built m := fun m hm =>
      forall_partsAll (P := Built) (by rintro _ ⟨⟩; assumption) (fun t ht => (hts t ht).1) m
        (addMembers_subset ts hm)
    unfold unionOf
    split
    · next t ht => exact hbuilt t (by simp [ht])
    · exact .union hbuilt (pairwise_addMembers ts)

theorem built_of_named (h : ∀ a ∈ env.aliases, a.2.Built)
    (ht : Env.Named env name t) : t.Built := by
  cases ht with
  | other ha => exact h _ ha
  | _ => constructor

end Ty

end Classwright
