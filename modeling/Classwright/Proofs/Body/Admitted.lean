import Classwright.Proofs.Body.Conversion
import Classwright.Proofs.Env

/-!
Values that a variable takes, and their conversions. What is assignable to a type is converted to it by
instructions that take the slots of the one type and leave those of the other (`Gen.Converts`). There is
one exception: what may be null is assignable to a nullable union whatever its members are, and cannot
be converted if none of them takes it (`Ty.Stranded`).
-/

namespace Classwright

namespace Ty

/-! ### Types of values -/

mutual

/-- Whether only references are nullable, and no value is a function. -/
def isFormed : Ty → Bool
  | prim _ | cls _ | null => true
  | nullable t => t.isReference && t.isFormed
  | union ts => areFormed ts
  | method _ _ => false

def areFormed : List Ty → Bool
  | [] => true
  | t :: ts => t.isFormed && areFormed ts

end

theorem isFormed_nullable :
    (nullable t).isFormed = true ↔ t.isReference = true ∧ t.isFormed = true := by
  rw [isFormed, Bool.and_eq_true]

theorem areFormed_iff : areFormed ts = true ↔ ∀ t ∈ ts, t.isFormed = true := by
  induction ts with
  | nil => simp [areFormed]
  | cons t ts ih => simp [areFormed, ih]

theorem isFormed_union : (union ts).isFormed = true ↔ ∀ t ∈ ts, t.isFormed = true := by
  rw [isFormed, areFormed_iff]

/-! ### What may be null -/

/-- Whether a value may be null by its type alone. -/
def isOptional : Ty → Bool
  | null | nullable _ => true
  | _ => false

/-- What may be null gets to a nullable union of which no member takes it, on the way to where it is
stored. -/
inductive Stranded (source : Ty) : Ty → Prop
  | union : source.isOptional = true → source.same (nullable (union ts)) = false →
    select? ts source = none → Stranded source (nullable (union ts))
  | nullable : source.same (nullable t) = false → Stranded source t → Stranded source (nullable t)
  | member : select? ts source = some (m, c) → Stranded source m → Stranded source (union ts)

variable {source target t m : Ty} {ts : List Ty}

theorem Stranded.isOptional (h : Stranded source target) : source.isOptional = true := by
  induction h with
  | union h _ _ => exact h
  | nullable _ _ ih => exact ih
  | member _ _ ih => exact ih

/-! ### Assignments by their targets -/

theorem exists_prim_of_assignable (h : (prim p).assignable source = true) :
    ∃ q, source = prim q := by
  cases source with
  | prim q => exact ⟨q, rfl⟩
  | _ => simp [assignable, assignCost?, same] at h

theorem eq_null_of_assignable (h : null.assignable source = true) : source = null := by
  cases source with
  | null => rfl
  | _ => simp [assignable, assignCost?, same] at h

theorem isOptional_or_assignable (h : (nullable t).assignable source = true) :
    source.isOptional = true ∨ t.assignable source = true := by
  cases source with
  | null | nullable => exact .inl rfl
  | prim p => exact .inr (assignable_of_nullable h)
  | _ =>
    right
    simpa [assignable, assignCost?.eq_def (nullable t), isVoid, same] using h

theorem isSome_select?_of_assignable (h : (union ts).assignable source = true)
    (hsource : ∀ ss, source ≠ union ss) : (select? ts source).isSome = true := by
  unfold assignable assignCost? at h
  split at h
  · cases h
  · cases source with
    | union ss => exact absurd rfl (hsource ss)
    | _ =>
      rw [if_neg (by simp [same])] at h
      simpa [select?] using h

end Ty

/-! ### Instructions -/

/-- The slots on the stack after instructions one after another, if each finds as many as it takes. -/
def Instr.depthAfter : List Instr → Int → Option Int
  | [], d => some d
  | i :: is, d => if i.pop ≤ d then depthAfter is (d - i.pop + i.push) else none

theorem Instr.depthAfter_append (is js : List Instr) (d : Int) :
    depthAfter (is ++ js) d = (depthAfter is d).bind (depthAfter js) := by
  induction is generalizing d with
  | nil => rfl
  | cons i is ih =>
    rw [List.cons_append, depthAfter, depthAfter]
    split
    · exact ih _
    · rfl

namespace Gen

/-- Writing some instructions and nothing else. -/
def Emits (m : Gen Unit) (is : List Instr) : Prop :=
  ∀ b, m b = .ok ((), { b with code := is.foldl Code.emit b.code })

/-- Writing instructions that are run in turn, take all of some slots and leave others. -/
def Converts (m : Gen Unit) (p q : Nat) : Prop :=
  ∃ is, Emits m is ∧ (∀ i ∈ is, i.target? = none ∧ i.op.isTerminal = false) ∧
    Instr.depthAfter is p = some q

section
variable {m m' : Gen Unit} {is js : List Instr} {p q r : Nat}

theorem Emits.bind (h : Emits m is) (h' : Emits m' js) : Emits (do m; m') (is ++ js) := by
  intro b
  change (m b >>= fun r => m' r.2) = _
  rw [h b, List.foldl_append]
  exact h' _

theorem converts_pure (p : Nat) : Converts (pure ()) p p := ⟨[], fun _ => rfl, nofun, rfl⟩

theorem Converts.bind (h : Converts m p q) (h' : Converts m' q r) : Converts (do m; m') p r := by
  obtain ⟨is, hemits, hflow, hdepth⟩ := h
  obtain ⟨js, hemits', hflow', hdepth'⟩ := h'
  refine ⟨is ++ js, hemits.bind hemits', fun i hi => ?_, ?_⟩
  · exact (List.mem_append.1 hi).elim (hflow i) (hflow' i)
  · rw [Instr.depthAfter_append, hdepth]
    exact hdepth'

theorem converts_emit (hm : ∀ b, m b = .ok ((), { b with code := b.code.emit i }))
    (htarget : i.target? = none) (hterm : i.op.isTerminal = false) (hpop : i.pop = (p : Nat))
    (hpush : i.push = (q : Nat)) : Converts m p q := by
  refine ⟨[i], hm, fun j hj => ?_, ?_⟩
  · cases List.mem_singleton.1 hj
    exact ⟨htarget, hterm⟩
  · rw [Instr.depthAfter, hpop, hpush, if_pos (Int.le_refl _), Int.sub_self, Int.zero_add]
    rfl

theorem converts_op {op : Opcode} (hop : op.Moves .plain p q) : Converts (Gen.op op) p q := by
  refine converts_emit (i := ⟨op, .plain⟩) (fun b => ?_) rfl hop.2.1 ?_ ?_
  · rw [← b.code.op_eq hop.2.2]
    rfl
  · exact congrArg (fun e => (e.1 : Int)) hop.1
  · exact congrArg (fun e => (e.2 : Int)) hop.1

theorem converts_convertPrim {p q : Prim} (hp : p ≠ .void) (hq : q ≠ .void) :
    Converts (convertPrim p q false) p.size q.size := by
  unfold convertPrim
  split
  · next hpq =>
    subst hpq
    exact converts_pure _
  · rw [← Prim.slots_numberKind hp, ← Prim.slots_numberKind hq]
    dsimp only [Bool.false_and]
    split
    · next op hop => exact (converts_op (NumberKind.moves_conversion hop)).bind (converts_pure _)
    · next hnone =>
      rw [NumberKind.eq_of_conversion (Option.eq_none_iff_forall_ne_some.2 hnone)]
      exact converts_pure _

/-- The instruction that puts a primitive into an object of its class. -/
def boxing (p : Prim) : Instr :=
  let s : Signature := ⟨[.prim p], some (.cls p.wrapper)⟩
  ⟨.invokestatic, .member { cls := p.wrapper, name := "valueOf", desc := s.descriptor } s.argSize
    s.result.size⟩

theorem emits_box {p : Prim} (hp : p ≠ .void) : Emits (box p) [boxing p] := by
  intro b
  let s : Signature := ⟨[.prim p], some (.cls p.wrapper)⟩
  have hdesc : ("(" ++ p.descriptor ++ ")" ++ (Ty.cls p.wrapper).descriptor : Text) = s.descriptor := by
    simp [s, Signature.descriptor, Ty.descriptor, Ty.descriptors, Ty.resultDescriptor]
  have hparse : Signature.ofDescriptor s.descriptor = .ok s := by
    rw [Signature.ofDescriptor_descriptor]
    · rfl
    · cases p <;> first | decide | exact absurd rfl hp
  unfold box invoke access Code.invoke
  rw [hdesc]
  dsimp only
  rw [hparse]
  rfl

theorem converts_box {p : Prim} (hp : p ≠ .void) : Converts (box p) p.size 1 :=
  converts_emit (emits_box hp) rfl rfl rfl rfl

end

/-! ### Conversions -/

section
variable {source : Ty}

theorem ne_union_of_isOptional (h : source.isOptional = true) (ss : List Ty) : source ≠ .union ss := by
  rintro rfl
  cases h

theorem isReference_of_isOptional (h : source.isOptional = true) : source.isReference = true := by
  cases source with
  | null | nullable => rfl
  | _ => cases h

/-- A member that takes a value without boxing it is a reference. -/
theorem isReference_of_assignable {m : Ty} (hm : m.isFormed = true) (h : m.assignable source = true)
    (hsource : source.isReference = true) : m.isReference = true := by
  cases m with
  | prim p =>
    obtain ⟨q, rfl⟩ := Ty.exists_prim_of_assignable h
    cases hsource
  | method => cases hm
  | _ => rfl

theorem stored_of_isReference (h : m.isReference = true) : stored m = pure () := by
  cases m with
  | prim => cases h
  | _ => rfl

/-- What may be null stays as it is, unless it is stranded. -/
theorem convert_of_isOptional (hsource : source.isOptional = true)
    (hformed : target.isFormed = true) (href : target.isReference = true)
    (hselect : ∀ ts, target = .union ts → (Ty.select? ts source).isSome = true)
    (h : ¬ Ty.Stranded source target) : convert source target = pure () := by
  match target with
  | .prim p => cases href
  | .method .. => cases hformed
  | .cls name => exact convert_cls (isReference_of_isOptional hsource) name
  | .null =>
    unfold convert
    rw [conv.eq_def]
    split <;> rfl
  | .nullable t =>
    obtain ⟨htref, htformed⟩ := Ty.isFormed_nullable.1 hformed
    cases hsame : source.same (.nullable t) with
    | true => exact convert_of_same hsame
    | false =>
      rw [convert_nullable hsame]
      refine convert_of_isOptional hsource htformed htref ?_ fun hst => h (.nullable hsame hst)
      rintro ts rfl
      cases hnone : Ty.select? ts source with
      | none => exact absurd (.union hsource hsame hnone) h
      | some => rfl
  | .union ts =>
    obtain ⟨⟨m, c⟩, hm⟩ := Option.isSome_iff_exists.1 (hselect ts rfl)
    have hmem := Ty.mem_of_select? hm
    have hmformed := Ty.isFormed_union.1 hformed m hmem
    have hassign := Ty.assignable_of_select? hm
    have hmref := isReference_of_assignable hmformed hassign (isReference_of_isOptional hsource)
    rw [convert_union (ne_union_of_isOptional hsource) hm, stored_of_isReference hmref]
    rw [convert_of_isOptional hsource hmformed hmref _ fun hst => h (.member hm hst)]
    · rfl
    · rintro us rfl
      exact Ty.isSome_select?_of_assignable hassign (ne_union_of_isOptional hsource)
  termination_by sizeOf target

/-- What is stranded cannot be converted. -/
theorem convert_of_stranded (h : Ty.Stranded source target) (b : Body) :
    ∃ e, convert source target b = .error e := by
  induction h with
  | union hopt hsame hnone =>
    rw [convert_nullable hsame, convert_union_none (ne_union_of_isOptional hopt) hnone]
    exact ⟨_, rfl⟩
  | nullable hsame _ ih =>
    rw [convert_nullable hsame]
    exact ih
  | @member ts m c hm hst ih =>
    obtain ⟨e, he⟩ := ih
    rw [convert_union (ne_union_of_isOptional hst.isOptional) hm]
    refine ⟨e, ?_⟩
    change (convert source m b >>= fun r => stored m r.2) = _
    rw [he]
    rfl

theorem converts_stored (h : m.isVoid = false) : Converts (stored m) m.size 1 := by
  cases m with
  | prim p => exact converts_box (isVoid_prim h)
  | _ => exact converts_pure 1

/-- What cannot be null by its type is converted wherever it is assignable. -/
theorem converts_of_assignable (hsource : source.isOptional = false)
    (hformed : target.isFormed = true) (h : target.assignable source = true) :
    Converts (convert source target) source.size target.size := by
  obtain ⟨htvoid, hsvoid⟩ := Ty.isVoid_of_assignable h
  match target with
  | .prim p =>
    obtain ⟨q, rfl⟩ := Ty.exists_prim_of_assignable h
    rw [convert_prim q p (isVoid_prim htvoid)]
    exact converts_convertPrim (isVoid_prim hsvoid) (isVoid_prim htvoid)
  | .cls name =>
    cases source with
    | prim q =>
      rw [convert_prim_cls]
      cases hp : Ty.unboxed? name with
      | none => exact converts_box (isVoid_prim hsvoid)
      | some p =>
        have hpvoid := ne_void_of_unboxed? hp
        exact (converts_convertPrim (isVoid_prim hsvoid) hpvoid).bind (converts_box hpvoid)
    | method => simp [Ty.assignable, Ty.assignCost?, Ty.same] at h
    | _ =>
      rw [convert_cls rfl]
      exact converts_pure 1
  | .null =>
    rw [Ty.eq_null_of_assignable h] at hsource
    cases hsource
  | .nullable t =>
    obtain ⟨htref, htformed⟩ := Ty.isFormed_nullable.1 hformed
    have hsame : source.same (.nullable t) = false := by
      cases source with
      | nullable => cases hsource
      | _ => simp [Ty.same]
    rcases Ty.isOptional_or_assignable h with hopt | hassign
    · cases hsource.symm.trans hopt
    · rw [convert_nullable hsame, show (Ty.nullable t).size = t.size from (Ty.size_of_isReference htref).symm]
      exact converts_of_assignable hsource htformed hassign
  | .union ts =>
    by_cases hunion : ∃ ss, source = .union ss
    · obtain ⟨ss, rfl⟩ := hunion
      rw [convert_unions]
      exact converts_pure 1
    · have hne (ss : List Ty) : source ≠ .union ss := fun he => hunion ⟨ss, he⟩
      obtain ⟨⟨m, c⟩, hm⟩ := Option.isSome_iff_exists.1 (Ty.isSome_select?_of_assignable h hne)
      have hmem := Ty.mem_of_select? hm
      have hassign := Ty.assignable_of_select? hm
      rw [convert_union hne hm]
      exact (converts_of_assignable hsource (Ty.isFormed_union.1 hformed m hmem) hassign).bind
        (converts_stored (Ty.isVoid_of_assignable hassign).1)
  | .method .. => cases hformed
  termination_by sizeOf target

/-- A union that is taken for a reference stays as it is. -/
theorem convert_from_union (hformed : target.isFormed = true)
    (h : target.assignable (.union ss) = true) : convert (.union ss) target = pure () := by
  match target with
  | .prim p =>
    obtain ⟨q, hq⟩ := Ty.exists_prim_of_assignable h
    cases hq
  | .cls name => exact convert_cls rfl name
  | .null => cases Ty.eq_null_of_assignable h
  | .nullable t =>
    obtain ⟨-, htformed⟩ := Ty.isFormed_nullable.1 hformed
    rcases Ty.isOptional_or_assignable h with hopt | hassign
    · cases hopt
    · rw [convert_nullable (by simp [Ty.same])]
      exact convert_from_union htformed hassign
  | .union ts => exact convert_unions ss ts
  | .method .. => cases hformed

/-- What is assignable is converted by instructions that take its slots and leave those of the type that
it is converted to, unless it is stranded. A union stores it as the member that is the cheapest. -/
theorem converts_iff_of_assignable {target : Ty} (hformed : target.isFormed = true)
    (h : target.assignable source = true) :
    (Converts (convert source target) source.size target.size ↔ ¬ Ty.Stranded source target) ∧
      ∀ ts, target = .union ts →
        ((∃ ss, source = .union ss) ∨ (Ty.select? ts source).isSome = true) ∧
        ∀ m c, Ty.select? ts source = some (m, c) →
          convert source target = convert source m >>= fun _ => stored m := by
  refine ⟨⟨?_, fun hst => ?_⟩, ?_⟩
  · rintro ⟨is, hemits, -⟩ hst
    obtain ⟨e, he⟩ := convert_of_stranded hst {}
    cases (hemits {}).symm.trans he
  · cases hopt : source.isOptional with
    | false => exact converts_of_assignable hopt hformed h
    | true =>
      have hsref := isReference_of_isOptional hopt
      have href := isReference_of_assignable hformed h hsref
      rw [convert_of_isOptional hopt hformed href _ hst, Ty.size_of_isReference hsref,
        Ty.size_of_isReference href]
      · exact converts_pure 1
      · rintro ts rfl
        exact Ty.isSome_select?_of_assignable h (ne_union_of_isOptional hopt)
  · rintro ts rfl
    by_cases hunion : ∃ ss, source = .union ss
    · obtain ⟨ss, rfl⟩ := hunion
      refine ⟨.inl ⟨ss, rfl⟩, fun m c hm => ?_⟩
      have hmformed := Ty.isFormed_union.1 hformed m (Ty.mem_of_select? hm)
      have hassign := Ty.assignable_of_select? hm
      rw [convert_unions, convert_from_union hmformed hassign,
        stored_of_isReference (isReference_of_assignable hmformed hassign rfl)]
      rfl
    · have hne (ss : List Ty) : source ≠ .union ss := fun he => hunion ⟨ss, he⟩
      exact ⟨.inr (Ty.isSome_select?_of_assignable h hne), fun m c => convert_union hne⟩

end

/-- A number is stored in a nullable union that is itself a member of a union. -/
theorem converts_iff_of_assignable_sampleNested :
    let target : Ty := .union [.string, .nullable (.union [.bool, .long])]
    target.isFormed = true ∧ target.assignable .int = true ∧
      Converts (convert .int target) Ty.int.size target.size := by
  have hassign : (Ty.union [.string, .nullable (.union [.bool, .long])]).assignable .int = true := by
    decide +kernel
  refine ⟨rfl, hassign, ((converts_iff_of_assignable rfl hassign).1).2 fun h => ?_⟩
  cases h.isOptional

/-- Null is assignable to a nullable union of a number and a text, but cannot be converted to it. -/
theorem not_converts_of_assignable : ¬ ∀ source target : Ty, target.isFormed = true →
    target.assignable source = true → Converts (convert source target) source.size target.size := by
  intro h
  have hassign : (Ty.nullable (.union [.int, .string])).assignable .null = true := by decide +kernel
  have hnone : Ty.select? [.int, .string] .null = none := by
    have : (Ty.select? [.int, .string] .null).isNone = true := by decide +kernel
    exact Option.isNone_iff_eq_none.1 this
  obtain ⟨is, hemits, -⟩ := h .null (.nullable (.union [.int, .string])) rfl hassign
  obtain ⟨e, he⟩ := convert_of_stranded (.union rfl (by simp [Ty.same]) hnone) {}
  cases (hemits {}).symm.trans he

end Gen

end Classwright
