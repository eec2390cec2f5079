import Classwright.Proofs.Body.Effects

/-!
Conversions of the value on top of the stack: what they leave takes the slots of the type that it is
converted to.
-/

namespace Classwright

/-- The slots that a number of a kind takes. -/
def NumberKind.slots : NumberKind → Nat
  | int | float => 1
  | long | double => 2

theorem Prim.slots_numberKind {p : Prim} (h : p ≠ .void) : p.numberKind.slots = p.size := by
  cases p <;> first | rfl | exact absurd rfl h

theorem NumberKind.moves_conversion {k : NumberKind} (h : k.conversion? l = some op) :
    op.Moves .plain k.slots l.slots := by
  cases k <;> cases l <;> cases h <;> decide

theorem NumberKind.eq_of_conversion {l : NumberKind} (h : k.conversion? l = none) : k = l := by
  cases k <;> cases l <;> first | rfl | cases h

theorem Prim.moves_narrowing {p : Prim} (h : p.narrowing? q = some op) :
    op.Moves .plain 1 1 ∧ q.size = 1 := by
  cases q with
  | byte | char =>
    cases h
    decide
  | short =>
    rw [narrowing?] at h
    split at h
    · cases h
    · cases h
      decide
  | _ => cases h

namespace Gen

/-! ### Conversions by their targets -/

/-- Puts a value that is stored as a member of a union into an object. -/
def stored (m : Ty) : Gen Unit :=
  match m with
  | .prim p => box p
  | _ => pure ()

section
variable {source target : Ty}

theorem conv_of_not_same (h : source.same target = false) (ht : target.isVoid = false) :
    ¬ (source.same target || target.isVoid) = true := by
  rw [h, ht]
  exact nofun

theorem convert_of_same (h : source.same target = true) : convert source target = pure () := by
  unfold convert conv
  rw [h, Bool.true_or, if_pos rfl]

theorem convert_nullable (h : source.same (.nullable t) = false) :
    convert source (.nullable t) = convert source t := by
  unfold convert
  rw [conv.eq_def, if_neg (conv_of_not_same h rfl)]

theorem conv_prim (p q : Prim) (hq : q ≠ .void) (narrow : Bool) :
    conv (.prim p) (.prim q) narrow = convertPrim p q narrow := by
  have hvoid : (Ty.prim q).isVoid = false := by cases q <;> first | rfl | exact absurd rfl hq
  rw [conv, Ty.same, hvoid, Bool.or_false]
  split
  · next h =>
    obtain rfl : p = q := by simpa using h
    rw [convertPrim, if_pos rfl]
  · rfl

theorem convert_prim (p q : Prim) (hq : q ≠ .void) :
    convert (.prim p) (.prim q) = convertPrim p q false :=
  conv_prim p q hq false

theorem convert_cls (ht : t.isReference = true) (name : Text) :
    convert t (.cls name) = pure () := by
  cases t with
  | prim => cases ht
  | _ =>
    rw [convert, conv]
    · split <;> rfl
    · rintro _ ⟨⟩

theorem convert_unions (ss ts : List Ty) : convert (.union ss) (.union ts) = pure () := by
  unfold convert
  rw [conv.eq_def]
  split <;> rfl

theorem convert_prim_cls (q : Prim) (name : Text) : convert (.prim q) (.cls name) =
    (Ty.unboxed? name).elim (box q) fun p => convertPrim q p false >>= fun _ => box p := by
  unfold convert
  rw [conv.eq_def, if_neg (conv_of_not_same (by simp [Ty.same]) rfl)]
  dsimp only
  cases Ty.unboxed? name <;> rfl

section
variable {ts : List Ty} (hsource : ∀ ss, source ≠ .union ss)
include hsource

theorem same_union_of_ne : source.same (.union ts) = false := by
  cases source with
  | union ss => exact absurd rfl (hsource ss)
  | _ => simp [Ty.same]

theorem convert_union_eq : convert source (.union ts) =
    match Ty.select? ts source with
    | none => throw (.convert source (.union ts))
    | some (m, _) => convert source m >>= fun _ => stored m := by
  unfold convert
  rw [conv.eq_def, if_neg (conv_of_not_same (same_union_of_ne hsource) rfl)]
  cases source with
  | union ss => exact absurd rfl (hsource ss)
  | _ =>
    dsimp only
    rcases Ty.select? ts _ with _ | ⟨m, c⟩ <;> rfl

theorem convert_union (h : Ty.select? ts source = some (m, c)) :
    convert source (.union ts) = convert source m >>= fun _ => stored m := by
  rw [convert_union_eq hsource, h]

theorem convert_union_none (h : Ty.select? ts source = none) :
    convert source (.union ts) = throw (.convert source (.union ts)) := by
  rw [convert_union_eq hsource, h]

end

end

/-! ### Slots -/

variable {o : Origin} {own : List Label} {s : Scopes} {n : Int} {b : Body}

theorem At.convertPrim (h : At o own s n b) {p q : Prim} (hp : p ≠ .void) (hq : q ≠ .void)
    (narrow : Bool) (hn : p.size ≤ n) (hroom : n + 1 ≤ o.room) :
    Ensures (convertPrim p q narrow) b fun _ => At o own s (n - p.size + q.size) := by
  have hpsize := Ty.size_pos (t := .prim p) (by cases p <;> first | rfl | exact absurd rfl hp)
  have hqsize := Ty.size_le_two (.prim q)
  change 0 < p.size at hpsize
  change q.size ≤ 2 at hqsize
  unfold Gen.convertPrim
  split
  · next hpq =>
    subst hpq
    refine .pure ?_
    rwa [Int.sub_add_cancel]
  · have hnarrow {op : Opcode} (hop : p.narrowing? q = some op) {b₁ : Body}
        (h₁ : At o own s (n - p.size + q.size) b₁) :
        Ensures (Gen.op op) b₁ fun _ => At o own s (n - p.size + q.size) := by
      obtain ⟨hmoves, hone⟩ := Prim.moves_narrowing hop
      have := h₁.op hmoves (by omega) (by omega)
      rwa [Int.add_sub_cancel] at this
    dsimp only
    split
    · next op hop =>
      have hmoves := NumberKind.moves_conversion hop
      rw [Prim.slots_numberKind hp, Prim.slots_numberKind hq] at hmoves
      refine (h.op hmoves hn (by omega)).andThen fun _ b₁ h₁ => ?_
      rw [show n + (q.size : Int) - p.size = n - p.size + q.size by omega] at h₁
      split
      · split
        · next hop => exact hnarrow hop h₁
        · exact .pure h₁
      · exact .pure h₁
    · next hnone =>
      -- numbers of one kind take the same slots
      have hsize := congrArg NumberKind.slots (NumberKind.eq_of_conversion
        (Option.eq_none_iff_forall_ne_some.2 hnone))
      rw [Prim.slots_numberKind hp, Prim.slots_numberKind hq] at hsize
      have h₁ : At o own s (n - p.size + q.size) b := by rwa [hsize, Int.sub_add_cancel]
      split
      · split
        · next hop => exact hnarrow hop h₁
        · exact .pure h₁
      · exact .pure h₁

theorem At.box (h : At o own s n b) (hn : p.size ≤ n) (hroom : n + 1 ≤ o.room) :
    Ensures (box p) b fun _ => At o own s (n - p.size + 1) := by
  have hsig : (Signature.mk [.prim p] (some (.cls p.wrapper))).isProper = true := by
    cases p <;> decide
  exact (h.invoke (p := p.size) (q := 1) _ hsig (by simp [Signature.descriptor, Ty.descriptor,
    Ty.descriptors, Ty.resultDescriptor]) (.inl ⟨rfl, rfl⟩) rfl hn (by omega)).mono
    fun _ _ h' => h'.congr (by omega)

theorem At.unbox (h : At o own s n b) (p : Prim) (hn : 1 ≤ n) (hroom : n + 1 ≤ o.room) :
    Ensures (unbox p) b fun _ => At o own s (n - 1 + p.size) := by
  have hsize : p.size ≤ 2 := Ty.size_le_two (.prim p)
  have hdesc : ("()" ++ p.descriptor : Text) = (Signature.mk [] (some (.prim p))).descriptor := by
    cases p <;> decide
  exact (h.invoke (p := 1) (q := p.size) _ rfl hdesc (.inr ⟨.inl rfl, rfl⟩) rfl hn (by omega)).mono
    fun _ _ h' => h'.congr (by omega)

theorem isVoid_prim (h : (Ty.prim p).isVoid = false) : p ≠ .void := by
  rintro rfl
  cases h

theorem ne_void_of_unboxed? (h : Ty.unboxed? name = some p) : p ≠ .void := by
  have := List.find?_some h
  rintro rfl
  cases this

theorem size_of_not_isPrim {t : Ty} (h : t.isPrim = false) : t.size = 1 := by
  cases t with
  | prim p => cases h
  | _ => rfl

/-- Nothing but null is taken for null. -/
theorem not_assignable_null : Ty.assignable .null (.prim p) = false := by
  cases p <;> simp [Ty.assignable, Ty.assignCost?, Ty.isVoid, Ty.same]

/-- A converted value takes the slots of the type that it is converted to. A primitive has to be one
that the type takes, or to be converted to another primitive. -/
theorem At.conv (h : At o own s n b) (hs : source.isVoid = false)
    (ht : target.isVoid = false) (htight : target.isTight = true)
    (hfit : source.isPrim = true → target.isPrim = true ∨ target.assignable source = true)
    (narrow : Bool) (hn : source.size ≤ n) (hroom : n + 2 ≤ o.room) :
    Ensures (conv source target narrow) b fun _ => At o own s (n - source.size + target.size) := by
  have hsize := source.size_le_two
  unfold Gen.conv
  split
  · next hsame =>
    rw [ht, Bool.or_false] at hsame
    refine .pure ?_
    rwa [Ty.size_eq_of_same hsame, Int.sub_add_cancel]
  · -- a reference keeps its slot
    have hkeep : ∀ t : Ty, t.size = 1 → source.isPrim = false →
        At o own s (n - source.size + t.size) b := by
      intro t htsize hprim
      rw [htsize, size_of_not_isPrim hprim, Int.natCast_one, Int.sub_add_cancel]
      exact h
    match target with
    | .prim p =>
      dsimp only
      split
      · next q => exact h.convertPrim (isVoid_prim hs) (isVoid_prim ht) narrow hn (by omega)
      · exact .throw rfl
    | .null =>
      dsimp only
      refine .pure (hkeep .null rfl ?_)
      cases hprim : source.isPrim with
      | false => rfl
      | true =>
        cases source with
        | prim p =>
          rcases hfit rfl with h | h
          · cases h
          · rw [not_assignable_null] at h
            cases h
        | _ => cases hprim
    | .nullable t =>
      dsimp only
      obtain ⟨htsize, httight⟩ := Ty.isTight_nullable.1 htight
      have htvoid : t.isVoid = false := by
        cases hv : t.isVoid with
        | false => rfl
        | true =>
          rw [Ty.isVoid_iff.1 hv] at htsize
          cases htsize
      have := h.conv hs htvoid httight (fun hp => .inr ?_) narrow hn hroom
      · rwa [htsize] at this
      · cases source with
        | prim p =>
          rcases hfit rfl with h | h
          · cases h
          · exact Ty.assignable_of_nullable h
        | _ => cases hp
    | .cls name =>
      dsimp only
      split
      · next q _ =>
        split
        · next p hp =>
          have hpsize : p.size ≤ 2 := Ty.size_le_two (.prim p)
          have hpvoid := ne_void_of_unboxed? hp
          have hqpos : 0 < q.size := Ty.size_pos hs
          change (q.size : Int) ≤ n at hn
          refine (h.convertPrim (isVoid_prim hs) hpvoid narrow hn (by omega)).andThen fun _ b₁ h₁ => ?_
          refine (h₁.box (by omega) (by omega)).mono fun _ b₂ h₂ => ?_
          rwa [Int.add_sub_cancel] at h₂
        · exact h.box hn (by omega)
      · next hprim =>
        refine .pure (hkeep (.cls name) rfl ?_)
        cases source with
        | prim q => exact absurd rfl (hprim q)
        | _ => rfl
    | .union ts =>
      dsimp only
      split
      · exact .pure (hkeep _ rfl rfl)
      · split
        · exact .throw rfl
        · next m c hm =>
          have hmem := Ty.mem_of_select? hm
          obtain ⟨hmtight, hmvoid⟩ := Ty.isTight_union.1 htight m hmem
          refine (h.conv hs hmvoid hmtight (fun _ => .inr (Ty.assignable_of_select? hm))
            narrow hn hroom).andThen fun _ b₁ h₁ => ?_
          split
          · next p =>
            have hpsize : p.size ≤ 2 := Ty.size_le_two (.prim p)
            have hpos := Ty.size_pos hs
            refine (h₁.box (by change (p.size : Int) ≤ n - source.size + p.size; omega)
              (by change n - source.size + (p.size : Int) + 1 ≤ o.room; omega)).mono fun _ b₂ h₂ => ?_
            change At o own s (n - source.size + p.size - p.size + 1) b₂ at h₂
            rwa [Int.add_sub_cancel] at h₂
          · next hprim =>
            have hmprim : m.isPrim = false := by
              cases m with
              | prim p => exact absurd rfl (hprim p)
              | _ => rfl
            refine .pure ?_
            rwa [size_of_not_isPrim hmprim] at h₁
    | .method ins out =>
      dsimp only
      exact .throw rfl
  termination_by sizeOf target

theorem At.convert (h : At o own s n b) (hs : source.isVoid = false)
    (ht : target.isVoid = false) (htight : target.isTight = true)
    (hfit : source.isPrim = true → target.isPrim = true ∨ target.assignable source = true)
    (hn : source.size ≤ n) (hroom : n + 2 ≤ o.room) :
    Ensures (convert source target) b fun _ => At o own s (n - source.size + target.size) :=
  h.conv hs ht htight hfit false hn hroom

end Gen

end Classwright
