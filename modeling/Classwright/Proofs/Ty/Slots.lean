import Classwright.Body.Convert
import Classwright.Proofs.Outcome

/-!
Types and the slots of their values. A value of a tight type (`Ty.isTight`) takes the slots that its
descriptor says wherever it is converted to the type.
-/

namespace Classwright

namespace Ty

mutual

/-- Whether only types of one slot are nullable, and `void` is no member of a union. -/
def isTight : Ty → Bool
  | prim _ | cls _ | null | method _ _ => true
  | nullable t => t.size == 1 && t.isTight
  | union ts => areTight ts

def areTight : List Ty → Bool
  | [] => true
  | t :: ts => t.isTight && !t.isVoid && areTight ts

end

mutual

/-- Whether the names of classes have nothing in them that ends a name in a descriptor. -/
def isPlain : Ty → Bool
  | cls name => !name.contains (ascii ';')
  | nullable t => t.isPlain
  | union ts => arePlain ts
  | prim _ | null | method _ _ => true

def arePlain : List Ty → Bool
  | [] => true
  | t :: ts => t.isPlain && arePlain ts

end

/-- Whether a type takes the slots of its descriptor, also among others. -/
def isProper (t : Ty) : Bool := t.isTight && t.isPlain

theorem isProper_iff {t : Ty} : t.isProper = true ↔ t.isTight = true ∧ t.isPlain = true :=
  Bool.and_eq_true _ _ ▸ Iff.rfl

theorem isTight_nullable : (nullable t).isTight = true ↔ t.size = 1 ∧ t.isTight = true := by
  rw [isTight, Bool.and_eq_true, beq_iff_eq]

theorem isPlain_cls : (cls name).isPlain = true ↔ ascii ';' ∉ name := by
  simp [isPlain]

theorem arePlain_iff : arePlain ts = true ↔ ∀ t ∈ ts, t.isPlain = true := by
  induction ts with
  | nil => simp [arePlain]
  | cons t ts ih => simp [arePlain, ih]

theorem areTight_iff :
    areTight ts = true ↔ ∀ t ∈ ts, t.isTight = true ∧ t.isVoid = false := by
  induction ts with
  | nil => simp [areTight]
  | cons t ts ih => simp [areTight, ih]

theorem isTight_union :
    (union ts).isTight = true ↔ ∀ t ∈ ts, t.isTight = true ∧ t.isVoid = false := by
  rw [isTight, areTight_iff]

/-! ### Slots -/

theorem size_le_two (t : Ty) : t.size ≤ 2 := by
  cases t with
  | prim p => cases p <;> decide
  | _ => exact Nat.le_succ 1

theorem isVoid_iff : t.isVoid = true ↔ t = void := by
  constructor
  · intro h
    cases t with
    | prim p => cases p <;> first | rfl | cases h
    | _ => cases h
  · rintro rfl
    rfl

theorem size_pos {t : Ty} (h : t.isVoid = false) : 0 < t.size := by
  cases t with
  | prim p => cases p <;> first | decide | cases h
  | _ => exact Nat.one_pos

theorem size_of_isReference {t : Ty} (h : t.isReference = true) : t.size = 1 := by
  cases t with
  | prim p => cases h
  | _ => rfl

theorem size_of_isBool {t : Ty} (h : t.isBool = true) : t.size = 1 := by
  cases t with
  | prim p => cases p <;> first | rfl | cases h
  | _ => rfl

/-- Types that are the same take the same slots. -/
theorem size_eq_of_same {s : Ty} (h : s.same t = true) : s.size = t.size := by
  cases s with
  | prim p =>
    cases t with
    | prim q =>
      rw [same, beq_iff_eq] at h
      rw [h]
    | _ => simp [same] at h
  | _ =>
    cases t with
    | prim q => simp [same] at h
    | _ => rfl

/-! ### Assignments -/

theorem isVoid_of_assignable {t : Ty} (h : t.assignable s = true) :
    t.isVoid = false ∧ s.isVoid = false := by
  unfold assignable assignCost? at h
  split at h
  · cases h
  · simp_all

/-- All primitives can be boxed as objects. -/
theorem object_assignable (h : t.isVoid = false) (hp : t.isPrim = true) :
    object.assignable t = true := by
  cases t with
  | prim p =>
    have hvoid : ¬ (object.isVoid || (prim p).isVoid) = true := by rw [h]; exact nofun
    unfold assignable assignCost?
    rw [if_neg hvoid, if_neg (by simp [object, same])]
    simp [object, same]
  | _ => cases hp

/-- A nullable type takes what the type without null takes, apart from null and nullables. -/
theorem assignable_of_nullable (h : (nullable t).assignable (prim p) = true) :
    t.assignable (prim p) = true := by
  unfold assignable at h ⊢
  unfold assignCost? at h
  split at h
  · cases h
  · rw [if_neg (by simp [same])] at h
    simpa using h

theorem assignable_of_selectFrom
    (h : selectFrom best ms source = some (m, c)) :
    m.assignable source = true ∨ ∃ d, best = some (m, d) := by
  induction ms generalizing best with
  | nil =>
    rw [selectFrom] at h
    exact .inr ⟨c, h⟩
  | cons n ns ih =>
    rw [selectFrom] at h
    rcases ih h with h | ⟨d, h⟩
    · exact .inl h
    · have hn {k : Nat} : (n.assignCost? source).map (· + storageCost n) = some k →
          n.assignable source = true := by
        intro hk
        rw [assignable, ← Option.isSome_map, hk]
        rfl
      cases hk : (n.assignCost? source).map (· + storageCost n) with
      | none =>
        rw [hk] at h
        exact .inr ⟨d, by cases best <;> exact h⟩
      | some k =>
        rw [hk] at h
        cases best with
        | none =>
          cases h
          exact .inl (hn hk)
        | some b =>
          rw [cheaper] at h
          split at h
          · cases h
            exact .inl (hn hk)
          · cases h
            exact .inr ⟨_, rfl⟩

/-- A union stores a value as a member that takes it. -/
theorem assignable_of_select?
    (h : select? ms source = some (m, c)) : m.assignable source = true := by
  rcases assignable_of_selectFrom h with h | ⟨d, h⟩
  · exact h
  · cases h

end Ty

/-! ### Descriptors -/

namespace Descriptor

theorem prim?_descriptor (p : Prim) : ∃ c, p.descriptor = [c] ∧ prim? c = some p ∧ c ≠ ascii ')' := by
  cases p <;> exact ⟨_, rfl, by decide, by decide⟩

theorem takeWhile_name (h : ascii ';' ∉ name) (rest : Text) :
    (name ++ ascii ';' :: rest).takeWhile (· != ascii ';') = name := by
  have hne : ∀ b ∈ name, (b != ascii ';') = true := by
    intro b hb
    rw [bne_iff_ne]
    rintro rfl
    exact h hb
  rw [List.takeWhile_append_of_pos hne, List.takeWhile_cons_of_neg (by decide), List.append_nil]

/-- The name of a class ends at the first semicolon. -/
theorem first_cls (h : ascii ';' ∉ name) (i : Nat) :
    first i ("L" ++ name ++ ";" ++ rest) =
      if name.isEmpty then .error (.badClass i) else .ok (.cls name, rest) := by
  have hprim : prim? (ascii 'L') = none := by decide
  have htext : ("L" ++ name ++ ";" ++ rest : Text) = ascii 'L' :: (name ++ ascii ';' :: rest) := by
    rw [List.append_assoc, List.append_assoc]
    rfl
  rw [htext, first, hprim]
  dsimp only
  rw [if_pos rfl, takeWhile_name h, List.drop_left]

/-- What starts like a class is read as one, if at all. -/
theorem size_of_first_cls (h : first i (ascii 'L' :: tail) = .ok (u, rest)) :
    u.size = 1 := by
  have hprim : prim? (ascii 'L') = none := by decide
  rw [first, hprim] at h
  dsimp only at h
  rw [if_pos rfl] at h
  split at h
  · cases h
  · split at h
    · cases h
    · cases h
      rfl

/-- The slots that values of types take together. -/
def slots (ts : List Ty) : Nat := ts.foldr (fun t n => t.size + n) 0

@[simp] theorem slots_cons (t : Ty) (ts : List Ty) : slots (t :: ts) = t.size + slots ts := rfl

/-- No descriptor of a type starts with a closing parenthesis. -/
theorem head_descriptor (t : Ty) :
    ∃ c tail, t.descriptor = c :: tail ∧ c ≠ ascii ')' ∧ c ≠ ascii '[' := by
  match t with
  | .prim p => cases p <;> exact ⟨_, [], rfl, by decide, by decide⟩
  | .cls name =>
    rw [Ty.descriptor, List.append_assoc]
    exact ⟨ascii 'L', _, rfl, by decide, by decide⟩
  | .null | .union ts =>
    rw [Ty.descriptor]
    exact ⟨ascii 'L', _, rfl, by decide, by decide⟩
  | .nullable t =>
    rw [Ty.descriptor]
    exact head_descriptor t
  | .method ins out =>
    rw [Ty.descriptor, List.append_assoc, List.append_assoc]
    exact ⟨ascii '(', _, rfl, by decide, by decide⟩

end Descriptor

theorem Ty.size_of_ofDescriptor_cls
    (hu : Ty.ofDescriptor (ascii 'L' :: tail) = .ok u) : u.size = 1 := by
  unfold ofDescriptor at hu
  obtain ⟨⟨v, rest⟩, hv, hu⟩ := bind_eq_ok hu
  have hsize := Descriptor.size_of_first_cls hv
  cases rest with
  | nil =>
    cases hu
    exact hsize
  | cons _ _ => cases hu

/-- The type that the descriptor of a tight type is read as takes the same slots. A class whose name
is not plain cannot be read. -/
theorem Ty.size_of_ofDescriptor {t : Ty} (h : t.isTight = true)
    (hu : Ty.ofDescriptor t.descriptor = .ok u) : u.size = t.size := by
  match t with
  | .prim p =>
    cases p <;> cases hu <;> rfl
  | .nullable t =>
    obtain ⟨hsize, htight⟩ := Ty.isTight_nullable.1 h
    rw [Ty.descriptor] at hu
    exact (size_of_ofDescriptor htight hu).trans hsize
  | .method ins out =>
    rw [Ty.descriptor, List.append_assoc, List.append_assoc] at hu
    cases hu
  | .cls name =>
    rw [Ty.descriptor, List.append_assoc] at hu
    exact size_of_ofDescriptor_cls hu
  | .null | .union ts =>
    rw [Ty.descriptor] at hu
    exact size_of_ofDescriptor_cls hu

namespace Signature

/-- Whether all types of a signature take the slots of their descriptors. -/
def isProper (s : Signature) : Bool := s.ins.all (·.isProper) && s.out.all (·.isProper)

theorem isProper_iff {s : Signature} :
    s.isProper = true ↔ (∀ t ∈ s.ins, t.isProper = true) ∧ s.result.isProper = true := by
  unfold isProper result
  rw [Bool.and_eq_true, List.all_eq_true]
  cases s.out with
  | none => exact and_congr_right fun _ => ⟨fun _ => rfl, fun _ => rfl⟩
  | some t => rfl

end Signature

end Classwright
