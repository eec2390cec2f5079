import Classwright.Proofs.Ty.Slots
import Mathlib.Data.List.TakeWhile

/-!
What a descriptor keeps of a type. Nullables and unions are erased, and reading the descriptor of a
type gives what is left of it (`Ty.ofDescriptor_descriptor`), as long as the names of classes can be
told from what follows them. Erased types have the descriptors of the types they come from, and nothing
but the descriptor of a signature is read as that signature (`Signature.descriptor_exact`).
-/

namespace Classwright

namespace Ty

/-- The type without what descriptors leave out. -/
def erase : Ty → Ty
  | prim p => prim p
  | cls name => cls name
  | null | union _ => object
  | nullable t => t.erase
  | method ins out => method ins out

/-- Types that are no functions, with a name for each class that ends where a semicolon follows. -/
def isSpelled : Ty → Bool
  | prim _ | null | union _ => true
  | cls name => !name.isEmpty && !name.contains (ascii ';')
  | nullable t => t.isSpelled
  | method _ _ => false

@[simp] theorem descriptor_erase (t : Ty) : t.erase.descriptor = t.descriptor := by
  have hobject : object.descriptor = "Ljava/lang/Object;" := by
    rw [object, descriptor]
    rfl
  fun_induction erase t with
  | case1 | case2 | case6 => rfl
  | case3 => rw [hobject, descriptor]
  | case4 => rw [hobject, descriptor]
  | case5 t ih => rw [ih, descriptor]

@[simp] theorem descriptors_map_erase (ts : List Ty) :
    descriptors (ts.map erase) = descriptors ts := by
  induction ts with
  | nil => rfl
  | cons t ts ih => rw [List.map_cons, descriptors, descriptors, descriptor_erase, ih]

end Ty

namespace Descriptor

/-- Reading a type leaves what follows its descriptor. -/
theorem first_erase {t : Ty} (h : t.isSpelled = true) (i : Nat) (rest : Text) :
    first i (t.descriptor ++ rest) = .ok (t.erase, rest) := by
  have hobject : first i ("Ljava/lang/Object;" ++ rest) = .ok (Ty.object, rest) :=
    @first_cls "java/lang/Object" rest (by decide) i
  fun_induction Ty.erase t with
  | case1 p =>
    obtain ⟨c, hc, hp, -⟩ := prim?_descriptor p
    rw [Ty.descriptor, hc, List.singleton_append, first, hp]
  | case2 name =>
    simp only [Ty.isSpelled, Bool.and_eq_true, Bool.not_eq_true'] at h
    rw [Ty.descriptor, first_cls (by simpa using h.2), if_neg (by simp [h.1])]
  | case3 | case4 =>
    rw [Ty.descriptor]
    exact hobject
  | case5 t ih =>
    rw [Ty.descriptor]
    exact ih h
  | case6 => cases h

/-- The type of a function cannot be read, and a class without a name cannot either. -/
theorem isSpelled_of_first {t : Ty} (hplain : t.isPlain = true)
    (h : first i (t.descriptor ++ rest) = .ok r) : t.isSpelled = true := by
  fun_induction Ty.isSpelled t with
  | case1 | case2 | case3 => rfl
  | case4 name =>
    rw [Ty.descriptor, first_cls (Ty.isPlain_cls.1 hplain)] at h
    split at h
    · cases h
    · next hname => exact Bool.and_eq_true_iff.2 ⟨by simpa using hname, hplain⟩
  | case5 t ih =>
    rw [Ty.descriptor] at h
    exact ih hplain h
  | case6 =>
    have hprim : prim? (ascii '(') = none := by decide
    rw [Ty.descriptor, List.append_assoc, List.append_assoc] at h
    change first i (ascii '(' :: _) = _ at h
    rw [first, hprim] at h
    cases h

/-- A type that is read has the descriptor that it was read from. -/
theorem first_eq_ok (h : first i t = .ok (u, rest)) :
    u.isProper = true ∧ t = u.descriptor ++ rest := by
  unfold first at h
  split at h
  · cases h
  · next c tail =>
    split at h
    · next p hp =>
      cases h
      have hc : p.descriptor = [c] := beq_iff_eq.1 (List.find?_some hp :)
      rw [Ty.descriptor, hc]
      exact ⟨rfl, rfl⟩
    · split at h
      · next hc =>
        dsimp only at h
        have hsplit := List.takeWhile_append_dropWhile (p := (· != ascii ';')) (l := tail)
        have hdrop : tail.drop (tail.takeWhile (· != ascii ';')).length =
            tail.dropWhile (· != ascii ';') := by
          nth_rewrite 2 [← hsplit]
          exact List.drop_left
        rw [hdrop] at h
        split at h
        · cases h
        · next b rest' hend =>
          split at h
          · cases h
          · cases h
            have hb := List.head?_dropWhile_not (· != ascii ';') tail
            rw [hend] at hb hsplit
            have hb : b = ascii ';' := by simpa using hb
            refine ⟨Ty.isProper_iff.2 ⟨rfl, Ty.isPlain_cls.2 fun hmem => ?_⟩, ?_⟩
            · simpa using List.mem_takeWhile_imp hmem
            · rw [hb] at hsplit
              rw [Ty.descriptor, List.append_assoc, List.append_assoc, hc]
              exact congrArg (ascii 'L' :: ·) hsplit.symm
      · cases h

theorem args_eq_ok {read : List Ty} (h : args n read t = .ok (ts, rest)) :
    ∃ us, ts = read.reverse ++ us ∧ (∀ u ∈ us, u.isProper = true) ∧ t = Ty.descriptors us ++ rest ∧
      (rest = [] ∨ ∃ rest', rest = ascii ')' :: rest') := by
  fun_induction args n read t with
  | case1 read =>
    cases h
    exact ⟨[], (List.append_nil _).symm, List.forall_mem_nil _, rfl, .inl rfl⟩
  | case2 read tail =>
    cases h
    exact ⟨[], (List.append_nil _).symm, List.forall_mem_nil _, rfl, .inr ⟨tail, rfl⟩⟩
  | case3 => cases h
  | case4 read c tail _ u rest' hfirst ih =>
    obtain ⟨us, rfl, hus, hrest, hend⟩ := ih h
    obtain ⟨hu, htext⟩ := first_eq_ok hfirst
    refine ⟨u :: us, ?_, List.forall_mem_cons.2 ⟨hu, hus⟩, ?_, hend⟩
    · rw [List.reverse_cons, List.append_assoc, List.singleton_append]
    · rw [htext, hrest, Ty.descriptors, List.append_assoc]

/-- Reading arguments up to the parenthesis. -/
theorem args_erase (h : ∀ t ∈ ts, t.isSpelled = true) (n : Nat) (read : List Ty)
    (rest : Text) :
    args n read (Ty.descriptors ts ++ ascii ')' :: rest) =
      .ok (read.reverse ++ ts.map Ty.erase, ascii ')' :: rest) := by
  induction ts generalizing read with
  | nil => rw [Ty.descriptors, List.nil_append, args, if_pos rfl, List.map_nil, List.append_nil]
  | cons t ts ih =>
    obtain ⟨c, tail, htail, hne, -⟩ := head_descriptor t
    have hcons : Ty.descriptors (t :: ts) ++ ascii ')' :: rest =
        c :: (tail ++ (Ty.descriptors ts ++ ascii ')' :: rest)) := by
      rw [Ty.descriptors, htail, List.append_assoc, List.cons_append]
    have hfirst := first_erase (h t (.head _))
      (n - (c :: (tail ++ (Ty.descriptors ts ++ ascii ')' :: rest))).length)
      (Ty.descriptors ts ++ ascii ')' :: rest)
    rw [htail, List.cons_append] at hfirst
    rw [hcons, args, if_neg hne]
    split
    · next e he => cases hfirst.symm.trans he
    · next u rest' hu =>
      cases hfirst.symm.trans hu
      rw [ih (fun t ht => h t (.tail _ ht)), List.reverse_cons, List.append_assoc]
      rfl

theorem isSpelled_of_args (h : ∀ t ∈ ts, t.isPlain = true) {read : List Ty}
    (hargs : args n read (Ty.descriptors ts ++ ascii ')' :: rest) = .ok r) :
    ∀ t ∈ ts, t.isSpelled = true := by
  induction ts generalizing read with
  | nil => exact List.forall_mem_nil _
  | cons t ts ih =>
    obtain ⟨ht, hts⟩ := List.forall_mem_cons.1 h
    obtain ⟨c, tail, htail, hne, -⟩ := head_descriptor t
    rw [Ty.descriptors, htail, List.append_assoc, List.cons_append, args, if_neg hne] at hargs
    split at hargs
    · cases hargs
    · next hfirst =>
      rw [← List.cons_append, ← htail] at hfirst
      have hspelled := isSpelled_of_first ht hfirst
      cases (first_erase hspelled _ _).symm.trans hfirst
      exact List.forall_mem_cons.2 ⟨hspelled, ih hts hargs⟩

end Descriptor

/-- The type that the descriptor of a type is read as. -/
theorem Ty.ofDescriptor_descriptor {t : Ty} (h : t.isSpelled = true) :
    Ty.ofDescriptor t.descriptor = .ok t.erase := by
  have hfirst := Descriptor.first_erase h 0 []
  rw [List.append_nil] at hfirst
  rw [ofDescriptor, hfirst]
  rfl

namespace Signature

/-- The types of a signature. -/
def types (s : Signature) : List Ty := s.ins ++ s.out.toList

/-- The signature without what descriptors leave out. A result that is void is none. -/
def erase (s : Signature) : Signature :=
  ⟨s.ins.map Ty.erase, (s.out.map Ty.erase).filter fun t => !t.isVoid⟩

theorem descriptor_eq (s : Signature) :
    s.descriptor = 0x28 :: (Ty.descriptors s.ins ++ ascii ')' :: s.result.descriptor) := by
  rw [descriptor, Ty.descriptor, result]
  cases s.out with
  | none => simp [Ty.resultDescriptor, Ty.void, Ty.descriptor]; rfl
  | some t => simp [Ty.resultDescriptor]; rfl

theorem result_erase (s : Signature) : s.erase.result = s.result.erase := by
  unfold erase result
  cases s.out with
  | none => rfl
  | some t =>
    rw [Option.map_some, Option.filter_some, Option.getD_some]
    cases hv : t.erase.isVoid with
    | true => rw [Ty.isVoid_iff.1 hv]; rfl
    | false => rfl

@[simp] theorem descriptor_erase (s : Signature) : s.erase.descriptor = s.descriptor := by
  rw [descriptor_eq, descriptor_eq, result_erase, Ty.descriptor_erase]
  exact congrArg (fun d => 0x28 :: (d ++ ascii ')' :: s.result.descriptor))
    (Ty.descriptors_map_erase s.ins)

/-- The signature that the descriptor of a signature is read as. -/
theorem ofDescriptor_descriptor {s : Signature} (h : ∀ t ∈ s.types, t.isSpelled = true) :
    Signature.ofDescriptor s.descriptor = .ok s.erase := by
  have hins : ∀ t ∈ s.ins, t.isSpelled = true := fun t ht => h t (List.mem_append_left _ ht)
  have hout : s.result.isSpelled = true := by
    unfold result
    cases hs : s.out with
    | none => rfl
    | some t => exact h t (by rw [types, hs]; simp)
  have hargs := Descriptor.args_erase hins s.descriptor.length [] s.result.descriptor
  have hfirst := Descriptor.first_erase hout (s.descriptor.length - s.result.descriptor.length) []
  rw [List.append_nil] at hfirst
  have hread : (if s.result.erase.isVoid then none else some s.result.erase) = s.erase.out := by
    unfold result erase
    cases s.out with
    | none => rfl
    | some t =>
      rw [Option.map_some, Option.filter_some, Option.getD_some]
      cases t.erase.isVoid <;> rfl
  rw [descriptor_eq] at hargs hfirst ⊢
  unfold ofDescriptor
  split
  · next rest hrest =>
    cases hrest
    rw [hargs]
    dsimp only [bind, Except.bind]
    rw [hfirst]
    exact congrArg (fun out => Except.ok (Signature.mk _ out)) hread
  · next hno => exact absurd rfl (hno _)

/-- A method descriptor is read as its arguments and its result. -/
theorem ofDescriptor_cases (h : ofDescriptor t = .ok s) :
    ∃ rest c tail out, t = 0x28 :: rest ∧
      Descriptor.args t.length [] rest = .ok (s.ins, c :: tail) ∧
      Descriptor.first (t.length - tail.length) tail = .ok (out, []) ∧ s.result = out := by
  unfold ofDescriptor at h
  split at h
  · obtain ⟨⟨ins, rest'⟩, hargs, h⟩ := bind_eq_ok h
    split at h
    · cases h
    · next heq =>
      cases heq
      split at h
      · cases h
      · next out hout =>
        cases h
        refine ⟨_, _, _, out, rfl, hargs, hout, ?_⟩
        unfold result
        cases hv : out.isVoid with
        | true => exact (Ty.isVoid_iff.1 hv).symm
        | false => rfl
      · cases h
  · cases h

/-- A signature that is read has the descriptor that it was read from. -/
theorem ofDescriptor_eq_ok (h : ofDescriptor t = .ok s) :
    s.isProper = true ∧ s.descriptor = t := by
  obtain ⟨rest, c, tail, out, rfl, hargs, hout, rfl⟩ := ofDescriptor_cases h
  obtain ⟨us, hus, hins, rfl, hend⟩ := Descriptor.args_eq_ok hargs
  obtain ⟨hproper, rfl⟩ := Descriptor.first_eq_ok hout
  obtain ⟨_, hparen⟩ := hend.resolve_left (List.cons_ne_nil _ _)
  rw [List.reverse_nil, List.nil_append] at hus
  rw [isProper_iff, descriptor_eq, List.append_nil, hus, (List.cons.inj hparen).1]
  exact ⟨⟨hins, hproper⟩, rfl⟩

end Signature

/-! ### Slots -/

theorem Ty.size_erase_of_isTight {t : Ty} (h : t.isTight = true) : t.erase.size = t.size := by
  fun_induction erase t with
  | case5 t ih =>
    obtain ⟨hsize, htight⟩ := isTight_nullable.1 h
    exact (ih htight).trans hsize
  | _ => rfl

/-- Whether a nullable is a primitive below its marks. -/
def Ty.wrapsPrim : Ty → Bool
  | nullable (prim _) => true
  | nullable t => t.wrapsPrim
  | _ => false

theorem Ty.size_erase {t : Ty} (hspelled : t.isSpelled = true) (h : t.wrapsPrim = false) :
    t.erase.size = t.size := by
  fun_induction erase t with
  | case1 | case2 | case3 | case4 => rfl
  | case5 t ih =>
    cases t with
    | prim p => cases h
    | _ => exact ih hspelled h
  | case6 => cases hspelled

namespace Signature

theorem slots_erase {s : Signature} (h : ∀ t ∈ s.types, t.erase.size = t.size) :
    s.erase.argSize = s.argSize ∧ s.erase.result.size = s.result.size := by
  constructor
  · have hins : ∀ ts : List Ty, (∀ t ∈ ts, t.erase.size = t.size) →
        Descriptor.slots (ts.map Ty.erase) = Descriptor.slots ts := by
      intro ts hts
      induction ts with
      | nil => rfl
      | cons t ts ih =>
        obtain ⟨ht, hts⟩ := List.forall_mem_cons.1 hts
        rw [List.map_cons, Descriptor.slots_cons, Descriptor.slots_cons, ht, ih hts]
    exact hins s.ins fun t ht => h t (List.mem_append_left _ ht)
  · rw [result_erase, result]
    cases hout : s.out with
    | none => rfl
    | some t => exact h t (by rw [types, hout]; simp)

/-- The signature that the descriptor of a signature is read as takes and leaves the same slots. -/
theorem slots_of_ofDescriptor {s : Signature} (h : s.isProper = true)
    (hr : ofDescriptor s.descriptor = .ok r) :
    r.argSize = s.argSize ∧ r.result.size = s.result.size := by
  obtain ⟨hins, hout⟩ := isProper_iff.1 h
  obtain ⟨rest, c, tail, out, htext, hargs, hfirst, -⟩ := ofDescriptor_cases hr
  rw [descriptor_eq] at htext
  cases htext
  have hspelled := Descriptor.isSpelled_of_args (fun t ht => (Ty.isProper_iff.1 (hins t ht)).2) hargs
  have hread := Except.ok.inj ((Descriptor.args_erase hspelled _ _ _).symm.trans hargs)
  cases (Prod.mk.inj hread).2
  rw [← List.append_nil s.result.descriptor] at hfirst
  have hresult := Descriptor.isSpelled_of_first (Ty.isProper_iff.1 hout).2 hfirst
  have hall : ∀ t ∈ s.types, t.isSpelled = true ∧ t.erase.size = t.size := by
    refine List.forall_mem_append.2 ⟨fun t ht => ⟨hspelled t ht, ?_⟩, fun t ht => ?_⟩
    · exact Ty.size_erase_of_isTight (Ty.isProper_iff.1 (hins t ht)).1
    · rw [result, Option.mem_toList.1 ht] at hresult hout
      exact ⟨hresult, Ty.size_erase_of_isTight (Ty.isProper_iff.1 hout).1⟩
  cases (ofDescriptor_descriptor fun t ht => (hall t ht).1).symm.trans hr
  exact slots_erase fun t ht => (hall t ht).2

/-- Only its own descriptor is read as a signature, and the descriptor of any signature whose classes have
names is read as what is left of it. Values take the same slots then, if no primitive is nullable. -/
theorem descriptor_exact : (∀ t s, ofDescriptor t = .ok s → s.descriptor = t) ∧
    ∀ s : Signature, (∀ t ∈ s.types, t.isSpelled = true) → ofDescriptor s.descriptor = .ok s.erase ∧
      ((∀ t ∈ s.types, t.wrapsPrim = false) →
        s.erase.argSize = s.argSize ∧ s.erase.result.size = s.result.size) := by
  refine ⟨fun t s h => (ofDescriptor_eq_ok h).2, fun s hs => ⟨ofDescriptor_descriptor hs, fun h => ?_⟩⟩
  exact slots_erase fun t ht => Ty.size_erase (hs t ht) (h t ht)

theorem descriptor_exact_sampleMixed :
    ofDescriptor "(Ljava/lang/String;Ljava/lang/Object;J)V" =
        .ok ⟨[.string, .object, .long], none⟩ ∧
      argSize ⟨[.nullable .string, .union [.int, .null], .long], some .void⟩ = 4 := by
  obtain ⟨hread, hsize⟩ := descriptor_exact.2
    ⟨[.nullable .string, .union [.int, .null], .long], some .void⟩ (by decide)
  exact ⟨hread, (hsize (by decide)).1.symm⟩

end Signature

end Classwright
