import Classwright.ClassFile.Listing
import Classwright.Proofs.Bytes
import Classwright.Proofs.Pool

/-!
What a listing takes from the pool: the descriptions of the entries that the code names
(`Listing.references`), and nothing else (`Listing.lines_congr`). Since entries refer to earlier ones
only, the description of an entry does not change when the pool grows (`Pool.Inv.describe_eq`).
-/

namespace Classwright

/-- A constant in words. -/
def Literal.words : Literal → Text
  | .int v => Text.ofInt v.toInt
  | .float v => v.text ++ "f"
  | .long v => Text.ofInt v.toInt ++ "L"
  | .double v => v.text
  | .string s => Text.quoted s

namespace Pool

variable {p q : Pool}

theorem Grows.get?_eq (h : Grows p q) (hi : i < p.size) : q.get? i = p.get? i := by
  rcases Nat.eq_zero_or_pos i with rfl | hpos
  · rfl
  · have hget : p.get? i = some p.entries[i] := by
      rw [Pool.get?, if_neg (Nat.ne_of_gt hpos)]
      exact Array.getElem?_eq_getElem hi
    rw [hget, h.get? hget]

/-- References go down, so fuel beyond the index does not matter, nor what was added later. -/
theorem Inv.describeEntry_eq (h : p.Inv) (hg : Grows p q) (hi : i < p.size)
    (hm : i < m) (hn : i < n) : p.describeEntry m i = q.describeEntry n i := by
  induction i using Nat.strongRecOn generalizing m n with
  | ind i ih =>
  obtain ⟨m, rfl⟩ : ∃ k, m = k + 1 := ⟨m - 1, by omega⟩
  obtain ⟨n, rfl⟩ : ∃ k, n = k + 1 := ⟨n - 1, by omega⟩
  rw [describeEntry, describeEntry, hg.get?_eq hi]
  cases he : p.get? i with
  | none => rfl
  | some e =>
    have href {r : Nat} (hr : r ∈ e.refs) : r < p.size ∧ p.describeEntry m r = q.describeEntry n r := by
      have hlt := h.refs_lt he hr
      exact ⟨by omega, ih r hlt (by omega) (by omega) (by omega)⟩
    cases e with
    | string a =>
      dsimp only
      rw [hg.get?_eq (href (.head _)).1]
    | cls a => exact (href (.head _)).2
    | nameAndType a b | field a b | method a b | interfaceMethod a b =>
      dsimp only
      rw [(href (.head _)).2, (href (.tail _ (.head _))).2]
    | _ => rfl

theorem Inv.describe_eq (h : p.Inv) (hg : Grows p q) (hi : i < p.size) :
    p.describe i = q.describe i :=
  h.describeEntry_eq hg hi (Nat.lt_succ_of_lt hi)
    (Nat.lt_succ_of_lt (Nat.lt_of_lt_of_le hi hg.size_le))

theorem describeEntry_utf8 (h : IsUtf8 s p i) (n : Nat) :
    p.describeEntry (n + 1) i = s := by
  rw [describeEntry, h]

theorem describeEntry_cls (h : IsClass name p i) (n : Nat) :
    p.describeEntry (n + 2) i = name := by
  obtain ⟨a, hi, ha⟩ := h
  rw [describeEntry, hi]
  exact describeEntry_utf8 ha n

theorem describeEntry_nameAndType (h : IsNameAndType name desc p i)
    (n : Nat) : p.describeEntry (n + 2) i = name ++ ":" ++ desc := by
  obtain ⟨a, b, hi, ha, hb⟩ := h
  rw [describeEntry, hi]
  dsimp only
  rw [describeEntry_utf8 ha, describeEntry_utf8 hb]

/-- The description of what a member's index leads to. -/
theorem Inv.describe_member (h : p.Inv)
    (he : entry = .field ∨ entry = .method ∨ entry = .interfaceMethod) {cls : Text}
    (hi : IsMember entry cls name desc p i) :
    p.describe i = cls ++ "." ++ (name ++ ":" ++ desc) := by
  obtain ⟨a, b, hi, ha, hb⟩ := hi
  obtain ⟨n, hn⟩ : ∃ n, p.size + 1 = n + 3 := by
    obtain ⟨a', ha', _⟩ := ha
    have hrefs : a < i := by
      rcases he with rfl | rfl | rfl <;> exact h.refs_lt hi (.head _)
    have h1 := (get?_eq_some_iff.1 ha').1
    have h2 := Inv.lt_size hi
    exact ⟨p.size - 2, by omega⟩
  rw [describe, hn, describeEntry, hi]
  rcases he with rfl | rfl | rfl <;> dsimp only <;>
    rw [describeEntry_cls ha, describeEntry_nameAndType hb]

theorem Inv.describe_cls (h : p.Inv) (hi : IsClass name p i) :
    p.describe i = name := by
  obtain ⟨n, hn⟩ : ∃ n, p.size + 1 = n + 2 := ⟨p.size - 1, by have := h.size_pos; omega⟩
  rw [describe, hn, describeEntry_cls hi]

theorem describe_literal (hi : IsLiteral v p i) : p.describe i = v.words := by
  rw [describe, describeEntry]
  cases v with
  | string s =>
    obtain ⟨a, hi, ha⟩ := hi
    rw [hi]
    dsimp only
    rw [ha]
    rfl
  | _ =>
    rw [hi]
    rfl

/-- A description depends on the entries only. -/
theorem describe_congr (h : p.entries = q.entries) (i : Nat) : p.describe i = q.describe i := by
  have hget (j : Nat) : p.get? j = q.get? j := by rw [Pool.get?, Pool.get?, h]
  have hfuel (n j : Nat) : p.describeEntry n j = q.describeEntry n j := by
    induction n generalizing j with
    | zero => rfl
    | succ n ih => simp only [describeEntry, hget, ih]
  rw [Pool.describe, Pool.describe, Pool.size, Pool.size, h]
  exact hfuel _ i

end Pool

namespace Listing

/-- The entry of the pool that an instruction names. -/
def reference? (op : Opcode) (t : Text) : Option Nat :=
  match op.shape with
  | .const => some (Text.ofBigEndian (t.take (if op = .ldc then 1 else 2)))
  | .member | .cls => some (Text.ofBigEndian (t.take 2))
  | _ => none

/-- The entry that the first instruction of a text names, where a prefix may stand before it. -/
def firstReference? (b : UInt8) (rest : Text) : Option Nat :=
  if b = Opcode.wide.code then rest.head?.bind fun b' => reference? ⟨b'⟩ rest.tail
  else reference? ⟨b⟩ rest

/-- The entries that the instructions of code name, as far as it can be listed. -/
def references (p : Pool) (offset : Nat) (t : Text) : List Nat :=
  match t with
  | [] => []
  | b :: rest =>
    (firstReference? b rest).toList ++
      match first p offset b rest with
      | .error _ => []
      | .ok (_, n) => references p (offset + n + 1) (rest.drop n)
  termination_by t.length
  decreasing_by simp only [List.length_drop, List.length_cons]; omega

variable {p q : Pool} {offset : Nat}

theorem operand?_congr
    (h : ∀ i, reference? op t = some i → p.describe i = q.describe i) :
    operand? p offset wide op t = operand? q offset wide op t := by
  unfold operand?
  unfold reference? at h
  cases hshape : op.shape <;> rw [hshape] at h <;> dsimp only at h ⊢
  case const | cls =>
    refine Option.bind_congr fun (b, rest) hb => ?_
    rw [Text.eq_take_of_split? hb]
    simp only [h _ rfl]
  case member =>
    refine Option.bind_congr fun (b, rest) hb => ?_
    have hmin : min 2 (if op = .invokeinterface then 4 else 2) = 2 := by split <;> rfl
    rw [Text.eq_take_of_split? hb]
    simp only [List.take_take, hmin, h _ rfl]

theorem instr_congr
    (h : ∀ i, reference? op t = some i → p.describe i = q.describe i) :
    instr p offset wide op t = instr q offset wide op t := by
  unfold instr
  rw [operand?_congr h]

theorem first_congr
    (h : ∀ i, firstReference? b rest = some i → p.describe i = q.describe i) :
    first p offset b rest = first q offset b rest := by
  unfold first
  unfold firstReference? at h
  split
  · next hb =>
    rw [if_pos hb] at h
    cases rest with
    | nil => rfl
    | cons b' rest =>
      have hinstr : instr p offset true ⟨b'⟩ rest = instr q offset true ⟨b'⟩ rest := instr_congr h
      dsimp only
      rw [hinstr]
  · next hb =>
    rw [if_neg hb] at h
    exact instr_congr h

/-- A listing depends on the pool through the entries that the code names. -/
theorem lines_congr
    (h : ∀ i ∈ references p offset t, p.describe i = q.describe i) :
    lines p done offset t = lines q done offset t := by
  induction hn : t.length using Nat.strongRecOn generalizing offset t done with
  | ind n ih =>
  subst hn
  cases t with
  | nil => rw [lines, lines]
  | cons b rest =>
    rw [references] at h
    have hfirst : first p offset b rest = first q offset b rest := first_congr fun i hi =>
      h i (List.mem_append_left _ (by rw [hi]; exact .head _))
    rw [lines, lines, ← hfirst]
    split
    · rfl
    · next words n hw =>
      refine ih _ ?_ (fun i hi => h i (List.mem_append_right _ ?_)) rfl
      · rw [List.length_drop, List.length_cons]
        omega
      · rw [hw]
        exact hi

end Listing

end Classwright
