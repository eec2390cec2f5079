import Classwright.Pool
import Mathlib.Data.List.Forall2

/-!
What every constant pool keeps, however it was built (`Pool.Inv`): its entries are laid out one after
the other, the ones of eight bytes over two indices; the table of indices and the list of entries agree;
and an entry refers to earlier ones only. An operation adds at the end and leaves what is there
(`Pool.Grows`); as long as the pool has not run over, the index that it gives leads to what was asked
for (`Pool.Gives`).
-/

namespace Classwright

/-- The indices that an entry refers to. -/
def PoolEntry.refs : PoolEntry → List Nat
  | .cls a | .string a => [a]
  | .field a b | .method a b | .interfaceMethod a b | .nameAndType a b => [a, b]
  | _ => []

/-- The tags of the entries that an entry refers to. -/
def PoolEntry.refTags : PoolEntry → List Nat
  | .cls _ | .string _ => [1]
  | .nameAndType .. => [1, 1]
  | .field .. | .method .. | .interfaceMethod .. => [7, 12]
  | _ => []

namespace Pool

/-- An entry of some kind is at an index. -/
def HasTag (p : Pool) (i tag : Nat) : Prop := ∃ e, p.get? i = some e ∧ e.tag = tag

/-- The indices that an entry takes: one of eight bytes keeps the next one free. -/
def block (e : PoolEntry) : List PoolEntry := e :: List.replicate (e.slots - 1) .filler

theorem slots_cases (e : PoolEntry) : e.slots = 1 ∨ e.slots = 2 := by
  cases e <;> simp [PoolEntry.slots]

theorem length_block (e : PoolEntry) : (block e).length = e.slots := by
  rcases slots_cases e with h | h <;> simp [block, h]

/-- Entries one after the other. -/
inductive Laid : List PoolEntry → Prop
  | nil : Laid []
  | cons : e ≠ .filler → Laid es → Laid (block e ++ es)

theorem Laid.append (hes : Laid es) (hfs : Laid fs) : Laid (es ++ fs) := by
  induction hes with
  | nil => exact hfs
  | cons he _ ih =>
    rw [List.append_assoc]
    exact .cons he ih

theorem Laid.block (h : e ≠ .filler) : Laid (block e) := by
  have := Laid.cons h .nil
  rwa [List.append_nil] at this

/-- The invariant of pools. -/
structure Inv (p : Pool) : Prop where
  laid : ∃ es, p.entries.toList = .filler :: es ∧ Laid es
  size_le : p.size ≤ maxSize
  get_of_index : ∀ {e i}, p.index[e]? = some i → p.get? i = some e
  index_of_get : ∀ {e i}, p.get? i = some e → e ≠ .filler → p.index[e]? = some i
  refs_lt : ∀ {e i r}, p.get? i = some e → r ∈ e.refs → r < i
  refs_tag : p.overflow = false → ∀ {e i}, p.get? i = some e → List.Forall₂ p.HasTag e.refs e.refTags

/-- A pool comes from another one by adding entries. -/
structure Grows (p q : Pool) : Prop where
  isPrefix : p.entries.toList <+: q.entries.toList
  overflow : p.overflow = true → q.overflow = true

namespace Grows

theorem rfl : Grows p p := ⟨List.prefix_rfl, id⟩

theorem trans (h : Grows p q) (h' : Grows q r) : Grows p r :=
  ⟨h.isPrefix.trans h'.isPrefix, h'.overflow ∘ h.overflow⟩

theorem get? (h : Grows p q) (hi : p.get? i = some e) :
    q.get? i = some e := by
  unfold Pool.get? at hi ⊢
  split at hi
  · cases hi
  · rw [if_neg ‹_›, ← Array.getElem?_toList]
    rw [← Array.getElem?_toList] at hi
    obtain ⟨es, hes⟩ := h.isPrefix
    have hlt : i < p.entries.toList.length := (List.getElem?_eq_some_iff.1 hi).1
    rw [← hes, List.getElem?_append_left hlt, hi]

theorem size_le (h : Grows p q) : p.size ≤ q.size := by
  simpa [Pool.size] using h.isPrefix.length_le

theorem not_overflow (h : Grows p q) (hq : q.overflow = false) :
    p.overflow = false := by
  cases hp : p.overflow with
  | false => rfl
  | true => rw [h.overflow hp] at hq; cases hq

end Grows

/-- The outcome of an operation: the pool has grown by entries that hold no text but the given ones,
and the index leads to what was asked for unless the pool has run over. -/
structure Gives (p : Pool) (r : Nat × Pool) (texts : List Text) (asked : Pool → Nat → Prop) :
    Prop where
  inv : r.2.Inv
  grows : Grows p r.2
  lt_size : r.1 < r.2.size
  entry : r.1 = 0 ∧ r.2.overflow = true ∨ ∃ e, r.2.get? r.1 = some e ∧ e ≠ .filler
  text_mem : ∀ {i s}, r.2.get? i = some (.utf8 s) → p.get? i = some (.utf8 s) ∨ s ∈ texts
  found : r.2.overflow = false → asked r.2 r.1

/-! ### One entry -/

theorem get?_eq_some_iff {p : Pool} :
    p.get? i = some e ↔ 0 < i ∧ p.entries.toList[i]? = some e := by
  unfold Pool.get?
  split
  · next h => simp [h]
  · next h => simp [Nat.pos_of_ne_zero h]

theorem Inv.size_pos {p : Pool} (h : p.Inv) : 0 < p.size := by
  obtain ⟨es, hes, _⟩ := h.laid
  have := congrArg List.length hes
  simp only [Array.length_toList, List.length_cons] at this
  rw [Pool.size]
  omega

theorem Inv.lt_size {p : Pool} (h : p.get? i = some e) : i < p.size := by
  have hi := (get?_eq_some_iff.1 h).2
  simpa [Pool.size] using (List.getElem?_eq_some_iff.1 hi).1

theorem get?_empty (i : Nat) : Pool.empty.get? i = none := by
  cases i <;> rfl

theorem Inv.empty : Inv Pool.empty where
  laid := ⟨[], rfl, .nil⟩
  size_le := by decide
  get_of_index h := by simp [Pool.empty] at h
  index_of_get h := by simp [get?_empty] at h
  refs_lt h := by simp [get?_empty] at h
  refs_tag _ _ _ h := by simp [get?_empty] at h

theorem push_block (es : Array PoolEntry) (e : PoolEntry) :
    (if e.slots = 2 then (es.push e).push .filler else es.push e) =
      (es.toList ++ block e).toArray := by
  apply Array.toList_inj.1
  rcases slots_cases e with h | h <;> simp [block, h]

/-- The pool with one more entry that was not there. -/
def pushed (p : Pool) (e : PoolEntry) : Pool :=
  { p with entries := (p.entries.toList ++ block e).toArray, index := p.index.insert e p.size }

/-- What asking for an entry does: it is there, or it does not fit, or it is added. -/
theorem add_cases (p : Pool) (e : PoolEntry) :
    (∃ i, p.index[e]? = some i ∧ p.add e = (i, p)) ∨
    p.add e = (0, { p with overflow := true }) ∨
    (p.index[e]? = none ∧ p.size + e.slots ≤ maxSize ∧ p.add e = (p.size, p.pushed e)) := by
  unfold Pool.add
  cases hindex : p.index[e]? with
  | some i => exact .inl ⟨i, rfl, rfl⟩
  | none =>
    by_cases hfit : maxSize < p.entries.size + e.slots
    · exact .inr (.inl (if_pos hfit))
    · refine .inr (.inr ⟨rfl, Nat.not_lt.1 hfit, ?_⟩)
      simp only [if_neg hfit, push_block]
      rfl

theorem grows_pushed (p : Pool) (e : PoolEntry) : Grows p (p.pushed e) :=
  ⟨⟨block e, by simp [pushed]⟩, id⟩

theorem toList_pushed (p : Pool) (e : PoolEntry) :
    (p.pushed e).entries.toList = p.entries.toList ++ block e := by
  simp [pushed]

theorem size_pushed (p : Pool) (e : PoolEntry) : (p.pushed e).size = p.size + e.slots := by
  have := congrArg List.length (toList_pushed p e)
  simpa [Pool.size, length_block] using this

theorem get?_pushed_self {p : Pool} (h : p.Inv) (e : PoolEntry) :
    (p.pushed e).get? p.size = some e := by
  rw [get?_eq_some_iff, toList_pushed]
  refine ⟨h.size_pos, ?_⟩
  rw [List.getElem?_append_right (by simp [Pool.size])]
  rcases slots_cases e with hs | hs <;> simp [block, hs, Pool.size]

/-- An entry of the pool with one more is an old one, the new one, or the filler after it. -/
theorem get?_pushed {p : Pool} (h : (p.pushed e).get? i = some f) :
    p.get? i = some f ∨ i = p.size ∧ f = e ∨ f = .filler := by
  rw [get?_eq_some_iff, toList_pushed] at h
  obtain ⟨hpos, hi⟩ := h
  rcases Nat.lt_or_ge i p.entries.toList.length with hlt | hge
  · rw [List.getElem?_append_left hlt] at hi
    exact .inl (get?_eq_some_iff.2 ⟨hpos, hi⟩)
  · rw [List.getElem?_append_right hge] at hi
    rcases hk : i - p.entries.toList.length with _ | k
    · rw [hk] at hi
      cases hi
      exact .inr (.inl ⟨Nat.le_antisymm (Nat.sub_eq_zero_iff_le.1 hk) hge, rfl⟩)
    · rw [hk, block, List.getElem?_cons_succ] at hi
      exact .inr (.inr (List.eq_of_mem_replicate (List.mem_of_getElem? hi)))

theorem Inv.pushed {p : Pool} (h : p.Inv) (he : e ≠ .filler)
    (hr : ∀ r ∈ e.refs, r < p.size)
    (ht : p.overflow = false → List.Forall₂ p.HasTag e.refs e.refTags) (hnew : p.index[e]? = none)
    (hfit : p.size + e.slots ≤ maxSize) : (p.pushed e).Inv where
  laid := by
    obtain ⟨es, hes, hlaid⟩ := h.laid
    exact ⟨es ++ block e, by rw [toList_pushed, hes]; rfl, hlaid.append (.block he)⟩
  size_le := by
    rw [size_pushed]
    exact hfit
  get_of_index {f i} hf := by
    simp only [Pool.pushed, Std.HashMap.getElem?_insert] at hf
    split at hf
    · next heq =>
      cases hf
      rw [← eq_of_beq heq]
      exact get?_pushed_self h e
    · exact (grows_pushed p e).get? (h.get_of_index hf)
  index_of_get {f i} hf hne := by
    simp only [Pool.pushed, Std.HashMap.getElem?_insert]
    rcases get?_pushed hf with hold | ⟨rfl, rfl⟩ | rfl
    · have hidx := h.index_of_get hold hne
      split
      · next heq => rw [← eq_of_beq heq, hnew] at hidx; cases hidx
      · exact hidx
    · simp
    · exact absurd rfl hne
  refs_lt {f i r} hf hmem := by
    rcases get?_pushed hf with hold | ⟨rfl, rfl⟩ | rfl
    · exact h.refs_lt hold hmem
    · exact hr r hmem
    · cases hmem
  refs_tag ho f i hf := by
    have hold : List.Forall₂ p.HasTag f.refs f.refTags := by
      rcases get?_pushed hf with hold | ⟨rfl, rfl⟩ | rfl
      · exact h.refs_tag ho hold
      · exact ht ho
      · exact .nil
    exact hold.imp fun _ _ h => h.imp fun _ h => ⟨(grows_pushed p e).get? h.1, h.2⟩

/-- The text that an entry holds. -/
def texts : PoolEntry → List Text
  | .utf8 s => [s]
  | _ => []

/-- Asking for an entry that refers to earlier ones. -/
theorem Inv.add {p : Pool} (h : p.Inv) (he : e ≠ .filler)
    (hr : ∀ r ∈ e.refs, r < p.size)
    (ht : p.overflow = false → List.Forall₂ p.HasTag e.refs e.refTags) :
    Gives p (p.add e) (texts e) fun q i => q.get? i = some e := by
  rcases add_cases p e with ⟨i, hi, hadd⟩ | hadd | ⟨hnew, hfit, hadd⟩
  · rw [hadd]
    have hget := h.get_of_index hi
    exact ⟨h, .rfl, Inv.lt_size hget, .inr ⟨e, hget, he⟩, .inl, fun _ => hget⟩
  · rw [hadd]
    exact ⟨⟨h.laid, h.size_le, h.get_of_index, h.index_of_get, h.refs_lt, nofun⟩,
      ⟨List.prefix_rfl, fun _ => rfl⟩, h.size_pos, .inl ⟨rfl, rfl⟩, .inl, fun ho => by cases ho⟩
  · rw [hadd]
    have hget := get?_pushed_self h e
    refine ⟨h.pushed he hr ht hnew hfit, grows_pushed p e, Inv.lt_size hget, .inr ⟨e, hget, he⟩,
      fun hs => ?_, fun _ => hget⟩
    rcases get?_pushed hs with hold | ⟨_, rfl⟩ | hf
    · exact .inl hold
    · exact .inr (.head _)
    · cases hf

/-! ### What an index leads to -/

def IsUtf8 (s : Text) (p : Pool) (i : Nat) : Prop := p.get? i = some (.utf8 s)

def IsClass (name : Text) (p : Pool) (i : Nat) : Prop :=
  ∃ a, p.get? i = some (.cls a) ∧ IsUtf8 name p a

def IsString (s : Text) (p : Pool) (i : Nat) : Prop :=
  ∃ a, p.get? i = some (.string a) ∧ IsUtf8 s p a

def IsNameAndType (name desc : Text) (p : Pool) (i : Nat) : Prop :=
  ∃ a b, p.get? i = some (.nameAndType a b) ∧ IsUtf8 name p a ∧ IsUtf8 desc p b

/-- A member of a class; `entry` is for its kind. -/
def IsMember (entry : Nat → Nat → PoolEntry) (cls name desc : Text) (p : Pool) (i : Nat) : Prop :=
  ∃ a b, p.get? i = some (entry a b) ∧ IsClass cls p a ∧ IsNameAndType name desc p b

def IsLiteral : Literal → Pool → Nat → Prop
  | .int v, p, i => p.get? i = some (.int v)
  | .float v, p, i => p.get? i = some (.float v)
  | .long v, p, i => p.get? i = some (.long v)
  | .double v, p, i => p.get? i = some (.double v)
  | .string s, p, i => IsString s p i

section
variable {p q : Pool} {i : Nat} {s cls name desc : Text} {entry : Nat → Nat → PoolEntry} {v : Literal}
  (h : Grows p q)
include h

theorem IsUtf8.mono (hi : IsUtf8 s p i) : IsUtf8 s q i := h.get? hi

theorem IsClass.mono : IsClass name p i → IsClass name q i
  | ⟨a, hi, ha⟩ => ⟨a, h.get? hi, ha.mono h⟩

theorem IsString.mono : IsString s p i → IsString s q i
  | ⟨a, hi, ha⟩ => ⟨a, h.get? hi, ha.mono h⟩

theorem IsNameAndType.mono : IsNameAndType name desc p i → IsNameAndType name desc q i
  | ⟨a, b, hi, ha, hb⟩ => ⟨a, b, h.get? hi, ha.mono h, hb.mono h⟩

theorem IsMember.mono :
    IsMember entry cls name desc p i → IsMember entry cls name desc q i
  | ⟨a, b, hi, ha, hb⟩ => ⟨a, b, h.get? hi, ha.mono h, hb.mono h⟩

theorem IsLiteral.mono (hi : IsLiteral v p i) : IsLiteral v q i := by
  cases v with
  | string s => exact IsString.mono h hi
  | _ => exact h.get? hi

end

/-! ### Operations -/

section
variable {p : Pool} {r r' : Nat × Pool} {ts ts' : List Text} {asked asked' : Pool → Nat → Prop}

/-- One operation after the other. What the first one found is still there. -/
theorem Gives.then (h : Gives p r ts asked) (h' : Gives r.2 r' ts' asked')
    (mono : ∀ {q q' i}, Grows q q' → asked q i → asked q' i) :
    Gives p r' (ts ++ ts') fun q i => asked' q i ∧ asked q r.1 where
  inv := h'.inv
  grows := h.grows.trans h'.grows
  lt_size := h'.lt_size
  entry := h'.entry
  text_mem hs := by
    rcases h'.text_mem hs with hs | hs
    · exact (h.text_mem hs).imp_right (List.mem_append_left _)
    · exact .inr (List.mem_append_right _ hs)
  found ho := ⟨h'.found ho, mono h'.grows (h.found (h'.grows.not_overflow ho))⟩

theorem Gives.imp (h : Gives p r ts asked) (hi : ∀ {q i}, asked q i → asked' q i) :
    Gives p r ts asked' :=
  { h with found := fun ho => hi (h.found ho) }

end

section
variable {p : Pool} (h : p.Inv)
include h

theorem Inv.utf8 (s : Text) : Gives p (p.utf8 s) [s] (IsUtf8 s) :=
  h.add (e := .utf8 s) nofun nofun fun _ => .nil

theorem Inv.cls (name : Text) : Gives p (p.cls name) [name] (IsClass name) := by
  have h1 := h.utf8 name
  have h2 := h1.inv.add (e := .cls (p.utf8 name).1) nofun (by simpa [PoolEntry.refs] using h1.lt_size)
    fun ho => .cons ⟨_, h1.found ho, rfl⟩ .nil
  exact (h1.then h2 IsUtf8.mono).imp fun ⟨hi, ha⟩ => ⟨_, hi, ha⟩

theorem Inv.string (s : Text) : Gives p (p.string s) [s] (IsString s) := by
  have h1 := h.utf8 s
  have h2 := h1.inv.add (e := .string (p.utf8 s).1) nofun (by simpa [PoolEntry.refs] using h1.lt_size)
    fun ho => .cons ⟨_, h1.found ho, rfl⟩ .nil
  exact (h1.then h2 IsUtf8.mono).imp fun ⟨hi, ha⟩ => ⟨_, hi, ha⟩

theorem Inv.nameAndType (name desc : Text) :
    Gives p (p.nameAndType name desc) [name, desc] (IsNameAndType name desc) := by
  have h1 := h.utf8 name
  have h2 := h1.inv.utf8 desc
  have h12 := h1.then h2 IsUtf8.mono
  have h3 := h2.inv.add (e := .nameAndType (p.utf8 name).1 ((p.utf8 name).2.utf8 desc).1) nofun (by
    simp only [PoolEntry.refs, List.mem_cons, List.not_mem_nil, or_false, forall_eq_or_imp, forall_eq]
    exact ⟨Nat.lt_of_lt_of_le h1.lt_size h2.grows.size_le, h2.lt_size⟩) fun ho =>
      .cons ⟨_, (h12.found ho).2, rfl⟩ (.cons ⟨_, (h12.found ho).1, rfl⟩ .nil)
  exact (h12.then h3 fun hq ⟨hd, hn⟩ => ⟨hd.mono hq, hn.mono hq⟩).imp
    fun ⟨hi, hd, hn⟩ => ⟨_, _, hi, hn, hd⟩

/-- The members of classes: `entry` makes an entry from the indices of a class and of a name with a
descriptor. -/
theorem Inv.member (entry : Nat → Nat → PoolEntry) (hne : ∀ a b, entry a b ≠ .filler)
    (hrefs : ∀ a b, (entry a b).refs = [a, b]) (htags : ∀ a b, (entry a b).refTags = [7, 12])
    (htexts : ∀ a b, texts (entry a b) = [])
    (cls name desc : Text) :
    Gives p (p.member entry cls name desc) [cls, name, desc] (IsMember entry cls name desc) := by
  unfold Pool.member
  have h1 := h.cls cls
  generalize p.cls cls = r1 at h1 ⊢
  obtain ⟨i, p1⟩ := r1
  have h2 := h1.inv.nameAndType name desc
  dsimp only at h2 ⊢
  generalize p1.nameAndType name desc = r2 at h2 ⊢
  obtain ⟨j, p2⟩ := r2
  have h12 := h1.then h2 IsClass.mono
  have h3 := h2.inv.add (hne i j) (by
    rw [hrefs]
    simp only [List.mem_cons, List.not_mem_nil, or_false, forall_eq_or_imp, forall_eq]
    exact ⟨Nat.lt_of_lt_of_le h1.lt_size h2.grows.size_le, h2.lt_size⟩) (fun ho => by
    rw [hrefs, htags]
    obtain ⟨⟨_, _, hj, _⟩, ⟨_, hi, _⟩⟩ := h12.found ho
    exact .cons ⟨_, hi, rfl⟩ (.cons ⟨_, hj, rfl⟩ .nil))
  rw [htexts] at h3
  exact (h12.then h3 fun hq ⟨hd, hn⟩ => ⟨hd.mono hq, hn.mono hq⟩).imp
    fun ⟨hi, hd, hn⟩ => ⟨_, _, hi, hn, hd⟩

theorem Inv.field (cls name desc : Text) :
    Gives p (p.field cls name desc) [cls, name, desc] (IsMember .field cls name desc) :=
  h.member .field nofun (fun _ _ => rfl) (fun _ _ => rfl) (fun _ _ => rfl) cls name desc

theorem Inv.method (cls name desc : Text) :
    Gives p (p.method cls name desc) [cls, name, desc] (IsMember .method cls name desc) :=
  h.member .method nofun (fun _ _ => rfl) (fun _ _ => rfl) (fun _ _ => rfl) cls name desc

theorem Inv.interfaceMethod (cls name desc : Text) :
    Gives p (p.interfaceMethod cls name desc) [cls, name, desc]
      (IsMember .interfaceMethod cls name desc) :=
  h.member .interfaceMethod nofun (fun _ _ => rfl) (fun _ _ => rfl) (fun _ _ => rfl) cls name desc

theorem Inv.literal (v : Literal) :
    Gives p (p.literal v) (match v with | .string s => [s] | _ => []) (IsLiteral v) := by
  cases v with
  | int v => exact h.add (e := .int v) nofun nofun fun _ => .nil
  | float v => exact h.add (e := .float v) nofun nofun fun _ => .nil
  | long v => exact h.add (e := .long v) nofun nofun fun _ => .nil
  | double v => exact h.add (e := .double v) nofun nofun fun _ => .nil
  | string s => exact h.string s

end

/-- Pools that are built from the empty one by operations. -/
inductive Built : Pool → Prop
  | empty : Built Pool.empty
  | utf8 (s : Text) : Built p → Built (p.utf8 s).2
  | cls (name : Text) : Built p → Built (p.cls name).2
  | literal (v : Literal) : Built p → Built (p.literal v).2
  | nameAndType (name desc : Text) : Built p → Built (p.nameAndType name desc).2
  | field (cls name desc : Text) : Built p → Built (p.field cls name desc).2
  | method (cls name desc : Text) : Built p → Built (p.method cls name desc).2
  | interfaceMethod (cls name desc : Text) : Built p → Built (p.interfaceMethod cls name desc).2

theorem Built.inv {p : Pool} (h : p.Built) : p.Inv := by
  induction h with
  | empty => exact .empty
  | utf8 s _ ih => exact (ih.utf8 s).inv
  | cls name _ ih => exact (ih.cls name).inv
  | literal v _ ih => exact (ih.literal v).inv
  | nameAndType name desc _ ih => exact (ih.nameAndType name desc).inv
  | field c n d _ ih => exact (ih.field c n d).inv
  | method c n d _ ih => exact (ih.method c n d).inv
  | interfaceMethod c n d _ ih => exact (ih.interfaceMethod c n d).inv

end Pool

end Classwright
