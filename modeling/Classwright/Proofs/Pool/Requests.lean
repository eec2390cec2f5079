import Classwright.Proofs.ClassFile.Listing

/-!
Histories of a constant pool. Whatever is asked for, one request after the other, the pool keeps what
it has and stays within its size (`Pool.Sound`); a request leads to what was asked for, and is
answered in the same way later on, as long as the pool has not run over (`Pool.requests_sound`).
-/

namespace Classwright

theorem Pool.Laid.filler_iff (h : Laid es) : es[0]? ≠ some .filler ∧
    ∀ k, es[k + 1]? = some .filler ↔ ∃ e, es[k]? = some e ∧ e.slots = 2 := by
  induction h with
  | nil => simp
  | @cons e es he _ ih =>
    refine ⟨by simpa [Pool.block] using he, fun k => ?_⟩
    rcases slots_cases e with hs | hs
    · cases k with
      | zero => simpa [Pool.block, hs] using ih.1
      | succ k => simpa [Pool.block, hs] using ih.2 k
    · rcases k with _ | _ | k
      · simp [Pool.block, hs]
      · simpa [Pool.block, hs, show PoolEntry.filler.slots = 1 from rfl] using ih.1
      · simpa [Pool.block, hs] using ih.2 k

namespace Pool

/-- What a pool may be asked for. -/
inductive Request where
  | utf8 (s : Text)
  | cls (name : Text)
  | literal (v : Literal)
  | nameAndType (name desc : Text)
  | field (cls name desc : Text)
  | method (cls name desc : Text)
  | interfaceMethod (cls name desc : Text)

namespace Request

def run (p : Pool) : Request → Nat × Pool
  | utf8 s => p.utf8 s
  | cls name => p.cls name
  | literal v => p.literal v
  | nameAndType name desc => p.nameAndType name desc
  | field c name desc => p.field c name desc
  | method c name desc => p.method c name desc
  | interfaceMethod c name desc => p.interfaceMethod c name desc

/-- An index leads to what is asked for. -/
def Found : Request → Pool → Nat → Prop
  | utf8 s => IsUtf8 s
  | cls name => IsClass name
  | literal v => IsLiteral v
  | nameAndType name desc => IsNameAndType name desc
  | field c name desc => IsMember .field c name desc
  | method c name desc => IsMember .method c name desc
  | interfaceMethod c name desc => IsMember .interfaceMethod c name desc

end Request

/-- The pool after requests, one after the other. -/
def after (p : Pool) (rs : List Request) : Pool := rs.foldl (fun p r => (r.run p).2) p

/-- What holds of a pool whatever it was asked for: it has at most so many indices; no entry is there
twice; the index after an entry of eight bytes, and no other, is kept free; and unless the pool has run
over, an entry refers to earlier ones of the right kinds. So its description ends: there is fuel enough,
and more of it changes nothing. -/
structure Sound (p : Pool) : Prop where
  size_le : p.size ≤ 65535
  eq_of_get? : ∀ {e i j}, p.get? i = some e → p.get? j = some e → e ≠ .filler → i = j
  filler_iff : ∀ i, p.get? (i + 1) = some .filler ↔ ∃ e, p.get? i = some e ∧ e.slots = 2
  refs : p.overflow = false → ∀ {e i}, p.get? i = some e →
    List.Forall₂ (fun r tag => r < i ∧ p.HasTag r tag) e.refs e.refTags
  describe : ∀ {i fuel}, i < fuel → p.describeEntry fuel i = p.describe i

variable {p : Pool}

theorem Inv.sound (h : p.Inv) : p.Sound where
  size_le := h.size_le
  eq_of_get? hi hj he := Option.some.inj ((h.index_of_get hi he).symm.trans (h.index_of_get hj he))
  filler_iff i := by
    obtain ⟨es, hes, hlaid⟩ := h.laid
    cases i with
    | zero => simpa [get?_eq_some_iff, hes] using hlaid.filler_iff.1
    | succ i => simpa [get?_eq_some_iff, hes] using hlaid.filler_iff.2 i
  refs ho e i he := by
    exact (List.forall₂_and_left _ _).2 ⟨fun r hr => h.refs_lt he hr, h.refs_tag ho he⟩
  describe {i fuel} hf := by
    by_cases hi : i < p.size
    · exact h.describeEntry_eq .rfl hi hf (Nat.lt_succ_of_lt hi)
    · obtain ⟨n, rfl⟩ : ∃ n, fuel = n + 1 := ⟨fuel - 1, by omega⟩
      have hnone : p.get? i = none := by simpa [Pool.get?, Pool.size] using fun _ => Nat.le_of_not_lt hi
      rw [Pool.describe, describeEntry, describeEntry, hnone]

theorem Inv.request (h : p.Inv) (r : Request) : ∃ ts, Gives p (r.run p) ts r.Found := by
  cases r with
  | utf8 s => exact ⟨_, h.utf8 s⟩
  | cls name => exact ⟨_, h.cls name⟩
  | literal v => exact ⟨_, h.literal v⟩
  | nameAndType name desc => exact ⟨_, h.nameAndType name desc⟩
  | field cls name desc => exact ⟨_, h.field cls name desc⟩
  | method cls name desc => exact ⟨_, h.method cls name desc⟩
  | interfaceMethod cls name desc => exact ⟨_, h.interfaceMethod cls name desc⟩

theorem Inv.after (h : p.Inv) (rs : List Request) : (p.after rs).Inv ∧ p.Grows (p.after rs) := by
  induction rs generalizing p with
  | nil => exact ⟨h, .rfl⟩
  | cons r rs ih =>
    obtain ⟨_, hr⟩ := h.request r
    obtain ⟨hinv, hgrows⟩ := ih hr.inv
    exact ⟨hinv, hr.grows.trans hgrows⟩

/-! ### Requests again -/

section
variable {i : Nat} {s cls name desc : Text} (h : p.Inv)
include h

theorem Inv.add_of_get? (hi : p.get? i = some e) (he : e ≠ .filler) :
    p.add e = (i, p) := by
  rw [Pool.add, h.index_of_get hi he]

theorem Inv.utf8_of_found (hi : IsUtf8 s p i) : p.utf8 s = (i, p) := h.add_of_get? hi nofun

theorem Inv.cls_of_found (hi : IsClass name p i) : p.cls name = (i, p) := by
  obtain ⟨a, hi, ha⟩ := hi
  rw [Pool.cls, h.utf8_of_found ha]
  exact h.add_of_get? hi nofun

theorem Inv.nameAndType_of_found (hi : IsNameAndType name desc p i) :
    p.nameAndType name desc = (i, p) := by
  obtain ⟨a, b, hi, ha, hb⟩ := hi
  rw [Pool.nameAndType, h.utf8_of_found ha]
  dsimp only
  rw [h.utf8_of_found hb]
  exact h.add_of_get? hi nofun

theorem Inv.member_of_found (hi : IsMember e cls name desc p i)
    (hne : ∀ a b, e a b ≠ .filler) : p.member e cls name desc = (i, p) := by
  obtain ⟨a, b, hi, ha, hb⟩ := hi
  rw [Pool.member, h.cls_of_found ha]
  dsimp only
  rw [h.nameAndType_of_found hb]
  exact h.add_of_get? hi (hne a b)

theorem Inv.literal_of_found (hi : IsLiteral v p i) : p.literal v = (i, p) := by
  cases v with
  | string s =>
    obtain ⟨a, hi, ha⟩ := hi
    rw [Pool.literal, Pool.string, h.utf8_of_found ha]
    exact h.add_of_get? hi nofun
  | _ => exact h.add_of_get? hi nofun

/-- What is there is not added again. -/
theorem Inv.run_of_found {r : Request} (hi : r.Found p i) : r.run p = (i, p) := by
  cases r with
  | utf8 s => exact h.utf8_of_found hi
  | cls name => exact h.cls_of_found hi
  | literal v => exact h.literal_of_found hi
  | nameAndType name desc => exact h.nameAndType_of_found hi
  | field c n d => exact (h.member_of_found (hi : IsMember .field c n d p i) nofun :)
  | method c n d => exact (h.member_of_found (hi : IsMember .method c n d p i) nofun :)
  | interfaceMethod c n d =>
    exact (h.member_of_found (hi : IsMember .interfaceMethod c n d p i) nofun :)

end

theorem Request.Found.mono {r : Request} (h : Grows p q) (hi : r.Found p i) :
    r.Found q i := by
  cases r with
  | utf8 s => exact IsUtf8.mono h hi
  | cls name => exact IsClass.mono h hi
  | literal v => exact IsLiteral.mono h hi
  | nameAndType name desc => exact IsNameAndType.mono h hi
  | field _ _ _ | method _ _ _ | interfaceMethod _ _ _ => exact IsMember.mono h hi

/-- Whatever a pool was asked for before: it is sound, a request adds entries at its end only, and the
index that it gives is never one that is kept free. Unless the pool has run over, the index leads to
what was asked for, and later on the request is answered by this index again and adds nothing. -/
theorem requests_sound (before later : List Request) (r : Request) {q : Pool} {i : Nat}
    (hq : r.run (Pool.empty.after before) = (i, q)) :
    (Pool.empty.after before).Sound ∧ (Pool.empty.after before).entries.toList <+: q.entries.toList ∧
    q.get? i ≠ some .filler ∧ (q.overflow = false → 0 < i ∧ r.Found q i) ∧
    ((q.after later).overflow = false → r.run (q.after later) = (i, q.after later)) := by
  have hp := (Inv.empty.after before).1
  obtain ⟨_, hr⟩ := hp.request r
  rw [hq] at hr
  obtain ⟨hz, hgrows⟩ := hr.inv.after later
  refine ⟨hp.sound, hr.grows.isPrefix, ?_, fun ho => ⟨?_, hr.found ho⟩, fun ho => ?_⟩
  · rcases hr.entry with ⟨rfl, -⟩ | ⟨e, he, hne⟩
    · exact nofun
    · simpa [he] using hne
  · rcases hr.entry with ⟨-, hover⟩ | ⟨e, he, -⟩
    · cases ho.symm.trans hover
    · exact (get?_eq_some_iff.1 he).1
  · exact hz.run_of_found ((hr.found (hgrows.not_overflow ho)).mono hgrows)

theorem requests_sound_sampleClass : ∃ q : Pool,
    Request.run (Pool.empty.after [.literal (.long 7)]) (.cls "A") = (4, q) ∧ IsClass "A" q 4 ∧
    (q.after [.utf8 "B"]).overflow = false ∧
    Request.run (q.after [.utf8 "B"]) (.cls "A") = (4, q.after [.utf8 "B"]) := by
  have hrun : ∃ q : Pool, Request.run (Pool.empty.after [.literal (.long 7)]) (.cls "A") = (4, q) ∧
      q.overflow = false ∧ (q.after [.utf8 "B"]).overflow = false := by
    simp +decide [Request.run, after, Pool.cls, Pool.utf8, Pool.literal, Pool.add, Pool.empty,
      Pool.maxSize, PoolEntry.slots]
  obtain ⟨q, hrun, ho, hafter⟩ := hrun
  obtain ⟨-, -, -, hfound, hlater⟩ := requests_sound [.literal (.long 7)] [.utf8 "B"] (.cls "A") hrun
  exact ⟨q, hrun, (hfound ho).2, hafter, hlater hafter⟩

end Pool

end Classwright
