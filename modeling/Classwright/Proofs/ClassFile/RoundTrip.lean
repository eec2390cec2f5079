import Classwright.Proofs.ClassFile.Listing
import Classwright.Proofs.ClassFile.Written

/-!
A class that was written is read back: its flags, names, fields and methods, and the pool entry for
entry, so that its listing is the same (`ClassFile.decode_of_encode`). What a file cannot hold is lost:
a frame that is negative and code of four gigabytes; and code may name an entry of the pool that is
only there once the class is written (`ClassFile.decode_of_encode_limits`).
-/

namespace Classwright

/-- What the parts of a class have in common that are made from valid texts. An abstract method has no
code. -/
structure ClassFile.WellFormed (c : ClassFile) : Prop where
  pool : c.pool.Built
  texts : c.pool.AllValid
  name : Utf8.isValid c.name = true
  super : Utf8.isValid c.super = true
  sourceFile : Utf8.isValid c.sourceFile = true
  fields : ∀ f ∈ c.fields.toList, Utf8.isValid f.name = true ∧ Utf8.isValid f.desc = true
  methods : ∀ m ∈ c.methods.toList, m.WellFormed
  fields_size : c.fields.size ≤ 65535
  methods_size : c.methods.size ≤ 65535

namespace Read

variable {c : ClassFile} {t : Text} {p : Pool}

theorem reads_classFile (hc : c.WellFormed) (hfits : ∀ m ∈ c.methods.toList, m.Fits)
    (h : c.encode = .ok (t, p)) :
    c.pool.Grows p ∧ ∃ q, q.entries = p.entries ∧ Reads classFile t { c with pool := q } := by
  unfold ClassFile.encode at h
  have h1 := hc.pool.inv.cls c.name
  have hv1 := h1.allValid hc.texts (by simpa using hc.name)
  generalize c.pool.cls c.name = r1 at h h1 hv1
  obtain ⟨i1, p1⟩ := r1
  have h2 := h1.inv.cls c.super
  have hv2 := h2.allValid hv1 (by simpa using hc.super)
  dsimp only at h h2 hv2
  generalize p1.cls c.super = r2 at h h2 hv2
  obtain ⟨i2, p2⟩ := r2
  have h3 := writes_fields h2.inv hv2 hc.fields []
  dsimp only at h h3
  generalize ClassFile.encodeFields [] c.fields.toList p2 = w3 at h h3
  obtain ⟨t3, p3⟩ := w3
  obtain ⟨⟨t4, p4⟩, hms, h⟩ := bind_eq_ok h
  have h4 := writes_methods h3.inv h3.valid hc.methods hfits hms
  have h5 := writes_source h4.inv h4.valid hc.sourceFile
  dsimp only at h h4 h5
  generalize ClassFile.encodeSource c.sourceFile p4 = w5 at h h5
  obtain ⟨t5, p5⟩ := w5
  dsimp only at h
  split at h
  · cases h
  · next hover =>
    split at h
    · cases h
    · next pool hpool =>
      cases h
      obtain ⟨q, hq, hqe⟩ := reads_pool h5.inv hpool h5.valid
      have hw5 : p.Within q := by
        refine ⟨Bool.not_eq_true _ ▸ hover, fun {i e} hi => ?_⟩
        rw [Pool.get?, hqe]
        exact hi
      have hw4 := hw5.mono h5.grows
      have hw3 := hw4.mono h4.grows
      have hw2 := hw3.mono h3.grows
      refine ⟨(h1.grows.trans h2.grows).trans ((h3.grows.trans h4.grows).trans h5.grows), q, hqe, ?_⟩
      simp only [List.append_assoc]
      refine (reads_numberOr _ 4 (n := ClassFile.magic) (by decide)).bind ?_
      rw [if_neg (not_not_intro rfl)]
      refine ((reads_wordOr _ (n := 0) (by decide)).last (.pure ())).bind ?_
      refine (reads_wordOr _ (n := ClassFile.majorVersion) (by decide)).bind ?_
      rw [if_neg (Nat.lt_irrefl _)]
      refine hq.bind ((reads_word c.access.toNat_lt).bind ?_)
      refine (reads_className h1 (hw2.mono h2.grows)).bind ((reads_className h2 hw2).bind ?_)
      refine (reads_word (n := 0) (by decide)).bind ?_
      refine Reads.bind (t := []) (reads_many .nil) ?_
      refine (reads_word (Nat.lt_succ_of_le hc.fields_size)).bind ((h3.many hw3).bind ?_)
      refine (reads_word (Nat.lt_succ_of_le hc.methods_size)).bind ((h4.many hw4).bind ?_)
      rw [← bind_assoc, UInt16.ofNat_toNat]
      exact (h5.reads hw5).last (.pure _)

/-! ### What can be read -/

/-- Whatever a reader gives has a property. -/
def Ensures (m : Read α) (P : α → Prop) : Prop := ∀ r x r', m r = .ok (x, r') → P x

namespace Ensures

variable {m : Read α} {f : α → Read β} {P : α → Prop} {Q : β → Prop}

protected theorem pure (h : P x) : Ensures (pure x) P := by
  intro r y r' hy
  cases hy
  exact h

protected theorem throw (e : DecodeError) : Ensures (throw e : Read α) P := nofun

theorem bind (h : Ensures m P) (h' : ∀ x, P x → Ensures (f x) Q) : Ensures (m >>= f) Q := by
  intro r y r' hy
  obtain ⟨⟨x, s⟩, hx, hy⟩ := bind_eq_ok hy
  exact h' x (h r x s hx) s y r' hy

/-- The value of the first reader does not matter. -/
theorem after (h : ∀ x, Ensures (f x) Q) : Ensures (m >>= f) Q :=
  bind (P := fun _ => True) (fun _ _ _ _ => True.intro) fun x _ => h x

end Ensures

theorem ensures_bytes (n : Nat) : Ensures (bytes n) fun t => t.length = n := by
  intro r t r' h
  rw [bytes, bytesOr] at h
  split at h
  · cases h
  · next hsplit =>
    cases h
    obtain ⟨rfl, hn⟩ := Text.eq_of_split? hsplit
    exact List.length_take_of_le hn

theorem ensures_number (n : Nat) : Ensures (number n) fun k => k < 256 ^ n := by
  refine (ensures_bytes n).bind fun t ht => .pure ?_
  rw [← ht]
  exact Text.ofBigEndian_lt t

theorem ensures_many {P : α → Prop} (h : Ensures item P)
    (hdone : ∀ x ∈ done.toList, P x) (n : Nat) :
    Ensures (many item done n) fun xs => ∀ x ∈ xs.toList, P x := by
  induction n generalizing done with
  | zero => exact .pure hdone
  | succ n ih =>
    refine h.bind fun x hx => ih ?_
    rw [Array.toList_push]
    intro y hy
    rcases List.mem_append.1 hy with hy | hy
    · exact hdone y hy
    · cases List.mem_singleton.1 hy
      exact hx

theorem ensures_methodAttributes (h : m.Fits) (n : Nat) :
    Ensures (methodAttributes p m n) Method.Fits := by
  induction n generalizing m with
  | zero => exact .pure h
  | succ n ih =>
    refine .after fun attr => .after fun size => ?_
    split
    · refine .after fun stack => .after fun locals => (ensures_number 4).bind fun k hk => ?_
      refine (ensures_bytes k).bind fun code hcode => .after fun _ => .after fun _ => .after fun _ => ?_
      exact ih ⟨Int.natCast_nonneg _, Int.natCast_nonneg _, hcode ▸ hk⟩
    · exact .after fun _ => ih h

theorem ensures_method (p : Pool) : Ensures (method p) Method.Fits :=
  .after fun _ => .after fun _ => .after fun _ => .after fun n =>
    ensures_methodAttributes (m := ⟨_, _, _, 0, 0, []⟩)
      ⟨Int.le_refl 0, Int.le_refl 0, Nat.two_pow_pos 32⟩ n

/-- The methods of a class from a file have frames and code that a file can hold. -/
theorem ensures_classFile : Ensures classFile fun c => ∀ m ∈ c.methods.toList, m.Fits := by
  refine .after fun magic => ?_
  split
  · exact .bind (P := fun _ => False) (.throw _) nofun
  · refine .after fun _ => .after fun version => ?_
    split
    · exact .bind (P := fun _ => False) (.throw _) nofun
    · refine .after fun p => .after fun _ => .after fun _ => .after fun _ => .after fun _ =>
        .after fun _ => .after fun _ => .after fun _ => .after fun n => ?_
      refine (ensures_many (ensures_method p) (by simp) n).bind fun methods hmethods => ?_
      exact .after fun _ => .after fun _ => .pure hmethods
end Read

theorem Pool.exists_encode {p : Pool} (h : (p.entries.toList.mapM PoolEntry.encode).isOk = true) :
    ∃ t, p.encode = .ok t := by
  rw [Pool.encode]
  cases hchunks : p.entries.toList.mapM PoolEntry.encode with
  | error n =>
    rw [hchunks] at h
    cases h
  | ok chunks => exact ⟨_, rfl⟩

namespace ClassFile

/-- Listings are the same if the pools describe what the code names in the same way. -/
theorem listing_congr {c : ClassFile}
    (h : ∀ m ∈ c.methods.toList, ∀ i ∈ Listing.references c.pool 0 m.code,
      c.pool.describe i = q.describe i) :
    c.listing = { c with pool := q }.listing := by
  have hmethods : c.methods.toList.mapM (Listing.method c.pool) =
      c.methods.toList.mapM (Listing.method q) := mapM_congr fun m hm => by
    rw [Listing.method, Listing.method, Listing.code, Listing.code, Listing.lines_congr (h m hm)]
  unfold listing
  rw [hmethods]

theorem fits_of_decode (h : decode t = .ok d) :
    ∀ m ∈ d.methods.toList, m.Fits := by
  obtain ⟨⟨c, r⟩, hc, h⟩ := bind_eq_ok h
  dsimp only at h
  split at h
  · cases h
    exact Read.ensures_classFile _ _ _ hc
  · cases h

theorem exists_decode {c : ClassFile} (hc : c.WellFormed) (hfits : ∀ m ∈ c.methods.toList, m.Fits)
    (h : c.encode = .ok (t, p)) :
    c.pool.Grows p ∧ ∃ q, q.entries = p.entries ∧ decode t = .ok { c with pool := q } := by
  obtain ⟨hgrows, q, hqe, hreads⟩ := Read.reads_classFile hc hfits h
  refine ⟨hgrows, q, hqe, ?_⟩
  have hrun := hreads 0 []
  rw [List.append_nil] at hrun
  rw [decode, StateT.run, hrun]
  rfl

/-! ### A class with one method -/

/-- A class whose only method has a frame and code of its own. -/
def sample (stack : Int) (code : Text) : ClassFile where
  access := 0x21
  name := "A"
  super := "B"
  fields := #[⟨1, "x", "J"⟩]
  methods := #[⟨1, "f", "()J", stack, 0, code⟩]
  sourceFile := "A.ix"
  pool := (Pool.empty.literal (.long 7)).2

/-- The pool that the sample is written with. -/
def sampleEntries : Array PoolEntry :=
  #[.filler, .long 7, .filler, .utf8 "A", .cls 3, .utf8 "B", .cls 5, .utf8 "x", .utf8 "J", .utf8 "f",
    .utf8 "()J", .utf8 "Code", .utf8 "SourceFile", .utf8 "A.ix"]

theorem encode_sample {stack : Int} (h : stack ≤ 65535) (code : Text) :
    ∃ t p, (sample stack code).encode = .ok (t, p) ∧ p.entries = sampleEntries := by
  have hstack : ¬ 65535 < stack := by omega
  simp +decide [sample, ClassFile.encode, Pool.cls, Pool.utf8, Pool.add, Pool.maxSize, PoolEntry.slots, Pool.literal,
    Pool.empty, encodeFields, encodeField, encodeMethods, encodeMethod, hstack, encodeSource, bind, Except.bind]
  split
  · next heq =>
    have hok : (sampleEntries.toList.mapM PoolEntry.encode).isOk = true := by decide +kernel
    obtain ⟨t, ht⟩ := Pool.exists_encode (p := ⟨sampleEntries, _, false⟩) hok
    cases ht.symm.trans heq
  · exact ⟨_, _, rfl, rfl⟩

theorem wellFormed_sample (stack : Int) (code : Text) : (sample stack code).WellFormed where
  pool := .literal _ .empty
  texts := by
    refine (Pool.Inv.empty.literal (.long 7)).allValid (fun i s hs => ?_) nofun
    have := Pool.Inv.index_of_get .empty hs nofun
    simp [Pool.empty] at this
  name := (by decide +kernel : Utf8.isValid "A" = true)
  super := (by decide +kernel : Utf8.isValid "B" = true)
  sourceFile := (by decide +kernel : Utf8.isValid "A.ix" = true)
  fields := by
    simp only [sample, List.mem_singleton, forall_eq]
    decide +kernel
  methods := by
    simp only [sample, List.mem_singleton, forall_eq]
    have habs : Access.has 1 .abstract = false := by decide
    have hvalid : Utf8.isValid "f" = true ∧ Utf8.isValid "()J" = true := by decide +kernel
    exact ⟨hvalid.1, hvalid.2, fun h => by rw [habs] at h; cases h⟩
  fields_size := (by decide : 1 ≤ 65535)
  methods_size := (by decide : 1 ≤ 65535)

theorem entries_sample (stack : Int) (code : Text) :
    (sample stack code).pool.entries = #[.filler, .long 7, .filler] := by
  simp [sample, Pool.empty, Pool.literal, Pool.add, Pool.maxSize, PoolEntry.slots]

theorem fits_sample (hstack : 0 ≤ stack) (hcode : code.length < 2 ^ 32) :
    ∀ m ∈ (sample stack code).methods.toList, m.Fits := by
  simp only [sample, List.mem_singleton, forall_eq]
  exact ⟨hstack, Int.le_refl 0, hcode⟩

/-- The sample is not read back if its frame or its code does not fit. -/
theorem ne_of_decode_sample
    (h : stack < 0 ∨ 2 ^ 32 ≤ code.length) (hd : decode t = .ok d) :
    d.methods ≠ (sample stack code).methods := by
  intro heq
  have hfits := fits_of_decode hd
  rw [heq] at hfits
  have hm := hfits _ (List.mem_singleton_self _)
  rcases h with h | h
  · exact Int.not_le.2 h hm.maxStack
  · exact Nat.not_lt.2 h hm.code

/-! ### The round trip -/

/-- A class that was written is read back, with the pool that it was written with. Its listing is the
one of the class after it was written, and before too if all constants that the code names were there. -/
theorem decode_of_encode {c : ClassFile} (hc : c.WellFormed) (hfits : ∀ m ∈ c.methods.toList, m.Fits)
    {t : Text} {p : Pool} (h : c.encode = .ok (t, p)) :
    ∃ d, decode t = .ok d ∧ d.access = c.access ∧ d.name = c.name ∧ d.super = c.super ∧
      d.sourceFile = c.sourceFile ∧ d.fields = c.fields ∧ d.methods = c.methods ∧
      d.pool.entries = p.entries ∧ d.listing = { c with pool := p }.listing ∧
      ((∀ m ∈ c.methods.toList, ∀ i ∈ Listing.references c.pool 0 m.code, i < c.pool.size) →
        d.listing = c.listing) := by
  obtain ⟨hgrows, q, hqe, hdecode⟩ := exists_decode hc hfits h
  have hafter : { c with pool := q }.listing = { c with pool := p }.listing :=
    listing_congr fun _ _ i _ => Pool.describe_congr hqe i
  refine ⟨_, hdecode, rfl, rfl, rfl, rfl, rfl, rfl, hqe, hafter, fun hrefs => ?_⟩
  rw [hafter]
  exact (listing_congr fun m hm i hi => hc.pool.inv.describe_eq hgrows (hrefs m hm i hi)).symm

theorem decode_of_encode_sample :
    ∃ t p d, (sample 2 [0x14, 0, 1, 0xad]).encode = .ok (t, p) ∧ decode t = .ok d ∧
      d.fields = #[⟨1, "x", "J"⟩] ∧ d.methods = #[⟨1, "f", "()J", 2, 0, [0x14, 0, 1, 0xad]⟩] ∧
      d.pool.entries = sampleEntries ∧ d.listing = (sample 2 [0x14, 0, 1, 0xad]).listing := by
  obtain ⟨t, p, h, hp⟩ := encode_sample (show (2 : Int) ≤ 65535 by decide) [0x14, 0, 1, 0xad]
  obtain ⟨d, hd, -, -, -, -, hfields, hmethods, hpool, -, hlisting⟩ :=
    decode_of_encode (wellFormed_sample _ _) (fits_sample (by decide) (by decide)) h
  refine ⟨t, p, d, h, hd, hfields, hmethods, hpool.trans hp, hlisting ?_⟩
  have hlong : Opcode.shape ⟨0x14⟩ = .const := by decide
  have hreturn : Opcode.shape ⟨0xad⟩ = .plain := by decide
  simp +decide [sample, Listing.references, Listing.first, Listing.instr, Listing.firstReference?,
    Listing.operand?, Listing.shortForm?, Listing.reference?, Text.split?, hlong, hreturn,
    Pool.size, Pool.empty, Pool.literal, Pool.add]

/-- What a file cannot hold is lost, and what was written may be listed in another way than before: a
negative frame, code of four gigabytes, and code that names an entry which is not in the pool yet. -/
theorem decode_of_encode_limits :
    ((sample (-1) [0xb1]).WellFormed ∧ ∃ t p, (sample (-1) [0xb1]).encode = .ok (t, p) ∧
      ∀ d, decode t = .ok d → d.methods ≠ (sample (-1) [0xb1]).methods) ∧
    ((sample 0 (List.replicate (2 ^ 32) 0)).WellFormed ∧
      ∃ t p, (sample 0 (List.replicate (2 ^ 32) 0)).encode = .ok (t, p) ∧
        ∀ d, decode t = .ok d → d.methods ≠ (sample 0 (List.replicate (2 ^ 32) 0)).methods) ∧
    ((sample 1 [0x12, 3]).WellFormed ∧ ∃ t p d, (sample 1 [0x12, 3]).encode = .ok (t, p) ∧
      decode t = .ok d ∧ d.listing ≠ (sample 1 [0x12, 3]).listing) := by
  refine ⟨⟨wellFormed_sample _ _, ?_⟩, ⟨wellFormed_sample _ _, ?_⟩, wellFormed_sample _ _, ?_⟩
  · obtain ⟨t, p, h, -⟩ := encode_sample (show (-1 : Int) ≤ 65535 by decide) [0xb1]
    exact ⟨t, p, h, fun d => ne_of_decode_sample (.inl (by decide))⟩
  · obtain ⟨t, p, h, -⟩ := encode_sample (show (0 : Int) ≤ 65535 by decide) (List.replicate (2 ^ 32) 0)
    exact ⟨t, p, h, fun d => ne_of_decode_sample (.inr (Nat.le_of_eq List.length_replicate.symm))⟩
  · obtain ⟨t, p, h, hp⟩ := encode_sample (show (1 : Int) ≤ 65535 by decide) [0x12, 3]
    obtain ⟨-, q, hq, hd⟩ := exists_decode (wellFormed_sample _ _) (fits_sample (by decide) (by decide)) h
    refine ⟨t, p, _, h, hd, ?_⟩
    -- the pools are replaced by their entries, which is all that a listing reads
    have hbefore : (sample 1 [0x12, 3]).listing =
        { sample 1 [0x12, 3] with pool := ⟨#[.filler, .long 7, .filler], ∅, false⟩ }.listing :=
      listing_congr fun _ _ i _ => Pool.describe_congr (entries_sample _ _) i
    have hafter : { sample 1 [0x12, 3] with pool := q }.listing =
        { sample 1 [0x12, 3] with pool := ⟨sampleEntries, ∅, false⟩ }.listing :=
      listing_congr fun _ _ i _ => Pool.describe_congr (hq.trans hp) i
    rw [hbefore, hafter]
    decide +kernel

end ClassFile

end Classwright
