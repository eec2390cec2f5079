import Classwright.Proofs.ClassFile.RoundTrip
import Classwright.Proofs.Pool.Requests

/-!
The counts and lengths in a class file. A written class is a list of parts (`ClassFile.Parts`), some of
which are to tell a quantity: how many entries, fields or methods follow, how long a text, an attribute
or code is, how large a frame is. They all do if and only if the quantities fit their bytes
(`ClassFile.exact_of_encode`). What does not fit is refused for the pool, for its texts and for too
large a frame only.
-/

namespace Classwright

/-- Bytes of a file, and the quantity that they are to tell, if any. -/
structure Part where
  written : Text
  quantity : Option Int := none

namespace Part

/-- The quantity can be read from the bytes that are to tell it. -/
def Exact (part : Part) : Prop := ∀ n ∈ part.quantity, (Text.ofBigEndian part.written : Int) = n

/-- The bytes of parts one after the other. -/
def text (parts : List Part) : Text := parts.flatMap (·.written)

def word (n : Int) : Part := ⟨Text.word n, some n⟩

def length (n : Nat) : Part := ⟨Text.bigEndian 4 n, some n⟩

@[simp] theorem exact_plain (t : Text) : Exact ⟨t, none⟩ := nofun

@[simp] theorem exact_word_iff : (word n).Exact ↔ 0 ≤ n ∧ n ≤ 65535 := by
  simp only [Exact, word, Option.mem_def, Option.some.injEq, forall_eq', Text.ofBigEndian_word]
  omega

theorem exact_word_natCast_iff {n : Nat} : (word n).Exact ↔ n ≤ 65535 := by
  rw [exact_word_iff]
  omega

@[simp] theorem exact_length_iff : (length n).Exact ↔ n < 2 ^ 32 := by
  simp only [Exact, length, Option.mem_def, Option.some.injEq, forall_eq', Text.ofBigEndian_bigEndian]
  omega

theorem text_append (ps qs : List Part) : text (ps ++ qs) = text ps ++ text qs := List.flatMap_append

end Part

/-- An entry of a pool: the length of a text stands before it. -/
def PoolEntry.parts : PoolEntry → List Part
  | .utf8 s => [⟨[1], none⟩, .word (Modified.encode s).length, ⟨Modified.encode s, none⟩]
  | e => [⟨e.encode.toOption.getD [], none⟩]

/-- A field has no count of its own. -/
def Field.Parts (f : Field) (ps : List Part) : Prop := ∃ i j : Nat,
  ps = [⟨Text.word f.access.toNat ++ Text.word i ++ Text.word j ++ Text.word 0, none⟩]

/-- What stands in the attribute of a method with code. -/
def Method.codeParts (m : Method) : List Part :=
  [.word m.maxStack, .word m.maxLocals, .length m.code.length, ⟨m.code ++ Text.word 0 ++ Text.word 0, none⟩]

def Method.Parts (m : Method) (ps : List Part) : Prop := ∃ i j k : Nat,
  ps = ⟨Text.word m.access.toNat ++ Text.word i ++ Text.word j, none⟩ ::
    if m.access.has .abstract then [⟨Text.word 0, none⟩]
    else ⟨Text.word 1 ++ Text.word k, none⟩ :: .length (Part.text m.codeParts).length :: m.codeParts

/-- The frame of a method is not negative, and the size of its code can be told. -/
def Method.Countable (m : Method) : Prop := m.access.has .abstract = false →
  0 ≤ m.maxStack ∧ 0 ≤ m.maxLocals ∧ 12 + m.code.length < 2 ^ 32

namespace ClassFile

def SourceParts (file : Text) (ps : List Part) : Prop := ∃ i j : Nat,
  ps = if file.isEmpty then [⟨Text.word 0, none⟩]
    else [⟨Text.word 1 ++ Text.word i, none⟩, .length (Text.word j).length, ⟨Text.word j, none⟩]

/-- The parts of a class that is written with a pool. -/
def Parts (c : ClassFile) (p : Pool) (ps : List Part) : Prop :=
  ∃ (this super : Nat) (fields methods : List (List Part)) (source : List Part),
    List.Forall₂ Field.Parts c.fields.toList fields ∧
    List.Forall₂ Method.Parts c.methods.toList methods ∧ SourceParts c.sourceFile source ∧
    ps = ⟨Text.bigEndian 4 magic ++ Text.word 0 ++ Text.word majorVersion, none⟩ ::
      .word p.size :: (p.entries.toList.flatMap PoolEntry.parts ++
      ⟨Text.word c.access.toNat ++ Text.word this ++ Text.word super ++ Text.word 0, none⟩ ::
      .word c.fields.size :: (fields.flatten ++ .word c.methods.size :: (methods.flatten ++ source)))

end ClassFile

/-! ### Parts of a class -/

theorem Pool.size_add_le {p : Pool} (h : p.size ≤ maxSize) (e : PoolEntry) :
    (p.add e).2.size ≤ maxSize := by
  rcases add_cases p e with ⟨i, -, hadd⟩ | hadd | ⟨-, hfit, hadd⟩
  · rwa [hadd]
  · rwa [hadd]
  · rw [hadd, size_pushed]
    exact hfit

theorem Pool.size_cls_le {p : Pool} (h : p.size ≤ maxSize) (name : Text) :
    (p.cls name).2.size ≤ maxSize := size_add_le (size_add_le h _) _

/-- Something was written in parts that tell their quantities if it fits, and the pool kept within its
size. -/
structure Lays (p : Pool) (w : Text × Pool) (R : List Part → Prop) (fits : Prop) : Prop where
  size : p.size ≤ Pool.maxSize → w.2.size ≤ Pool.maxSize
  parts : ∃ ps, R ps ∧ w.1 = Part.text ps ∧ ((∀ part ∈ ps, part.Exact) ↔ fits)

/-- The same for a list, after what is in `done`. -/
structure LaysAll (p : Pool) (w : Text × Pool) (done : List Text) (R : α → List Part → Prop)
    (fits : α → Prop) (xs : List α) : Prop where
  size : p.size ≤ Pool.maxSize → w.2.size ≤ Pool.maxSize
  parts : ∃ pss, List.Forall₂ R xs pss ∧ w.1 = done.reverse.flatten ++ Part.text pss.flatten ∧
    ((∀ part ∈ pss.flatten, part.Exact) ↔ ∀ x ∈ xs, fits x)

namespace LaysAll

variable {p p' : Pool} {w : Text × Pool} {t : Text} {done : List Text} {R : α → List Part → Prop}
  {fits : α → Prop} {x : α} {xs : List α}

theorem nil : LaysAll p (done.reverse.flatten, p) done R fits [] :=
  ⟨id, [], .nil, (List.append_nil _).symm, by simp⟩

theorem cons (h : Lays p (t, p') (R x) (fits x)) (hs : LaysAll p' w (t :: done) R fits xs) :
    LaysAll p w done R fits (x :: xs) := by
  obtain ⟨ps, hps, htext, hexact⟩ := h.parts
  obtain ⟨pss, hpss, htexts, hexacts⟩ := hs.parts
  refine ⟨hs.size ∘ h.size, ps :: pss, .cons hps hpss, ?_, ?_⟩
  · rw [htexts, List.flatten_cons, Part.text_append, ← htext]
    simp
  · rw [List.flatten_cons, List.forall_mem_append, List.forall_mem_cons, hexact, hexacts]

end LaysAll

theorem lays_field (f : Field) (p : Pool) : Lays p (ClassFile.encodeField f p) f.Parts True :=
  ⟨fun h => Pool.size_add_le (Pool.size_add_le h _) _, _,
    ⟨(p.utf8 f.name).1, ((p.utf8 f.name).2.utf8 f.desc).1, rfl⟩, by simp [ClassFile.encodeField, Part.text],
    by simp⟩

theorem laysAll_fields (fs : List Field) (p : Pool) (done : List Text) :
    LaysAll p (ClassFile.encodeFields done fs p) done Field.Parts (fun _ => True) fs := by
  induction fs generalizing p done with
  | nil => exact .nil
  | cons f fs ih => exact .cons (lays_field f p) (ih _ _)

theorem Method.length_codeParts (m : Method) : (Part.text m.codeParts).length = 12 + m.code.length := by
  simp [Part.text, codeParts, Part.word, Part.length]
  omega

theorem lays_method (h : ClassFile.encodeMethod m p = .ok w) :
    Lays p w m.Parts m.Countable := by
  have hsize (h : p.size ≤ Pool.maxSize) : ((p.utf8 m.name).2.utf8 m.desc).2.size ≤ Pool.maxSize :=
    Pool.size_add_le (Pool.size_add_le h _) _
  unfold ClassFile.encodeMethod at h
  generalize p.utf8 m.name = r1 at h hsize
  dsimp only at h
  generalize r1.2.utf8 m.desc = r2 at h hsize
  split at h
  · next habs =>
    cases h
    refine ⟨hsize, _, ⟨r1.1, r2.1, 0, rfl⟩, ?_, ?_⟩
    · simp [habs, Part.text]
    · simp [habs, Method.Countable]
  · next habs =>
    split at h
    · cases h
    · next hle =>
      cases h
      refine ⟨fun h => Pool.size_add_le (hsize h) _, _, ⟨r1.1, r2.1, (r2.2.utf8 "Code").1, rfl⟩, ?_, ?_⟩
      · simp only [habs, Method.length_codeParts]
        simp [Part.text, Method.codeParts, Part.word, Part.length]
      · simp only [habs, Method.length_codeParts]
        simp [Method.Countable, habs, Method.codeParts]
        omega

theorem laysAll_methods
    (h : ClassFile.encodeMethods done ms p = .ok w) :
    LaysAll p w done Method.Parts Method.Countable ms := by
  induction ms generalizing p done with
  | nil =>
    cases h
    exact .nil
  | cons m ms ih =>
    rw [ClassFile.encodeMethods] at h
    split at h
    · cases h
    · next hm => exact .cons (lays_method hm) (ih h)

theorem lays_source (file : Text) (p : Pool) :
    Lays p (ClassFile.encodeSource file p) (ClassFile.SourceParts file) True := by
  unfold ClassFile.encodeSource
  split
  · next hempty => exact ⟨id, _, ⟨0, 0, rfl⟩, by simp [hempty, Part.text], by simp [hempty]⟩
  · next hfile =>
    refine ⟨fun h => Pool.size_add_le (Pool.size_add_le h _) _, _,
      ⟨(p.utf8 "SourceFile").1, ((p.utf8 "SourceFile").2.utf8 file).1, rfl⟩, ?_, ?_⟩
    · simp [hfile, Part.text, Part.length]
    · simp [hfile]

/-- The entries of a pool that is written: the lengths of all texts can be told. -/
theorem Pool.text_parts {p : Pool} (h : p.encode = .ok t) :
    t = Text.word p.size ++ Part.text (p.entries.toList.flatMap PoolEntry.parts) ∧
      ∀ part ∈ p.entries.toList.flatMap PoolEntry.parts, part.Exact := by
  have hentry {e : PoolEntry} {t : Text} (h : e.encode = .ok t) :
      t = Part.text e.parts ∧ ∀ part ∈ e.parts, part.Exact := by
    cases e with
    | utf8 s =>
      obtain ⟨hlt, rfl⟩ := Read.length_encode_utf8 h
      exact ⟨by simp [PoolEntry.parts, Part.text, Part.word], by simp [PoolEntry.parts]; omega⟩
    | _ =>
      cases h
      exact ⟨by simp [PoolEntry.parts, Part.text]; rfl, by simp [PoolEntry.parts]⟩
  have hall {es : List PoolEntry} {ts : List Text}
      (h : List.Forall₂ (fun e t => e.encode = .ok t) es ts) :
      ts.flatten = Part.text (es.flatMap PoolEntry.parts) ∧
        ∀ part ∈ es.flatMap PoolEntry.parts, part.Exact := by
    induction h with
    | nil => exact ⟨rfl, nofun⟩
    | cons he _ ih =>
      rw [List.flatMap_cons, Part.text_append, ← (hentry he).1, ← ih.1]
      exact ⟨rfl, List.forall_mem_append.2 ⟨(hentry he).2, ih.2⟩⟩
  obtain ⟨chunks, hchunks, h⟩ := bind_eq_ok h
  cases h
  obtain ⟨htext, hexact⟩ := hall (mapM_eq_ok_iff.1 hchunks)
  exact ⟨congrArg _ htext, hexact⟩

namespace ClassFile

/-- A class that is written is written in parts, and these tell their quantities if and only if the
pool, the fields and the methods are not more than sixteen bits can count, no frame is negative, and all
code is short enough. The pool is not too large if it was not before. -/
theorem exact_of_encode {c : ClassFile} {t : Text} {p : Pool} (h : c.encode = .ok (t, p)) :
    ∃ parts, c.Parts p parts ∧ t = Part.text parts ∧
      ((∀ part ∈ parts, part.Exact) ↔ p.size ≤ 65535 ∧ c.fields.size ≤ 65535 ∧
        c.methods.size ≤ 65535 ∧ ∀ m ∈ c.methods.toList, m.Countable) ∧
      (c.pool.size ≤ 65535 → p.size ≤ 65535) := by
  have hs1 (hc : c.pool.size ≤ Pool.maxSize) : ((c.pool.cls c.name).2.cls c.super).2.size ≤ Pool.maxSize :=
    Pool.size_cls_le (Pool.size_cls_le hc _) _
  unfold encode at h
  generalize c.pool.cls c.name = r1 at h hs1
  dsimp only at h
  generalize r1.2.cls c.super = r2 at h hs1
  have hfields := laysAll_fields c.fields.toList r2.2 []
  generalize encodeFields [] c.fields.toList r2.2 = w3 at h hfields
  obtain ⟨w4, hencoded, h⟩ := bind_eq_ok h
  have hmethods := laysAll_methods hencoded
  have hsource := lays_source c.sourceFile w4.2
  generalize encodeSource c.sourceFile w4.2 = w5 at h hsource
  split at h
  · cases h
  · split at h
    · cases h
    · next pool hpool =>
      cases h
      obtain ⟨hpool, hentries⟩ := Pool.text_parts hpool
      obtain ⟨fs, hfs, htfs, hefs⟩ := hfields.parts
      obtain ⟨ms, hms, htms, hems⟩ := hmethods.parts
      obtain ⟨ss, hss, htss, hess⟩ := hsource.parts
      refine ⟨_, ⟨r1.1, r2.1, fs, ms, ss, hfs, hms, hss, rfl⟩, ?_, ?_, ?_⟩
      · rw [hpool, htfs, htms, htss]
        simp [Part.text, Part.word]
      · simp only [List.forall_mem_cons, List.forall_mem_append, Part.exact_plain,
          Part.exact_word_natCast_iff, iff_true_intro hentries, hefs, hems, hess, implies_true, true_and,
          and_true]
      · exact hsource.size ∘ hmethods.size ∘ hfields.size ∘ hs1

theorem exact_of_encode_sample : ∃ t p parts, (sample 2 [0xb1]).encode = .ok (t, p) ∧
    (sample 2 [0xb1]).Parts p parts ∧ t = Part.text parts ∧ ∀ part ∈ parts, part.Exact := by
  obtain ⟨t, p, h, hp⟩ := encode_sample (show (2 : Int) ≤ 65535 by decide) [0xb1]
  obtain ⟨parts, hparts, htext, hexact, -⟩ := exact_of_encode h
  refine ⟨t, p, parts, h, hparts, htext, hexact.2 ⟨?_, by decide, by decide, ?_⟩⟩
  · rw [Pool.size, hp]
    decide
  · simp [sample, Method.Countable]

/-- A class with so many fields, all of one name. -/
def sampleWide (n : Nat) : ClassFile where
  access := 1
  name := "x"
  super := "J"
  fields := (List.replicate n ⟨1, "x", "J"⟩).toArray
  pool := .empty

/-- Fields of a name that is in the pool add nothing to it. -/
theorem encodeFields_replicate (hname : p.utf8 f.name = (i, p))
    (hdesc : p.utf8 f.desc = (j, p)) (done : List Text) (n : Nat) :
    ∃ t, encodeFields done (List.replicate n f) p = (t, p) := by
  induction n generalizing done with
  | zero => exact ⟨_, rfl⟩
  | succ n ih =>
    rw [List.replicate_succ, encodeFields, encodeField, hname]
    dsimp only
    rw [hdesc]
    exact ih _

theorem encode_sampleWide (n : Nat) : ∃ t p, (sampleWide n).encode = .ok (t, p) := by
  have hx := Pool.Inv.empty.cls "x"
  have hJ := hx.inv.cls "J"
  have hp : ((Pool.empty.cls "x").2.cls "J").2.entries =
        #[.filler, .utf8 "x", .cls 1, .utf8 "J", .cls 3] ∧
      ((Pool.empty.cls "x").2.cls "J").2.overflow = false := by
    simp +decide [Pool.cls, Pool.utf8, Pool.add, Pool.maxSize, PoolEntry.slots, Pool.empty]
  obtain ⟨a, -, ha⟩ := (hx.found (hJ.grows.not_overflow hp.2)).mono hJ.grows
  obtain ⟨b, -, hb⟩ := hJ.found hp.2
  obtain ⟨t, hfields⟩ := encodeFields_replicate (f := ⟨1, "x", "J"⟩) (hJ.inv.utf8_of_found ha)
    (hJ.inv.utf8_of_found hb) [] n
  obtain ⟨u, hu⟩ := Pool.exists_encode (p := ((Pool.empty.cls "x").2.cls "J").2) (by
    rw [hp.1]
    decide +kernel)
  simp [encode, sampleWide, hfields, encodeMethods, encodeSource, hp.2, hu, bind, Except.bind, pure,
    Except.pure]

/-- Some quantities that do not fit are written without an error: too many fields, and a negative
frame. -/
theorem exists_not_exact : (∃ t p, (sampleWide 65536).encode = .ok (t, p) ∧
      ∀ parts, (sampleWide 65536).Parts p parts → ¬ ∀ part ∈ parts, part.Exact) ∧
    ∃ t p, (sample (-1) [0xb1]).encode = .ok (t, p) ∧
      ∀ parts, (sample (-1) [0xb1]).Parts p parts → ¬ ∀ part ∈ parts, part.Exact := by
  refine ⟨?_, ?_⟩
  · obtain ⟨t, p, h⟩ := encode_sampleWide 65536
    refine ⟨t, p, h, ?_⟩
    rintro parts ⟨this, super, fields, methods, source, -, -, -, rfl⟩ hexact
    have hle := Part.exact_word_natCast_iff.1 (hexact (.word (sampleWide 65536).fields.size) (by simp))
    rw [sampleWide, List.size_toArray, List.length_replicate] at hle
    omega
  · obtain ⟨t, p, h, -⟩ := encode_sample (show (-1 : Int) ≤ 65535 by decide) [0xb1]
    refine ⟨t, p, h, ?_⟩
    rintro parts ⟨this, super, fields, methods, source, -, hmethods, -, rfl⟩ hexact
    cases hmethods with
    | cons hm hms =>
    obtain ⟨i, j, k, rfl⟩ := hm
    have hle := Part.exact_word_iff.1 (hexact (.word (-1)) (by simp +decide [Method.codeParts]))
    omega

end ClassFile

end Classwright
