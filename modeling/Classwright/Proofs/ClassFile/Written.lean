import Classwright.Proofs.ClassFile.Reader

/-!
The parts of a class and the pool that grows while they are written. A part is read back with any pool
that has all the entries there are after it (`Read.Writes`); the pool in front of the finished class
is such a pool for every part.
-/

namespace Classwright

/-- All texts of a pool are valid. -/
def Pool.AllValid (p : Pool) : Prop := ∀ i s, p.get? i = some (.utf8 s) → Utf8.isValid s = true

theorem Pool.Gives.allValid
    (h : Gives p r ts asked) (hp : p.AllValid) (hts : ∀ s ∈ ts, Utf8.isValid s = true) :
    r.2.AllValid := by
  intro i s hs
  rcases h.text_mem hs with hold | hnew
  · exact hp i s hold
  · exact hts s hnew

/-- A pool has not run over, and another one has all its entries. -/
structure Pool.Within (p q : Pool) : Prop where
  overflow : p.overflow = false
  get? : ∀ {i e}, p.get? i = some e → q.get? i = some e

theorem Pool.Within.mono {p : Pool} (h : p'.Within q) (hg : p.Grows p') : p.Within q :=
  ⟨hg.not_overflow h.overflow, fun hi => h.get? (hg.get? hi)⟩

/-- The texts of a method are valid, and an abstract one has neither a frame nor code. -/
structure Method.WellFormed (m : Method) : Prop where
  name : Utf8.isValid m.name = true
  desc : Utf8.isValid m.desc = true
  abstract : m.access.has .abstract = true → m.maxStack = 0 ∧ m.maxLocals = 0 ∧ m.code = []

/-- The numbers of a method are some that a file can hold: the frame is not negative, and the size of
the code has four bytes. -/
structure Method.Fits (m : Method) : Prop where
  maxStack : 0 ≤ m.maxStack
  maxLocals : 0 ≤ m.maxLocals
  code : m.code.length < 2 ^ 32

namespace Read

/-- A part of a class was written: the pool has grown by valid texts, and the part is read back with
any pool that has its entries. -/
structure Writes (p : Pool) (w : Text × Pool) (read : Pool → Read α) (x : α) : Prop where
  inv : w.2.Inv
  valid : w.2.AllValid
  grows : p.Grows w.2
  reads : ∀ {q}, w.2.Within q → Reads (read q) w.1 x

/-- Parts were written one after the other, after those in `done`, the last one first. -/
structure WritesAll (p : Pool) (w : Text × Pool) (done : List Text) (read : Pool → Read α)
    (xs : List α) : Prop where
  inv : w.2.Inv
  valid : w.2.AllValid
  grows : p.Grows w.2
  reads : ∃ ts, w.1 = done.reverse.flatten ++ ts.flatten ∧
    ∀ {q}, w.2.Within q → List.Forall₂ (Reads (read q)) ts xs

namespace WritesAll

variable {p p' : Pool} {w : Text × Pool} {t : Text} {done : List Text} {read : Pool → Read α}
  {x : α} {xs : List α}

theorem nil (hp : p.Inv) (hv : p.AllValid) : WritesAll p (done.reverse.flatten, p) done read [] :=
  ⟨hp, hv, .rfl, [], (List.append_nil _).symm, fun _ => .nil⟩

theorem cons (h : Writes p (t, p') read x) (hs : WritesAll p' w (t :: done) read xs) :
    WritesAll p w done read (x :: xs) := by
  obtain ⟨ts, hts, hreads⟩ := hs.reads
  refine ⟨hs.inv, hs.valid, h.grows.trans hs.grows, t :: ts, ?_, fun hq => ?_⟩
  · rw [hts]
    simp
  · exact .cons (h.reads (hq.mono hs.grows)) (hreads hq)

/-- What was written from the start is read as a list. -/
theorem many (h : WritesAll p w [] read xs) (hq : w.2.Within q) :
    Reads (many (read q) #[] xs.length) w.1 xs.toArray := by
  obtain ⟨ts, hts, hreads⟩ := h.reads
  rw [hts]
  exact reads_many (hreads hq)

end WritesAll

section
variable {p q : Pool} {r : Nat × Pool} {ts : List Text} {s : Text}

/-- The index of a text is read as the text. -/
theorem reads_name (h : p.Gives r ts (Pool.IsUtf8 s)) (hq : r.2.Within q) :
    Reads (name q) (Text.word r.1) s := by
  have hlt := h.lt_size
  have hle := h.inv.size_le
  refine .get fun _ => (reads_word (by rw [Pool.maxSize] at hle; omega)).last ?_
  rw [hq.get? (h.found hq.overflow)]
  exact .pure s

/-- The index of a class is read as its name. -/
theorem reads_className (h : p.Gives r ts (Pool.IsClass s)) (hq : r.2.Within q) :
    Reads (className q) (Text.word r.1) s := by
  have hlt := h.lt_size
  have hle := h.inv.size_le
  obtain ⟨a, hcls, hname⟩ := h.found hq.overflow
  refine .get fun _ => (reads_word (by rw [Pool.maxSize] at hle; omega)).last ?_
  rw [hq.get? hcls]
  change Reads (pure (((q.get? a).map (·.text)).getD [])) [] s
  rw [hq.get? hname]
  exact .pure s

end

theorem reads_skipAttributes : Reads skipAttributes (Text.word 0) () :=
  (reads_word (n := 0) (by decide)).last ((reads_many .nil).last (.pure ()))

theorem writes_field (hp : p.Inv) (hv : p.AllValid)
    (hname : Utf8.isValid f.name = true) (hdesc : Utf8.isValid f.desc = true) :
    Writes p (ClassFile.encodeField f p) field f := by
  have h1 := hp.utf8 f.name
  have h2 := h1.inv.utf8 f.desc
  have hv1 := h1.allValid hv (by simpa using hname)
  refine ⟨h2.inv, h2.allValid hv1 (by simpa using hdesc), h1.grows.trans h2.grows, fun hq => ?_⟩
  simp only [ClassFile.encodeField, List.append_assoc]
  refine (reads_word f.access.toNat_lt).bind ?_
  refine (reads_name h1 (hq.mono h2.grows)).bind ((reads_name h2 hq).bind ?_)
  refine reads_skipAttributes.last ?_
  rw [UInt16.ofNat_toNat]
  exact .pure f

theorem writes_fields (hp : p.Inv) (hv : p.AllValid)
    (hfs : ∀ f ∈ fs, Utf8.isValid f.name = true ∧ Utf8.isValid f.desc = true) (done : List Text) :
    WritesAll p (ClassFile.encodeFields done fs p) done field fs := by
  induction fs generalizing p done with
  | nil => exact .nil hp hv
  | cons f fs ih =>
    have hf := writes_field hp hv (hfs f (.head _)).1 (hfs f (.head _)).2
    exact .cons hf (ih hf.inv hf.valid (fun g hg => hfs g (.tail _ hg)) _)

theorem isValid_attributes : Utf8.isValid "Code" = true ∧ Utf8.isValid "SourceFile" = true := by
  decide +kernel

/-- The attributes of a method that has code. -/
theorem reads_methodAttributes {stack locals : Nat}
    (hname : Reads (name q) attr "Code") (hsize : size.length = 4) (hstack : stack < 65536)
    (hlocals : locals < 65536) (hcode : code.length < 2 ^ 32) :
    Reads (methodAttributes q m 1)
      (attr ++ (size ++ (Text.word stack ++ (Text.word locals ++
        (Text.bigEndian 4 code.length ++ (code ++ (Text.word 0 ++ Text.word 0)))))))
      { m with maxStack := stack, maxLocals := locals, code := code } := by
  refine hname.bind ((reads_digits hsize).bind ?_)
  rw [if_pos rfl]
  refine (reads_word hstack).bind ((reads_word hlocals).bind ?_)
  refine (reads_number 4 hcode).bind ((reads_bytes rfl).bind ?_)
  refine (reads_word (n := 0) (by decide)).bind ?_
  refine Reads.bind (t := []) (reads_skip rfl) ?_
  exact reads_skipAttributes.last (.pure _)

theorem writes_method (hp : p.Inv) (hv : p.AllValid) (hm : m.WellFormed)
    (hfits : m.Fits) (h : ClassFile.encodeMethod m p = .ok w) : Writes p w method m := by
  have h1 := hp.utf8 m.name
  have h2 := h1.inv.utf8 m.desc
  have hv2 := h2.allValid (h1.allValid hv (by simpa using hm.name)) (by simpa using hm.desc)
  have hg := h1.grows.trans h2.grows
  have h3 := h2.inv.utf8 "Code"
  unfold ClassFile.encodeMethod at h
  generalize p.utf8 m.name = r1 at h h1 h2 h3 hv2 hg
  obtain ⟨i1, p1⟩ := r1
  dsimp only at h h2 h3 hv2 hg
  generalize p1.utf8 m.desc = r2 at h h2 h3 hv2 hg
  obtain ⟨i2, p2⟩ := r2
  dsimp only at h h3 hv2 hg
  generalize p2.utf8 "Code" = r3 at h h3
  obtain ⟨i3, p3⟩ := r3
  have hhead {q : Pool} (hq : p2.Within q) {f : Text → Text → Read Method} {u : Text}
      (hf : Reads (f m.name m.desc) u m) :
      Reads (name q >>= fun name => Read.name q >>= fun desc => f name desc)
        (Text.word i1 ++ (Text.word i2 ++ u)) m :=
    (reads_name h1 (hq.mono h2.grows)).bind ((reads_name h2 hq).bind hf)
  split at h
  · next habs =>
    cases h
    refine ⟨h2.inv, hv2, hg, fun hq => ?_⟩
    simp only [List.append_assoc]
    refine (reads_word m.access.toNat_lt).bind (hhead hq ?_)
    refine (reads_word (n := 0) (by decide)).last ?_
    obtain ⟨hs, hl, hc⟩ := hm.abstract habs
    have : m = { access := m.access, name := m.name, desc := m.desc } := by
      cases m
      simp_all
    rw [UInt16.ofNat_toNat, ← this]
    exact .pure m
  · split at h
    · cases h
    · next hle =>
      cases h
      obtain ⟨stack, hs⟩ := Int.eq_ofNat_of_zero_le hfits.maxStack
      obtain ⟨locals, hl⟩ := Int.eq_ofNat_of_zero_le hfits.maxLocals
      refine ⟨h3.inv, h3.allValid hv2 (by simpa using isValid_attributes.1), hg.trans h3.grows, fun hq => ?_⟩
      simp only [List.append_assoc]
      refine (reads_word m.access.toNat_lt).bind (hhead (hq.mono h3.grows) ?_)
      refine (reads_word (n := 1) (by decide)).bind ?_
      have hread := reads_methodAttributes (m := ⟨m.access, m.name, m.desc, 0, 0, []⟩)
        (reads_name h3 hq) (Text.length_bigEndian 4 (12 + m.code.length))
        (show stack < 65536 by omega) (show locals < 65536 by omega) hfits.code
      rw [UInt16.ofNat_toNat, hs, hl]
      convert hread using 1
      cases m
      simp_all

theorem writes_methods (hp : p.Inv) (hv : p.AllValid)
    (hms : ∀ m ∈ ms, m.WellFormed) (hfits : ∀ m ∈ ms, m.Fits)
    (h : ClassFile.encodeMethods done ms p = .ok w) : WritesAll p w done method ms := by
  induction ms generalizing p done with
  | nil =>
    cases h
    exact .nil hp hv
  | cons m ms ih =>
    rw [ClassFile.encodeMethods] at h
    split at h
    · cases h
    · next hm =>
      have hw := writes_method hp hv (hms m (.head _)) (hfits m (.head _)) hm
      exact .cons hw (ih hw.inv hw.valid (fun n hn => hms n (.tail _ hn))
        (fun n hn => hfits n (.tail _ hn)) h)

theorem writes_source (hp : p.Inv) (hv : p.AllValid)
    (hfile : Utf8.isValid file = true) :
    Writes p (ClassFile.encodeSource file p)
      (fun q => number 2 >>= classAttributes q []) file := by
  unfold ClassFile.encodeSource
  split
  · next hempty =>
    refine ⟨hp, hv, .rfl, fun _ => ?_⟩
    rw [List.isEmpty_iff.1 hempty]
    exact (reads_word (n := 0) (by decide)).last (.pure [])
  · have h1 := hp.utf8 "SourceFile"
    have h2 := h1.inv.utf8 file
    have hv1 := h1.allValid hv (by simpa using isValid_attributes.2)
    refine ⟨h2.inv, h2.allValid hv1 (by simpa using hfile), h1.grows.trans h2.grows, fun hq => ?_⟩
    simp only [List.append_assoc]
    refine (reads_word (n := 1) (by decide)).bind ?_
    refine (reads_name h1 (hq.mono h2.grows)).bind ((reads_number 4 (n := 2) (by decide)).bind ?_)
    rw [if_pos ⟨rfl, rfl⟩]
    exact (reads_name h2 hq).last (.pure file)

end Read

end Classwright
