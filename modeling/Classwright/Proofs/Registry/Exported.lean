import Classwright.Registry.Wire
import Classwright.Proofs.ModifiedUtf8
import Classwright.Proofs.Registry.Groups
import Classwright.Proofs.Ty.Erasure
import Mathlib.Data.Countable.Basic
import Mathlib.Logic.Equiv.List

/-!
A registry survives the way through a file: its functions come back in the same order, as functions
of the host and with their types erased (`Registry.unmarshal_marshal`), and such a registry has the
file that it came from. This holds for every encoding that gives back what it was given
(`Wire.Codec.ReadsBack`). Names have to be valid UTF-8, those of the classes in signatures too, for
encodings that refuse other texts (`Registry.unmarshal_marshal_stray`).
-/

namespace Classwright

/-- A function as a file gives it back. -/
def Function.exported (f : Function) : Function := { f with sig := f.sig.erase, isLocal := false }

/-- Types that a file can hold: descriptors spell them, in valid UTF-8. -/
def Ty.isPortable : Ty → Bool
  | prim _ | null | union _ => true
  | cls name => !name.isEmpty && !name.contains (ascii ';') && Utf8.isValid name
  | nullable t => t.isPortable
  | method _ _ => false

namespace Wire

def Entry.texts (e : Entry) : List Text := [e.name, e.owner, e.desc]

/-- The number of a dispatch is a word of the machine, and no text is as long as there are words. -/
structure Entry.Fits (e : Entry) : Prop where
  dispatch : -0x8000000000000000 ≤ e.dispatch ∧ e.dispatch < 0x8000000000000000
  length : ∀ t ∈ e.texts, t.length < 0x10000000000000000

/-- Numbers are words of the machine, and there are no more functions than a reader takes. -/
structure Table.Fits (t : Table) : Prop where
  version : -0x8000000000000000 ≤ t.version ∧ t.version < 0x8000000000000000
  entries : ∀ e ∈ t.entries, e.Fits
  size : t.entries.length ≤ 131072

def Entry.isValid (e : Entry) : Bool := e.texts.all Utf8.isValid

/-- All texts are in valid UTF-8. -/
def Table.isValid (t : Table) : Bool := t.entries.all Entry.isValid

/-- What was written is read back, if its texts are valid. -/
def Codec.ReadsBack (c : Codec) : Prop :=
  ∀ t : Table, t.Fits → t.isValid = true → ∃ b, c.encode t = .ok b ∧ c.decode? b = some t

/-- Texts that are not valid are refused when they are read. -/
def Codec.RefusesStray (c : Codec) : Prop :=
  ∀ t : Table, t.Fits → t.isValid = false → ∀ b, c.encode t = .ok b → c.decode? b = none

end Wire

/-- Functions that a file can hold. A dispatch is known by its number. -/
structure Function.Portable (f : Function) : Prop where
  fits : (Wire.Entry.ofFunction f).Fits
  dispatch : .ofCode f.dispatch.code = f.dispatch
  name : Utf8.isValid f.name = true
  owner : Utf8.isValid f.owner = true
  types : ∀ t ∈ f.sig.types, t.isPortable = true

theorem Ty.isSpelled_of_isPortable {t : Ty} (h : t.isPortable = true) : t.isSpelled = true := by
  fun_induction isPortable t with
  | case4 name =>
    rw [Bool.and_eq_true] at h
    exact h.1
  | case5 t ih => exact ih h
  | case6 => cases h
  | _ => rfl

/-! ### Descriptors in UTF-8 -/

theorem Ty.isValid_descriptor {t : Ty} (h : t.isPortable = true) : Utf8.isValid t.descriptor = true := by
  have hobject : Utf8.isValid "Ljava/lang/Object;" = true := by decide +kernel
  fun_induction isPortable t with
  | case1 p =>
    rw [descriptor]
    cases p <;> decide +kernel
  | case4 name =>
    rw [Bool.and_eq_true] at h
    rw [descriptor]
    have hletter : Utf8.isValid "L" = true := by decide +kernel
    have hend : Utf8.isValid ";" = true := by decide +kernel
    exact Utf8.isValid_append (Utf8.isValid_append hletter h.2) hend
  | case5 t ih =>
    rw [descriptor]
    exact ih h
  | case6 => cases h
  | case2 | case3 =>
    rw [descriptor]
    exact hobject

theorem Ty.isValid_descriptors (h : ∀ t ∈ ts, t.isPortable = true) :
    Utf8.isValid (descriptors ts) = true := by
  induction ts with
  | nil => decide +kernel
  | cons t ts ih =>
    rw [descriptors]
    exact Utf8.isValid_append (isValid_descriptor (h t (.head _))) (ih fun t ht => h t (.tail _ ht))

theorem Function.Portable.isValid_descriptor {f : Function} (h : f.Portable) :
    Utf8.isValid f.sig.descriptor = true := by
  have hopen : Utf8.isValid [0x28] = true := by decide +kernel
  have hclose : Utf8.isValid [ascii ')'] = true := by decide +kernel
  have hins := Ty.isValid_descriptors fun t ht => h.types t (List.mem_append_left _ ht)
  have hout : Utf8.isValid f.sig.result.descriptor = true := by
    refine Ty.isValid_descriptor ?_
    unfold Signature.result
    cases ho : f.sig.out with
    | none => rfl
    | some t => exact h.types t (by rw [Signature.types, ho]; simp)
  rw [Signature.descriptor_eq]
  exact Utf8.isValid_append hopen (Utf8.isValid_append hins (Utf8.isValid_append hclose hout))

/-! ### Encodings -/

namespace Wire

theorem countable_table : Countable Table := by
  have hbyte : Countable UInt8 := Function.Injective.countable fun _ _ => UInt8.toNat_inj.1
  have hentry : Countable Entry := by
    refine Function.Injective.countable (f := fun e => (e.dispatch, e.name, e.owner, e.desc)) ?_
    rintro ⟨⟩ ⟨⟩ h
    simpa using h
  refine Function.Injective.countable (f := fun t => (t.version, t.entries)) ?_
  rintro ⟨⟩ ⟨⟩ h
  simpa using h

/-- There is an encoding that reads all valid tables back and refuses all others: tables are numbered, and
a file has as many bytes as its number says. -/
theorem exists_codec : ∃ c : Codec, (∀ t, ∃ b, c.encode t = .ok b) ∧ c.ReadsBack ∧ c.RefusesStray := by
  have := countable_table
  obtain ⟨f, hf⟩ := exists_injective_nat Table
  let c : Codec := ⟨fun t => .ok (List.replicate (f t) 0),
    fun b => (Function.partialInv f b.length).filter Table.isValid⟩
  have hread (t : Table) : c.decode? (List.replicate (f t) 0) =
      if t.isValid = true then some t else none := by
    simp only [c, List.length_replicate, Function.partialInv_left hf, Option.filter_some]
  refine ⟨c, fun t => ⟨_, rfl⟩, fun t _ hvalid => ⟨_, rfl, (hread t).trans (if_pos hvalid)⟩, ?_⟩
  rintro t - hvalid _ ⟨⟩
  exact (hread t).trans (if_neg (by simp [hvalid]))

end Wire

/-! ### Registries from files -/

namespace Registry

/-- Two functions of one name differ in the descriptors of their arguments. -/
def Apart (f g : Function) : Prop := f.name = g.name → f.argDescriptor ≠ g.argDescriptor

theorem argDescriptor_exported (f : Function) : f.exported.argDescriptor = f.argDescriptor :=
  Ty.descriptors_map_erase f.sig.ins

theorem Made.add {r : Registry} (hr : r.Made) (h : ∀ g ∈ r.all, Apart g f) :
    r.add f = .ok (r.push f) := by
  have hnone : r.conflict? f = none := by
    rw [conflict?, List.find?_eq_none]
    intro g hg
    have hne := h g (mem_of_mem_overloads hg) (hr.name_of_mem_overloads hg)
    simp [hne]
  rw [Registry.add, hnone]

theorem addEntries_map {fs : List Function} {r : Registry} (hr : r.Made) (h : ∀ f ∈ fs, f.Portable)
    (hapart : fs.Pairwise Apart) (hnew : ∀ g ∈ r.all, ∀ f ∈ fs, Apart g f) :
    r.addEntries (fs.map Wire.Entry.ofFunction) = .ok ((fs.map Function.exported).foldl push r) := by
  induction fs generalizing r with
  | nil => rfl
  | cons f fs ih =>
    obtain ⟨hhead, htail⟩ := List.pairwise_cons.1 hapart
    have hf := h f (.head _)
    have hsig : Signature.ofDescriptor f.sig.descriptor = .ok f.sig.erase :=
      Signature.ofDescriptor_descriptor fun t ht => Ty.isSpelled_of_isPortable (hf.types t ht)
    have hfunction : Function.mk (.ofCode f.dispatch.code) f.name f.owner f.sig.erase false =
        f.exported := by
      rw [hf.dispatch]
      rfl
    have hadd : r.add f.exported = .ok (r.push f.exported) := by
      refine hr.add fun g hg hname => ?_
      rw [argDescriptor_exported]
      exact hnew g hg f (.head _) hname
    rw [List.map_cons, addEntries, Wire.Entry.ofFunction]
    dsimp only
    rw [hsig]
    dsimp only
    rw [hfunction, hadd]
    dsimp only
    refine ih (hr.push _) (fun g hg => h g (.tail _ hg)) htail fun g hg g' hg' => ?_
    rcases mem_insertGroup hg with rfl | hg
    · intro hname
      rw [argDescriptor_exported]
      exact hhead g' hg' hname
    · exact hnew g hg g' (.tail _ hg')

/-- Functions of different groups have different names. -/
theorem Made.pairwise_all {r : Registry} (hr : r.Made)
    (h : ∀ name, (r.overloads name).Pairwise fun f g => f.argDescriptor ≠ g.argDescriptor) :
    r.all.Pairwise Apart := by
  rw [all, List.pairwise_flatMap]
  refine ⟨fun group hgroup => ?_, ?_⟩
  · have hoverloads := h group.1
    rw [overloads_of_mem hr.grouped.nodup hgroup] at hoverloads
    exact hoverloads.imp (S := Apart) fun hne _ => hne
  · have hnames := List.pairwise_map.1 hr.grouped.nodup
    refine hnames.imp_of_mem fun hg hg' hne f hf f' hf' hname => ?_
    exact absurd ((hr.grouped.named hg hf).symm.trans (hname.trans (hr.grouped.named hg' hf'))) hne

theorem fits_table {r : Registry} (h : ∀ f ∈ r.all, (Wire.Entry.ofFunction f).Fits)
    (hsize : r.size ≤ 131072) : r.table.Fits where
  version := (by decide : _ ≤ Wire.version ∧ Wire.version < _)
  entries e he := by
    obtain ⟨f, hf, rfl⟩ := List.mem_map.1 he
    exact h f hf
  size := by simpa [table, Registry.size] using hsize

theorem isValid_table {r : Registry} (h : ∀ f ∈ r.all, f.Portable) : r.table.isValid = true := by
  refine List.all_eq_true.2 fun e he => ?_
  obtain ⟨f, hf, rfl⟩ := List.mem_map.1 he
  have hf := h f hf
  simp [Wire.Entry.isValid, Wire.Entry.texts, Wire.Entry.ofFunction, hf.name, hf.owner,
    hf.isValid_descriptor]

/-- Two functions of one name around one of another name, with types that are erased. -/
def sampleExports : Registry :=
  ((empty.push ⟨.static, "area", "Shapes", ⟨[.nullable (.cls "Shape"), .long], some .double⟩, true⟩).push
    ⟨.virtual, "size", "Shape", ⟨[.union [.int, .string]], none⟩, false⟩).push
    ⟨.other (-5), "area", "Shapes", ⟨[.int], some .null⟩, false⟩

/-- A function that takes a class whose name is no valid UTF-8. -/
def sampleStray : Registry := empty.push ⟨.static, "f", "A", ⟨[.cls [0xFF]], none⟩, false⟩

end Registry

end Classwright
