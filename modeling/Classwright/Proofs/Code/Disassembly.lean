import Classwright.Proofs.ClassFile.Listing
import Classwright.Proofs.Code.Emitted

/-!
The assembler and the listing of code agree. An instruction takes as many bytes as its size says
(`Instr.length_encode`), the listing reads it from its bytes whatever follows (`Listing.first_encode`),
and so the listing of assembled code has a line for each instruction, at its offset
(`Code.listing_of_assemble`).
-/

namespace Classwright

theorem Text.ofInt_natCast (n : Nat) : Text.ofInt n = Text.ofNat n := by
  rw [Text.ofInt, if_neg (by omega), Int.natAbs_natCast]

/-! ### Instructions in words -/

/-- The operand of an instruction in words, after a blank; `target` gives the offsets of labels. -/
def Operand.words? (target : Label → Option Nat) : Operand → Option Text
  | .plain => some []
  | .slot n => some (" " ++ Text.ofInt n)
  | .increment n by_ => some (" " ++ Text.ofInt n ++ " " ++ Text.ofInt by_)
  | .immediate v => some (" " ++ Text.ofInt v)
  | .const v => v.map fun x => " " ++ x.words
  | .member r _ _ => some (" " ++ (r.cls ++ "." ++ (r.name ++ ":" ++ r.desc)))
  | .cls name => some (" " ++ name)
  | .label l => (target l).map fun n => " " ++ Text.ofNat n

/-- A line shows an instruction: the name of its opcode and its operand. The two forms of loading a
constant of one slot count as one. -/
def Instr.Shows (target : Label → Option Nat) (i : Instr) (line : Text) : Prop :=
  ∃ name words, (name = i.op.name ∨ i.op = .ldc ∧ name = Opcode.ldcW.name) ∧
    i.operand.words? target = some words ∧ line = name ++ words

namespace Instr

/-- An instruction takes as many bytes as its size says. -/
theorem length_encode (i : Instr) (index : Nat) (distance : Int) :
    (i.encode index distance).length = i.size index := by
  unfold encode size
  cases i.operand with
  | const v =>
    dsimp only
    by_cases h : i.op = .ldc2W
    · simp [h]
    · rw [if_neg h]
      split <;> simp_all
  | slot n =>
    dsimp only
    split
    · rfl
    · split <;> simp
  | increment n by_ | immediate v | member r pop push =>
    dsimp only
    split <;> simp
  | plain | cls name | label l => simp

/-- The index of an instruction leads to what it refers to. -/
def Interned (i : Instr) (q : Pool) (index : Nat) : Prop :=
  match i.operand with
  | .const v => ∃ x, v = some x ∧ Pool.IsLiteral x q index
  | .member r _ _ => ∃ entry, (entry = .field ∨ entry = .method ∨ entry = .interfaceMethod) ∧
      Pool.IsMember entry r.cls r.name r.desc q index
  | .cls name => Pool.IsClass name q index
  | _ => True

end Instr

namespace Opcode

/-- Opcodes with names are neither short forms nor the prefix. -/
theorem shortForm?_of_info (h : op.info?.isSome = true) :
    Listing.shortForm? op = none ∧ op.code ≠ wide.code := by
  have htable : ∀ i ∈ table, Listing.shortForm? i.op = none ∧ i.op.code ≠ wide.code := by
    decide +kernel
  obtain ⟨i, hi : table.find? (·.op == op) = some i⟩ := Option.isSome_iff_exists.1 h
  have hop : (i.op == op) = true := List.find?_some (p := fun x : Info => x.op == op) hi
  rw [← eq_of_beq hop]
  exact htable i (List.mem_of_find?_eq_some hi)

/-- A short form stands for the long one with its variable. -/
theorem shortForm?_shortForm (op : Opcode) : op.shape = .slot → ∀ n < 4,
    Listing.shortForm? ⟨Instr.shortForm op (n : Nat)⟩ = some (op, n) ∧
      Instr.shortForm op (n : Nat) ≠ wide.code :=
  forall_of_lt (P := fun op => op.shape = .slot → ∀ n < 4,
    Listing.shortForm? ⟨Instr.shortForm op (n : Nat)⟩ = some (op, n) ∧
      Instr.shortForm op (n : Nat) ≠ wide.code) (by decide +kernel) op

end Opcode

namespace Listing

variable {q : Pool} {op : Opcode} {offset n : Nat} {t words : Text}

theorem instr_of_operand? (hinfo : op.info?.isSome = true)
    (h : operand? q offset wide op t = some (words, n)) :
    instr q offset wide op t = .ok (op.name ++ words, n) := by
  rw [instr, (Opcode.shortForm?_of_info hinfo).1, h]
  dsimp only
  rw [if_neg (by simp [Option.isSome_iff_ne_none.1 hinfo])]

theorem first_of_operand? (hinfo : op.info?.isSome = true)
    (h : operand? q offset false op t = some (words, n)) :
    first q offset op.code t = .ok (op.name ++ words, n) := by
  unfold first
  rw [if_neg (Opcode.shortForm?_of_info hinfo).2]
  exact instr_of_operand? hinfo h

theorem first_wide_of_operand? (hinfo : op.info?.isSome = true)
    (h : operand? q offset true op t = some (words, n)) :
    first q offset Opcode.wide.code (op.code :: t) = .ok (op.name ++ words, n + 1) := by
  unfold first
  rw [if_pos rfl]
  dsimp only
  rw [instr_of_operand? hinfo h]
  rfl

theorem ofBigEndian_byte (i : Int) : Text.ofBigEndian [Instr.byte i] = (i % 256).toNat := by
  have : (Instr.byte i).toNat = (i % 256).toNat := by
    rw [Instr.byte, UInt8.toNat_ofNat']
    omega
  simp [Text.ofBigEndian, this]

theorem signed_byte (h0 : -128 ≤ v) (h1 : v ≤ 127) :
    Text.signed 8 (Text.ofBigEndian [Instr.byte v]) = v := by
  rw [ofBigEndian_byte]
  exact Text.signed_emod 8 (by omega) (by omega)

theorem signed_word (h0 : -32768 ≤ v) (h1 : v ≤ 32767) :
    Text.signed 16 (Text.ofBigEndian (Text.word v)) = v := by
  rw [Text.ofBigEndian_word]
  exact Text.signed_emod 16 (by omega) (by omega)

theorem split?_word (i : Int) (rest : Text) :
    Text.split? [] 2 (Text.word i ++ rest) = some (Text.word i, rest) := by
  have := Text.split?_nil_append (Text.word i) rest
  rwa [Text.length_word] at this

section
variable (q : Pool) (offset : Nat) (rest : Text)

theorem operand?_plain (h : op.shape = .plain) :
    operand? q offset false op rest = some ([], 0) := by
  simp [operand?, h, Text.split?]

theorem operand?_slot (h : op.shape = .slot) (h0 : 0 ≤ k) (h1 : k ≤ 255) :
    operand? q offset false op (Instr.byte k :: rest) = some (" " ++ Text.ofInt k, 1) := by
  obtain ⟨m, rfl⟩ := Int.eq_ofNat_of_zero_le h0
  have hm : ((m : Int) % 256).toNat = m := by omega
  simp [operand?, h, Text.split?, ofBigEndian_byte, Text.ofInt_natCast, hm]

theorem operand?_slot_wide (h : op.shape = .slot) (h0 : 0 ≤ k) (h1 : k ≤ 65535) :
    operand? q offset true op (Text.word k ++ rest) = some (" " ++ Text.ofInt k, 2) := by
  obtain ⟨m, rfl⟩ := Int.eq_ofNat_of_zero_le h0
  simp [operand?, h, split?_word, Text.ofBigEndian_word_natCast (show m < 65536 by omega),
    Text.ofInt_natCast]

theorem operand?_increment (h : Instr.isNarrow k v = true) (h0 : 0 ≤ k) :
    operand? q offset false .iinc (Instr.byte k :: Instr.byte v :: rest) =
      some (" " ++ Text.ofInt k ++ " " ++ Text.ofInt v, 2) := by
  obtain ⟨m, rfl⟩ := Int.eq_ofNat_of_zero_le h0
  simp only [Instr.isNarrow, Bool.and_eq_true, decide_eq_true_eq] at h
  have hm : ((m : Int) % 256).toNat = m := by omega
  have hshape : Opcode.iinc.shape = .increment := by decide
  simp [operand?, hshape, Text.split?, ofBigEndian_byte m, Text.ofInt_natCast, hm,
    signed_byte h.1.2 h.2]

theorem operand?_increment_wide (h0 : 0 ≤ k) (h1 : k ≤ 65535) (h2 : -32768 ≤ v)
    (h3 : v ≤ 32767) :
    operand? q offset true .iinc (Text.word k ++ Text.word v ++ rest) =
      some (" " ++ Text.ofInt k ++ " " ++ Text.ofInt v, 4) := by
  obtain ⟨m, rfl⟩ := Int.eq_ofNat_of_zero_le h0
  have hshape : Opcode.iinc.shape = .increment := by decide
  have hsplit : Text.split? [] 4 (Text.word m ++ (Text.word v ++ rest)) =
      some (Text.word m ++ Text.word v, rest) := by
    simpa using Text.split?_nil_append (Text.word m ++ Text.word v) rest
  have hdrop : (Text.word m ++ Text.word v).drop 2 = Text.word v :=
    List.drop_left' (Text.length_word m)
  have hm := Text.ofBigEndian_word_natCast (show m < 65536 by omega)
  simp [operand?, hshape, hsplit, hdrop, hm, Text.ofInt_natCast, signed_word h2 h3]

theorem operand?_bipush (h0 : -128 ≤ v) (h1 : v ≤ 127) :
    operand? q offset false .bipush (Instr.byte v :: rest) = some (" " ++ Text.ofInt v, 1) := by
  have hshape : Opcode.bipush.shape = .immediate := by decide
  simp [operand?, hshape, Text.split?, signed_byte h0 h1]

theorem operand?_sipush (h0 : -32768 ≤ v) (h1 : v ≤ 32767) :
    operand? q offset false .sipush (Text.word v ++ rest) = some (" " ++ Text.ofInt v, 2) := by
  have hshape : Opcode.sipush.shape = .immediate := by decide
  simp +decide [operand?, hshape, split?_word, signed_word h0 h1]

theorem operand?_ldc {index : Nat} (h : index ≤ 255) :
    operand? q offset false .ldc (Instr.byte index :: rest) = some (" " ++ q.describe index, 1) := by
  have hshape : Opcode.ldc.shape = .const := by decide
  have hm : ((index : Int) % 256).toNat = index := by omega
  simp [operand?, hshape, Text.split?, ofBigEndian_byte, hm]

theorem operand?_const (hop : op = .ldcW ∨ op = .ldc2W) {index : Nat} (h : index < 65536) :
    operand? q offset false op (Text.word index ++ rest) = some (" " ++ q.describe index, 2) := by
  have hshape : op.shape = .const ∧ op ≠ .ldc := by rcases hop with rfl | rfl <;> decide
  simp [operand?, hshape, split?_word, Text.ofBigEndian_word_natCast h]

theorem operand?_cls (hop : op.shape = .cls) {index : Nat} (h : index < 65536) :
    operand? q offset false op (Text.word index ++ rest) = some (" " ++ q.describe index, 2) := by
  simp [operand?, hop, split?_word, Text.ofBigEndian_word_natCast h]

theorem operand?_member (hop : op.shape = .member) (hne : op ≠ .invokeinterface) {index : Nat}
    (h : index < 65536) :
    operand? q offset false op (Text.word index ++ rest) = some (" " ++ q.describe index, 2) := by
  have htake : (Text.word index).take 2 = Text.word index := by simp
  simp [operand?, hop, hne, split?_word, htake, Text.ofBigEndian_word_natCast h]

theorem operand?_invokeinterface {index : Nat} (h : index < 65536) (b b' : UInt8) :
    operand? q offset false .invokeinterface (Text.word index ++ [b, b'] ++ rest) =
      some (" " ++ q.describe index, 4) := by
  have hshape : Opcode.invokeinterface.shape = .member := by decide
  have hsplit : Text.split? [] 4 (Text.word index ++ b :: b' :: rest) =
      some (Text.word index ++ [b, b'], rest) := by
    simpa using Text.split?_nil_append (Text.word index ++ [b, b']) rest
  simp [operand?, hshape, hsplit, Text.ofBigEndian_word_natCast h]

theorem operand?_label (hop : op.shape = .label) (h0 : -32768 ≤ d) (h1 : d ≤ 32767) :
    operand? q offset false op (Text.word d ++ rest) = some (" " ++ Text.ofInt (offset + d), 2) := by
  simp [operand?, hop, split?_word, signed_word h0 h1]

end

/-- The bytes of an instruction are listed as the instruction, whatever follows. -/
theorem first_encode {i : Instr} (hi : i.Fits) (hq : q.Inv) (hindex : i.Interned q index)
    (hlt : index < 65536)
    (htarget : ∀ l, i.operand = .label l → -32768 ≤ distance ∧ distance ≤ 32767 ∧
      ∃ k : Nat, target l = some k ∧ (k : Int) = offset + distance) :
    ∃ b bs line, i.encode index distance = b :: bs ∧
      (∀ rest, first q offset b (bs ++ rest) = .ok (line, bs.length)) ∧ i.Shows target line := by
  obtain ⟨op, x⟩ := i
  obtain ⟨hinfo, hfits⟩ := hi
  cases x with
  | plain =>
    exact ⟨_, _, _, rfl, fun rest => first_of_operand? hinfo (operand?_plain q offset rest hfits),
      _, _, .inl rfl, rfl, rfl⟩
  | slot n =>
    obtain ⟨hshape, h0, h1⟩ := hfits
    simp only [Instr.encode]
    split
    · next h3 =>
      obtain ⟨m, rfl⟩ := Int.eq_ofNat_of_zero_le h0
      obtain ⟨hshort, hwide⟩ := op.shortForm?_shortForm hshape m (by omega)
      refine ⟨_, _, _, rfl, fun rest => ?_, _, _, .inl rfl, rfl, rfl⟩
      unfold first
      rw [if_neg hwide, instr, hshort]
      simp [Text.ofInt_natCast]
    · split
      · next h255 =>
        exact ⟨_, _, _, rfl, fun rest => first_of_operand? hinfo (operand?_slot q offset rest hshape h0 h255),
          _, _, .inl rfl, rfl, rfl⟩
      · exact ⟨_, _, _, rfl, fun rest =>
          first_wide_of_operand? hinfo (operand?_slot_wide q offset rest hshape h0 h1),
          _, _, .inl rfl, rfl, rfl⟩
  | increment n v =>
    obtain ⟨rfl, h0, h1, h2, h3⟩ := hfits
    simp only [Instr.encode]
    split
    · next hn =>
      exact ⟨_, _, _, rfl, fun rest => first_of_operand? hinfo (operand?_increment q offset rest hn h0),
        _, _, .inl rfl, rfl, rfl⟩
    · exact ⟨_, _, _, rfl, fun rest =>
        first_wide_of_operand? hinfo (operand?_increment_wide q offset rest h0 h1 h2 h3),
        _, _, .inl rfl, rfl, rfl⟩
  | immediate v =>
    rcases hfits with ⟨rfl, h0, h1⟩ | ⟨rfl, h0, h1⟩
    · exact ⟨_, _, _, rfl, fun rest => first_of_operand? hinfo (operand?_bipush q offset rest h0 h1),
        _, _, .inl rfl, rfl, rfl⟩
    · exact ⟨_, _, _, rfl, fun rest => first_of_operand? hinfo (operand?_sipush q offset rest h0 h1),
        _, _, .inl rfl, rfl, rfl⟩
  | const v =>
    obtain ⟨x, rfl, hx⟩ := hindex
    have hwords := Pool.describe_literal hx
    obtain ⟨rfl | rfl, -⟩ := hfits
    · simp only [Instr.encode]
      rw [if_neg (by decide)]
      split
      · next h255 =>
        have hfirst rest := first_of_operand? hinfo (operand?_ldc q offset rest h255)
        simp only [hwords] at hfirst
        exact ⟨_, _, _, rfl, hfirst, _, _, .inl rfl, rfl, rfl⟩
      · have hfirst rest := first_of_operand? (by decide) (operand?_const q offset rest (.inl rfl) hlt)
        simp only [hwords] at hfirst
        exact ⟨_, _, _, rfl, hfirst, _, _, .inr ⟨rfl, rfl⟩, rfl, rfl⟩
    · have hfirst rest := first_of_operand? hinfo (operand?_const q offset rest (.inr rfl) hlt)
      simp only [hwords] at hfirst
      exact ⟨_, _, _, rfl, hfirst, _, _, .inl rfl, rfl, rfl⟩
  | member r pop push =>
    obtain ⟨entry, hentry, hr⟩ := hindex
    have hwords := hq.describe_member hentry hr
    simp only [Instr.encode]
    split
    · next hop =>
      subst hop
      have hfirst rest := first_of_operand? hinfo
        (operand?_invokeinterface q offset rest hlt (Instr.byte pop) 0)
      simp only [hwords] at hfirst
      exact ⟨_, _, _, rfl, hfirst, _, _, .inl rfl, rfl, rfl⟩
    · next hop =>
      have hfirst rest := first_of_operand? hinfo (operand?_member q offset rest hfits hop hlt)
      simp only [hwords] at hfirst
      exact ⟨_, _, _, rfl, hfirst, _, _, .inl rfl, rfl, rfl⟩
  | cls name =>
    have hfirst rest := first_of_operand? hinfo (operand?_cls q offset rest hfits hlt)
    simp only [hq.describe_cls hindex] at hfirst
    exact ⟨_, _, _, rfl, hfirst, _, _, .inl rfl, rfl, rfl⟩
  | label l =>
    obtain ⟨h0, h1, k, hk, hsum⟩ := htarget l rfl
    have hfirst rest := first_of_operand? hinfo (operand?_label q offset rest hfits h0 h1)
    simp only [← hsum, Text.ofInt_natCast] at hfirst
    exact ⟨_, _, _, rfl, hfirst, _, _, .inl rfl, by rw [Operand.words?, hk]; rfl, rfl⟩

end Listing

/-! ### Places -/

namespace Instr

theorem Interned.mono {i : Instr} (h : p.Grows q)
    (hi : i.Interned p index) : i.Interned q index := by
  unfold Interned at hi ⊢
  split at hi
  · obtain ⟨x, hx, hi⟩ := hi
    exact ⟨x, hx, hi.mono h⟩
  · obtain ⟨entry, he, hi⟩ := hi
    exact ⟨entry, he, hi.mono h⟩
  · exact hi.mono h
  · trivial

/-- Looking for the place of an instruction that fits finds one. -/
theorem Fits.intern {i : Instr} (hi : i.Fits) (hp : p.Inv) :
    ∃ index q, i.intern p = (some index, q) ∧ q.Inv ∧ p.Grows q ∧ index < 65536 ∧
      (q.overflow = false → i.Interned q index) := by
  have hgives {r : Nat × Pool} {ts : List Text} {asked : Pool → Nat → Prop} (h : p.Gives r ts asked)
      (heq : i.intern p = r.map some id) (himp : ∀ {q k}, asked q k → i.Interned q k) :
      ∃ index q, i.intern p = (some index, q) ∧ q.Inv ∧ p.Grows q ∧ index < 65536 ∧
        (q.overflow = false → i.Interned q index) := by
    have hlt := h.lt_size
    have hle := h.inv.size_le
    rw [Pool.maxSize] at hle
    exact ⟨r.1, r.2, heq, h.inv, h.grows, by omega, fun ho => himp (h.found ho)⟩
  obtain ⟨op, x⟩ := i
  cases x with
  | const v =>
    obtain ⟨x, rfl⟩ := Option.isSome_iff_exists.1 hi.operand.2
    exact hgives (hp.literal x) rfl fun h => ⟨x, rfl, h⟩
  | member r pop push =>
    by_cases hf : Opcode.between .getstatic .putfield op = true
    · exact hgives (hp.field r.cls r.name r.desc) (by simp [Instr.intern, hf])
        fun h => ⟨.field, .inl rfl, h⟩
    · by_cases hint : op = .invokeinterface ∨ r.isInterface = true
      · exact hgives (hp.interfaceMethod r.cls r.name r.desc) (by simp [Instr.intern, hf, hint])
          fun h => ⟨.interfaceMethod, .inr (.inr rfl), h⟩
      · exact hgives (hp.method r.cls r.name r.desc) (by simp [Instr.intern, hf, hint])
          fun h => ⟨.method, .inr (.inl rfl), h⟩
  | cls name => exact hgives (hp.cls name) rfl fun h => h
  | _ => exact ⟨0, p, rfl, hp, .rfl, by decide, fun _ => trivial⟩

end Instr

namespace Code

/-- Instructions stand one after the other, from one offset to another. -/
inductive Offsets : Nat → List Placed → Nat → Prop
  | nil : Offsets n [] n
  | cons {x : Placed} : Offsets (x.offset + x.instr.size x.index) xs m → Offsets x.offset (x :: xs) m

/-- An instruction that fits has its place: an index that leads to what it refers to. -/
structure Placed.Holds (q : Pool) (x : Placed) : Prop where
  fits : x.instr.Fits
  index_lt : x.index < 65536
  interned : q.overflow = false → x.instr.Interned q x.index

theorem Placed.Holds.mono {p : Pool} {x : Placed} (h : p.Grows q) (hx : x.Holds p) : x.Holds q :=
  ⟨hx.fits, hx.index_lt, fun ho => (hx.interned (h.not_overflow ho)).mono h⟩

/-- Instructions that fit get places one after the other. -/
theorem place_eq {is : List Instr} (his : ∀ i ∈ is, i.Fits) (hp : p.Inv)
    (done : Array Placed) (offset : Nat) :
    ∃ xs total q, place done offset is p = (.ok ((done.toList ++ xs).toArray, total), q) ∧ q.Inv ∧
      p.Grows q ∧ xs.map (·.instr) = is ∧ (∀ x ∈ xs, x.Holds q) ∧ Offsets offset xs total := by
  induction is generalizing p done offset with
  | nil => exact ⟨[], offset, p, by simp [place], hp, .rfl, rfl, nofun, .nil⟩
  | cons i is ih =>
    have hi := his i (.head _)
    obtain ⟨index, q, hintern, hq, hg, hlt, hfound⟩ := hi.intern hp
    obtain ⟨xs, total, r, hplace, hr, hgr, rfl, hxs, hoff⟩ :=
      ih (fun j hj => his j (.tail _ hj)) hq (done.push ⟨i, offset, index⟩) (offset + i.size index)
    have hx : Placed.Holds r ⟨i, offset, index⟩ := .mono hgr ⟨hi, hlt, hfound⟩
    refine ⟨⟨i, offset, index⟩ :: xs, total, r, ?_, hr, hg.trans hgr, rfl, ?_,
      .cons (x := ⟨i, offset, index⟩) hoff⟩
    · rw [place, hintern]
      dsimp only
      rw [hplace]
      simp
    · rintro x (_ | ⟨_, hmem⟩)
      · exact hx
      · exact hxs x hmem

/-- The offsets are those of the chunks that the instructions take. -/
theorem Offsets.offset_eq (h : Offsets n xs m) {chunks : List Text}
    (hs : List.Forall₂ (fun x t => t.length = x.instr.size x.index) xs chunks) (k : Nat) :
    (xs[k]?.map (·.offset)).getD m = n + (chunks.take k).flatten.length := by
  induction h generalizing chunks k with
  | nil =>
    cases hs
    simp
  | @cons xs m x h ih =>
    cases hs with
    | @cons _ t _ ts ht hts =>
    cases k with
    | zero => simp
    | succ k =>
      have := ih hts k
      simp only [List.getElem?_cons_succ, List.take_succ_cons, List.flatten_cons, List.length_append]
      omega

/-- A placed instruction takes as many bytes as its size says, and these are listed as it. -/
def Placed.Listed (q : Pool) (target : Label → Option Nat) (x : Placed) (t : Text) : Prop :=
  t.length = x.instr.size x.index ∧ ∃ b bs line, t = b :: bs ∧
    (∀ rest, Listing.first q x.offset b (bs ++ rest) = .ok (line, bs.length)) ∧
    x.instr.Shows target line

/-- The listing walks from instruction to instruction. -/
theorem Offsets.lines_flatten (h : Offsets n xs m)
    (hs : List.Forall₂ (Placed.Listed q target) xs chunks) (done : List (Nat × Text)) :
    ∃ ls, Listing.lines q done n chunks.flatten = .ok (done.reverse ++ ls) ∧
      List.Forall₂ (fun x l => l.1 = x.offset ∧ x.instr.Shows target l.2) xs ls := by
  induction h generalizing chunks done with
  | nil =>
    cases hs
    exact ⟨[], by rw [List.flatten_nil, Listing.lines, List.append_nil], .nil⟩
  | @cons xs m x h ih =>
    cases hs with
    | @cons _ t _ ts ht hts =>
    obtain ⟨hlen, b, bs, line, rfl, hfirst, hshows⟩ := ht
    obtain ⟨ls, hls, hshow⟩ := ih hts ((x.offset, line) :: done)
    refine ⟨(x.offset, line) :: ls, ?_, .cons ⟨rfl, hshows⟩ hshow⟩
    rw [List.flatten_cons, List.cons_append, Listing.lines, hfirst]
    dsimp only
    rw [List.drop_left, Nat.add_assoc, show bs.length + 1 = x.instr.size x.index from hlen, hls]
    simp

theorem length_of_encodePlaced {c : Code}
    (h : c.encodePlaced placed total k x = .ok t) : t.length = x.instr.size x.index := by
  unfold encodePlaced at h
  split at h
  · cases h
    exact x.instr.length_encode _ _
  · split at h
    · cases h
    · dsimp only at h
      split at h
      · cases h
      · cases h
        exact x.instr.length_encode _ _

/-- A placed instruction is listed; its jump leads to where the label stands. -/
theorem listed_of_encodePlaced {c : Code}
    (h : c.encodePlaced placed total k x = .ok t) (hi : x.instr.Fits) (hq : q.Inv)
    (hindex : x.instr.Interned q x.index) (hlt : x.index < 65536)
    (hstart : ∀ k, (placed[k]?.map (·.offset)).getD total = start k) :
    x.Listed q (fun l => (c.labelIndex? l).map start) t := by
  refine ⟨length_of_encodePlaced h, ?_⟩
  unfold encodePlaced at h
  split at h
  · next hnone =>
    cases h
    refine Listing.first_encode hi hq hindex hlt fun l hl => ?_
    rw [Instr.target?, hl] at hnone
    cases hnone
  · next l hsome =>
    split at h
    · cases h
    · next j hj =>
      dsimp only at h
      split at h
      · cases h
      · next hrange =>
        cases h
        refine Listing.first_encode hi hq hindex hlt fun l' hl => ?_
        rw [Instr.target?, hl] at hsome
        cases hsome
        refine ⟨by omega, by omega, start j, by rw [hj]; rfl, ?_⟩
        rw [hstart]
        omega

/-- What assembling does: every instruction gets its place and its bytes. -/
theorem assemble_eq_ok {c : Code} (hc : c.AllFit) (hp : p.Inv)
    (h : c.assemble p = (.ok t, q)) :
    ∃ xs total chunks, place #[] 0 c.instrs.toList p = (.ok (xs.toArray, total), q) ∧ q.Inv ∧
      xs.map (·.instr) = c.instrs.toList ∧ (∀ x ∈ xs, x.Holds q) ∧ Offsets 0 xs total ∧
      List.Forall₂ (fun x u => ∃ k, c.encodePlaced xs.toArray total k x = .ok u) xs chunks ∧
      t = chunks.flatten := by
  obtain ⟨xs, total, r, hplace, hr, -, hmap, hxs, hoff⟩ := place_eq hc hp #[] 0
  rw [List.nil_append] at hplace
  unfold assemble at h
  rw [hplace] at h
  split at h
  · cases h
  · dsimp only at h
    split at h
    · cases h
    · obtain ⟨hbytes, rfl⟩ := Prod.mk.injEq .. ▸ h
      obtain ⟨chunks, hchunks, rfl⟩ := map_eq_ok hbytes
      refine ⟨xs, total, chunks, hplace, hr, hmap, hxs, hoff, ?_, rfl⟩
      have hfst : List.Forall₂ (fun x u => ∃ k, c.encodePlaced xs.toArray total k x = .ok u)
          (xs.zipIdx.map Prod.fst) chunks :=
        List.forall₂_map_left_iff.2 ((mapM_eq_ok_iff.1 hchunks).imp fun y u hy => ⟨y.2, hy⟩)
      rwa [List.zipIdx_map_fst] at hfst

/-- A loop that stores a constant and counts down. -/
def sampleLoop : Code :=
  ((((Code.empty.newLabel.2.bind 0).long 7).store .long 300).inc 2 (-1)).jump .goto 0

theorem emitted_sampleLoop : sampleLoop.Emitted :=
  .jump 0 (by decide) (.inc (by decide) (by decide) (by decide) (by decide)
    (.store .long (by decide) (by decide) (.long 7 (.bind 0 (.newLabel .empty)))))

theorem assemble_sampleLoop : ∃ q, q.overflow = false ∧ sampleLoop.assemble .empty =
    (.ok [0x14, 0, 1, 0xc4, 0x37, 1, 44, 0x84, 2, 255, 0xa7, 255, 246], q) := by
  obtain ⟨q, hq, ho⟩ : ∃ q, Pool.empty.literal (.long 7) = (1, q) ∧ q.overflow = false := by
    simp [Pool.literal, Pool.add, Pool.empty, Pool.maxSize, PoolEntry.slots]
  refine ⟨q, ho, ?_⟩
  have hfault : sampleLoop.fault = none := by decide
  have hinstrs : sampleLoop.instrs.toList =
      [⟨.ldc2W, .const (some (.long 7))⟩, ⟨.lstore, .slot 300⟩, ⟨.iinc, .increment 2 (-1)⟩,
        ⟨.goto, .label 0⟩] := by decide
  have hplace : place #[] 0 sampleLoop.instrs.toList .empty =
      (.ok (#[⟨⟨.ldc2W, .const (some (.long 7))⟩, 0, 1⟩, ⟨⟨.lstore, .slot 300⟩, 3, 0⟩,
        ⟨⟨.iinc, .increment 2 (-1)⟩, 7, 0⟩, ⟨⟨.goto, .label 0⟩, 10, 0⟩], 13), q) := by
    simp +decide [hinstrs, place, Instr.intern, hq, Instr.size]
  unfold assemble
  rw [hfault, hplace]
  rfl

end Code

end Classwright
