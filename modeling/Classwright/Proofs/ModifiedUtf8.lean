import Classwright.Text.Modified

/-!
Text survives the form that class files give it. The pieces of a text join to the text again
(`Utf8.flatMap_bytes_pieces`), so a valid text is the UTF-8 form of its characters; units of sixteen
bits are read back from their bytes (`Modified.decodeUnits_encodeUnit`) and characters from their
units (`Modified.ofUnits_units`). Together a valid text is read back as it was written
(`Modified.decode_encode`). The other way round, the UTF-8 form of characters has them for its pieces
(`Utf8.pieces_ofChars`), so characters are told apart by what is written.
-/

namespace Classwright

theorem uint8_ofNat_eq (h : n = b.toNat) : UInt8.ofNat n = b := by
  rw [h, UInt8.ofNat_toNat]

theorem toNat_ofNat_of_lt (h : n < 256) : (UInt8.ofNat n).toNat = n := by
  rw [UInt8.toNat_ofNat', Nat.mod_eq_of_lt h]

namespace Utf8

/-! ### Pieces join to the text -/

theorem toNat_of_charIn? (h : charIn? lo hi code = some c) :
    lo ≤ code ∧ code < hi ∧ c.val.toNat = code := by
  unfold charIn? at h
  by_cases hc : lo ≤ code ∧ code < hi ∧ code.isValidChar
  · rw [dif_pos hc] at h
    cases h
    exact ⟨hc.1, hc.2.1, BitVec.toNat_ofNatLT _ _⟩
  · rw [dif_neg hc] at h
    cases h

theorem isContinuation_iff : isContinuation b = true ↔ 0x80 ≤ b.toNat ∧ b.toNat < 0xC0 := by
  simp [isContinuation, UInt8.le_iff_toNat_le, UInt8.lt_iff_toNat_lt]

theorem utf8EncodeChar_of_pair? (h : pair? b b1 = some c) :
    String.utf8EncodeChar c = [b, b1] := by
  unfold pair? at h
  split at h
  · next hb =>
    simp only [Bool.and_eq_true, decide_eq_true_eq, UInt8.le_iff_toNat_le, UInt8.lt_iff_toNat_lt,
      isContinuation_iff, UInt8.reduceToNat] at hb
    obtain ⟨lo, hi, hc⟩ := toNat_of_charIn? h
    simp only [String.utf8EncodeChar, hc]
    rw [if_neg (by omega), if_pos (by omega), uint8_ofNat_eq (b := b) (by omega),
      uint8_ofNat_eq (b := b1) (by omega)]
  · cases h

theorem utf8EncodeChar_of_triple? (h : triple? b b1 b2 = some c) :
    String.utf8EncodeChar c = [b, b1, b2] := by
  unfold triple? at h
  split at h
  · next hb =>
    simp only [Bool.and_eq_true, decide_eq_true_eq, UInt8.le_iff_toNat_le, UInt8.lt_iff_toNat_lt,
      isContinuation_iff, UInt8.reduceToNat] at hb
    obtain ⟨lo, hi, hc⟩ := toNat_of_charIn? h
    simp only [String.utf8EncodeChar, hc]
    rw [if_neg (by omega), if_neg (by omega), if_pos (by omega), uint8_ofNat_eq (b := b) (by omega),
      uint8_ofNat_eq (b := b1) (by omega), uint8_ofNat_eq (b := b2) (by omega)]
  · cases h

theorem utf8EncodeChar_of_quadruple?
    (h : quadruple? b b1 b2 b3 = some c) : String.utf8EncodeChar c = [b, b1, b2, b3] := by
  unfold quadruple? at h
  split at h
  · next hb =>
    simp only [Bool.and_eq_true, decide_eq_true_eq, UInt8.le_iff_toNat_le, UInt8.lt_iff_toNat_lt,
      isContinuation_iff, UInt8.reduceToNat] at hb
    obtain ⟨lo, hi, hc⟩ := toNat_of_charIn? h
    simp only [String.utf8EncodeChar, hc]
    rw [if_neg (by omega), if_neg (by omega), if_neg (by omega),
      uint8_ofNat_eq (b := b) (by omega), uint8_ofNat_eq (b := b1) (by omega),
      uint8_ofNat_eq (b := b2) (by omega), uint8_ofNat_eq (b := b3) (by omega)]
  · cases h

theorem utf8EncodeChar_ascii (h : b < 0x80) :
    String.utf8EncodeChar (Char.ofNat b.toNat) = [b] := by
  have hb : b.toNat < 0x80 := h
  have hv : b.toNat.isValidChar := .inl (by omega)
  have hc : (Char.ofNat b.toNat).val.toNat = b.toNat := by
    rw [Char.ofNat, dif_pos hv]
    exact BitVec.toNat_ofNatLT _ _
  simp only [String.utf8EncodeChar, hc]
  rw [if_pos (by omega), UInt8.ofNat_toNat]

/-- The bytes of the first piece are those that a text starts with. -/
theorem bytes_first (b : UInt8) (rest : Text) :
    (first b rest).1.bytes = b :: rest.take (first b rest).2 := by
  fun_cases first b rest with
  | case1 rest h => exact utf8EncodeChar_ascii h
  | case3 _ b1 rest1 c h => exact utf8EncodeChar_of_pair? h
  | case5 _ b1 _ b2 rest2 c h => exact utf8EncodeChar_of_triple? h
  | case7 _ b1 _ b2 _ b3 rest3 c h => exact utf8EncodeChar_of_quadruple? h
  | case2 | case4 | case6 | case8 => rfl

theorem flatMap_bytes_piecesOnto (acc : List Piece) (t : Text) :
    (piecesOnto acc t).flatMap Piece.bytes = acc.reverse.flatMap Piece.bytes ++ t := by
  fun_induction piecesOnto acc t with
  | case1 acc => simp
  | case2 acc b rest p n hfirst ih =>
    have hbytes := bytes_first b rest
    rw [hfirst] at hbytes
    rw [ih, List.reverse_cons, List.flatMap_append, List.flatMap_singleton, hbytes,
      List.append_assoc, List.cons_append, List.take_append_drop]

theorem flatMap_bytes_pieces (t : Text) : (pieces t).flatMap Piece.bytes = t :=
  flatMap_bytes_piecesOnto [] t

/-- A valid text is the UTF-8 form of its characters. -/
theorem ofChars_toChar_pieces (h : isValid t = true) :
    Text.ofChars ((pieces t).map Piece.toChar) = t := by
  have hchars : ∀ p ∈ pieces t, String.utf8EncodeChar p.toChar = p.bytes := by
    intro p hp
    have := List.all_eq_true.1 h p hp
    cases p with
    | char c => rfl
    | stray b => simp at this
  calc Text.ofChars ((pieces t).map Piece.toChar)
      = (pieces t).flatMap fun p => String.utf8EncodeChar p.toChar := by
        rw [Text.ofChars, List.flatMap_map]
    _ = (pieces t).flatMap Piece.bytes := by
        rw [List.flatMap_def, List.flatMap_def, List.map_congr_left hchars]
    _ = t := flatMap_bytes_pieces t

theorem piecesOnto_append (acc acc' : List Piece) (t : Text) :
    piecesOnto (acc ++ acc') t = acc'.reverse ++ piecesOnto acc t := by
  fun_induction piecesOnto acc t with
  | case1 acc => rw [piecesOnto, List.reverse_append]
  | case2 acc b rest p n hfirst ih =>
    rw [piecesOnto, hfirst]
    exact ih

/-- A character is read from its own bytes alone. -/
theorem first_append (t : Text)
    (h : first b rest = (.char c, n)) : n ≤ rest.length ∧ first b (rest ++ t) = (.char c, n) := by
  revert h
  fun_cases first b rest with
  | case1 rest hb =>
    intro h
    cases h
    exact ⟨Nat.zero_le _, by rw [first.eq_def, if_pos hb]⟩
  | case3 hb b1 rest1 c' hpair =>
    intro h
    cases h
    exact ⟨by simp, by simp only [List.cons_append, first.eq_def, if_neg hb, hpair]⟩
  | case5 hb b1 hpair b2 rest2 c' htriple =>
    intro h
    cases h
    exact ⟨by simp, by simp only [List.cons_append, first.eq_def, if_neg hb, hpair, htriple]⟩
  | case7 hb b1 hpair b2 htriple b3 rest3 c' hquadruple =>
    intro h
    cases h
    exact ⟨by simp, by
      simp only [List.cons_append, first.eq_def, if_neg hb, hpair, htriple, hquadruple]⟩
  | case2 | case4 | case6 | case8 => nofun

theorem isValid_iff : isValid t = true ↔ ∀ p ∈ pieces t, ∃ c, p = .char c := by
  rw [isValid, List.all_eq_true]
  refine forall₂_congr fun p _ => ?_
  cases p <;> simp

/-- Valid texts one after the other are a valid text. -/
theorem pieces_append (h : isValid s = true) (t : Text) :
    pieces (s ++ t) = pieces s ++ pieces t := by
  rw [isValid_iff] at h
  suffices hs : ∀ acc, (∀ p ∈ piecesOnto acc s, ∃ c, p = .char c) →
      piecesOnto acc (s ++ t) = piecesOnto acc s ++ pieces t from hs [] h
  clear h
  intro acc
  fun_induction piecesOnto acc s with
  | case1 acc => exact fun _ => piecesOnto_append [] acc t
  | case2 acc b rest p n hfirst ih =>
    intro hchars
    have hp : p ∈ piecesOnto (p :: acc) (rest.drop n) := by
      rw [show p :: acc = [] ++ (p :: acc) from rfl, piecesOnto_append]
      simp
    obtain ⟨c, rfl⟩ := hchars p hp
    obtain ⟨hle, hfirst'⟩ := first_append t hfirst
    rw [List.cons_append, piecesOnto, hfirst']
    dsimp only
    rw [List.drop_append_of_le_length hle, ih hchars]

theorem isValid_append (hs : isValid s = true) (ht : isValid t = true) :
    isValid (s ++ t) = true := by
  unfold isValid at hs ht ⊢
  rw [pieces_append hs, List.all_append, hs, ht]
  rfl

/-! ### The bytes of one character -/

theorem charIn?_eq_some (hc : c.val.toNat = code) (hlo : lo ≤ code)
    (hhi : code < hi) : charIn? lo hi code = some c := by
  subst hc
  unfold charIn?
  rw [dif_pos ⟨hlo, hhi, c.valid⟩]
  rfl

theorem isContinuation_ofNat (n : Nat) : isContinuation (UInt8.ofNat (n % 64 + 128)) = true := by
  rw [isContinuation_iff, toNat_ofNat_of_lt (by omega)]
  omega

theorem le_ofNat (hb : b.toNat = k) (hn : n < 256) :
    decide (b ≤ UInt8.ofNat n) = decide (k ≤ n) := by
  rw [decide_eq_decide, UInt8.le_iff_toNat_le, toNat_ofNat_of_lt hn, hb]

theorem ofNat_lt (hb : b.toNat = k) (hn : n < 256) :
    decide (UInt8.ofNat n < b) = decide (n < k) := by
  rw [decide_eq_decide, UInt8.lt_iff_toNat_lt, toNat_ofNat_of_lt hn, hb]

theorem pair?_of_char (hlo : 0x80 ≤ c.val.toNat) (hhi : c.val.toNat < 0x800) :
    pair? (UInt8.ofNat (c.val.toNat / 64 % 32 + 192)) (UInt8.ofNat (c.val.toNat % 64 + 128)) =
      some c := by
  rw [pair?, isContinuation_ofNat, le_ofNat (k := 0xC0) rfl (by omega),
    ofNat_lt (k := 0xE0) rfl (by omega), toNat_ofNat_of_lt (by omega), toNat_ofNat_of_lt (by omega),
    if_pos (by simp only [Bool.and_eq_true, decide_eq_true_eq, and_true]; omega)]
  exact charIn?_eq_some (by omega) (by omega) (by omega)

theorem pair?_of_le (b : UInt8) (h : 0xE0 ≤ n) (hn : n < 256) :
    pair? (UInt8.ofNat n) b = none := by
  rw [pair?, ofNat_lt (k := 0xE0) rfl hn, decide_eq_false (Nat.not_lt.2 h), Bool.and_false, Bool.false_and]
  rfl

theorem triple?_of_char (hlo : 0x800 ≤ c.val.toNat) (hhi : c.val.toNat < 0x10000) :
    triple? (UInt8.ofNat (c.val.toNat / 4096 % 16 + 224)) (UInt8.ofNat (c.val.toNat / 64 % 64 + 128))
      (UInt8.ofNat (c.val.toNat % 64 + 128)) = some c := by
  rw [triple?, isContinuation_ofNat, isContinuation_ofNat, le_ofNat (k := 0xE0) rfl (by omega),
    ofNat_lt (k := 0xF0) rfl (by omega), toNat_ofNat_of_lt (by omega), toNat_ofNat_of_lt (by omega),
    toNat_ofNat_of_lt (by omega),
    if_pos (by simp only [Bool.and_eq_true, decide_eq_true_eq, and_true]; omega)]
  exact charIn?_eq_some (by omega) (by omega) (by omega)

theorem triple?_of_le (b b' : UInt8) (h : 0xF0 ≤ n) (hn : n < 256) :
    triple? (UInt8.ofNat n) b b' = none := by
  rw [triple?, ofNat_lt (k := 0xF0) rfl hn, decide_eq_false (Nat.not_lt.2 h), Bool.and_false,
    Bool.false_and, Bool.false_and]
  rfl

theorem quadruple?_of_char (hlo : 0x10000 ≤ c.val.toNat) :
    quadruple? (UInt8.ofNat (c.val.toNat / 262144 % 8 + 240))
      (UInt8.ofNat (c.val.toNat / 4096 % 64 + 128)) (UInt8.ofNat (c.val.toNat / 64 % 64 + 128))
      (UInt8.ofNat (c.val.toNat % 64 + 128)) = some c := by
  have hhi : c.val.toNat < 0x110000 := by
    rcases c.valid with h | h
    · exact Nat.lt_trans h (by decide)
    · exact h.2
  rw [quadruple?, isContinuation_ofNat, isContinuation_ofNat, isContinuation_ofNat,
    le_ofNat (k := 0xF0) rfl (by omega), ofNat_lt (k := 0xF8) rfl (by omega),
    toNat_ofNat_of_lt (by omega), toNat_ofNat_of_lt (by omega),
    toNat_ofNat_of_lt (by omega), toNat_ofNat_of_lt (by omega),
    if_pos (by simp only [Bool.and_eq_true, decide_eq_true_eq, and_true]; omega)]
  exact charIn?_eq_some (by omega) (by omega) (by omega)

/-- The bytes of a character are read as that character. -/
theorem first_utf8EncodeChar (c : Char) : ∃ b rest, String.utf8EncodeChar c = b :: rest ∧
    first b rest = (.char c, rest.length) := by
  have hlead {n : Nat} (h : 0x80 ≤ n) (hn : n < 256) : ¬ UInt8.ofNat n < 0x80 := by
    rw [← decide_eq_false_iff_not, ofNat_lt (k := 0x80) rfl hn, decide_eq_false (by omega)]
  simp only [String.utf8EncodeChar]
  split
  · next h =>
    refine ⟨_, _, rfl, ?_⟩
    have hlow : UInt8.ofNat c.val.toNat < 0x80 := by
      apply of_decide_eq_true
      rw [ofNat_lt (k := 0x80) rfl (by omega)]
      exact decide_eq_true (by omega)
    rw [first, if_pos hlow, toNat_ofNat_of_lt (by omega), ← Char.toNat, Char.ofNat_toNat]
    rfl
  split
  · next h h' =>
    refine ⟨_, _, rfl, ?_⟩
    rw [first.eq_def, if_neg (hlead (by omega) (by omega))]
    dsimp only
    rw [pair?_of_char (by omega) (by omega)]
    rfl
  split
  · next h h' h'' =>
    refine ⟨_, _, rfl, ?_⟩
    rw [first.eq_def, if_neg (hlead (by omega) (by omega))]
    dsimp only
    rw [pair?_of_le _ (by omega) (by omega)]
    dsimp only
    rw [triple?_of_char (by omega) (by omega)]
    rfl
  · next h h' h'' =>
    refine ⟨_, _, rfl, ?_⟩
    rw [first.eq_def, if_neg (hlead (by omega) (by omega))]
    dsimp only
    rw [pair?_of_le _ (by omega) (by omega)]
    dsimp only
    rw [triple?_of_le _ _ (by omega) (by omega)]
    dsimp only
    rw [quadruple?_of_char (by omega)]
    rfl

theorem pieces_utf8EncodeChar (c : Char) : pieces (String.utf8EncodeChar c) = [.char c] := by
  obtain ⟨b, rest, hbytes, hfirst⟩ := first_utf8EncodeChar c
  rw [hbytes, pieces, piecesOnto, hfirst]
  dsimp only
  rw [List.drop_length, piecesOnto]
  rfl

theorem isValid_utf8EncodeChar (c : Char) : isValid (String.utf8EncodeChar c) = true := by
  rw [isValid, pieces_utf8EncodeChar]
  rfl

theorem pieces_nil : pieces [] = [] := by
  rw [pieces, piecesOnto]
  rfl

theorem pieces_ascii (h : ∀ b ∈ t, b < 0x80) :
    pieces t = t.map fun b => .char (Char.ofNat b.toNat) := by
  induction t with
  | nil => exact pieces_nil
  | cons b t ih =>
    have hb : [b] = String.utf8EncodeChar (Char.ofNat b.toNat) :=
      (utf8EncodeChar_ascii (h b (.head _))).symm
    calc pieces (b :: t) = pieces ([b] ++ t) := rfl
      _ = pieces [b] ++ pieces t := pieces_append (hb ▸ isValid_utf8EncodeChar _) t
      _ = [.char (Char.ofNat b.toNat)] ++ pieces t := by rw [hb, pieces_utf8EncodeChar]
      _ = _ := by rw [ih fun c hc => h c (.tail _ hc)]; rfl

theorem isValid_ascii (h : ∀ b ∈ t, b < 0x80) : isValid t = true := by
  rw [isValid, pieces_ascii h, List.all_map]
  exact List.all_eq_true.2 fun _ _ => rfl

/-- The UTF-8 form of characters has them for its pieces. -/
theorem pieces_ofChars (cs : List Char) : pieces (Text.ofChars cs) = cs.map .char := by
  induction cs with
  | nil => exact pieces_nil
  | cons c cs ih =>
    rw [Text.ofChars, List.flatMap_cons, pieces_append (isValid_utf8EncodeChar c),
      pieces_utf8EncodeChar, ← Text.ofChars, ih]
    rfl

theorem isValid_ofChars (cs : List Char) : isValid (Text.ofChars cs) = true := by
  rw [isValid, pieces_ofChars, List.all_map]
  exact List.all_eq_true.2 fun _ _ => rfl

end Utf8

namespace Modified

/-! ### Units -/

/-- The bytes of a unit are read as that unit, whatever follows. -/
theorem decodeUnits_encodeUnit (h : u < 0x10000) (acc : List Nat) (rest : Text) :
    decodeUnits acc (encodeUnit u ++ rest) = decodeUnits (u :: acc) rest := by
  unfold encodeUnit
  split
  · next hu =>
    subst hu
    rw [List.cons_append, List.cons_append, List.nil_append, decodeUnits.eq_def]
    rfl
  split
  · next hu =>
    have hlt : UInt8.ofNat u < 0x80 := by
      rw [UInt8.lt_iff_toNat_lt, toNat_ofNat_of_lt (by omega)]
      exact hu
    rw [List.cons_append, List.nil_append, decodeUnits.eq_def]
    simp only [if_pos hlt, toNat_ofNat_of_lt (by omega : u < 256)]
  split
  · next hu =>
    have hb : (UInt8.ofNat (0xC0 + u / 64)).toNat = 0xC0 + u / 64 := toNat_ofNat_of_lt (by omega)
    have hb1 : (UInt8.ofNat (0x80 + u % 64)).toNat = 0x80 + u % 64 := toNat_ofNat_of_lt (by omega)
    have hge : ¬ UInt8.ofNat (0xC0 + u / 64) < 0x80 := by
      rw [UInt8.lt_iff_toNat_lt, hb]
      exact Nat.not_lt.2 (Nat.le_trans (by decide) (Nat.le_add_right _ _))
    have hunit : pairUnit (UInt8.ofNat (0xC0 + u / 64)) (UInt8.ofNat (0x80 + u % 64)) = u := by
      rw [pairUnit, hb, hb1]
      omega
    rw [List.cons_append, List.cons_append, List.nil_append, decodeUnits.eq_def]
    simp only [if_neg hge]
    rw [if_pos (by omega), hunit]
  · next hu =>
    have hb : (UInt8.ofNat (0xE0 + u / 4096)).toNat = 0xE0 + u / 4096 := toNat_ofNat_of_lt (by omega)
    have hb1 : (UInt8.ofNat (0x80 + u / 64 % 64)).toNat = 0x80 + u / 64 % 64 :=
      toNat_ofNat_of_lt (by omega)
    have hb2 : (UInt8.ofNat (0x80 + u % 64)).toNat = 0x80 + u % 64 := toNat_ofNat_of_lt (by omega)
    have hge : ¬ UInt8.ofNat (0xE0 + u / 4096) < 0x80 := by
      rw [UInt8.lt_iff_toNat_lt, hb]
      exact Nat.not_lt.2 (Nat.le_trans (by decide) (Nat.le_add_right _ _))
    have hunit : tripleUnit (UInt8.ofNat (0xE0 + u / 4096)) (UInt8.ofNat (0x80 + u / 64 % 64))
        (UInt8.ofNat (0x80 + u % 64)) = u := by
      rw [tripleUnit, hb, hb1, hb2]
      omega
    rw [List.cons_append, List.cons_append, List.cons_append, List.nil_append, decodeUnits.eq_def]
    simp only [if_neg hge]
    rw [if_neg (by omega), if_pos (by omega), hunit]

theorem decodeUnits_flatMap_encodeUnit (h : ∀ u ∈ us, u < 0x10000)
    (acc : List Nat) : decodeUnits acc (us.flatMap encodeUnit) = acc.reverse ++ us := by
  induction us generalizing acc with
  | nil => simp [decodeUnits]
  | cons u us ih =>
    have hu : u < 0x10000 := h u (.head _)
    have hus : ∀ v ∈ us, v < 0x10000 := fun v hv => h v (.tail _ hv)
    rw [List.flatMap_cons, decodeUnits_encodeUnit hu, ih hus]
    simp

/-! ### Characters -/

theorem toNat_lt_of_char (c : Char) :
    c.toNat < 0xD800 ∨ 0xDFFF < c.toNat ∧ c.toNat < 0x110000 := c.valid

theorem units_lt (h : u ∈ units c) : u < 0x10000 := by
  have hc := toNat_lt_of_char c
  unfold units at h
  split at h
  · simp only [List.mem_singleton] at h
    omega
  · simp only [List.mem_cons, List.not_mem_nil, or_false] at h
    omega

theorem charOf_toNat (h : c.toNat < 0x10000) : charOf c.toNat = c := by
  have hc := toNat_lt_of_char c
  have hsur : (isHigh c.toNat || isLow c.toNat) = false := by
    simp only [isHigh, isLow, Bool.or_eq_false_iff, Bool.and_eq_false_iff, decide_eq_false_iff_not]
    omega
  rw [charOf, hsur]
  exact Char.ofNat_toNat c

/-- The units of a character are read as that character, whatever follows. -/
theorem ofUnits_units (c : Char) (acc : List Char) (us : List Nat) :
    ofUnits acc (units c ++ us) = ofUnits (c :: acc) us := by
  have hc := toNat_lt_of_char c
  unfold units
  split
  · next h =>
    have hhigh : isHigh c.toNat = false := by
      simp only [isHigh, Bool.and_eq_false_iff, decide_eq_false_iff_not]
      omega
    cases us with
    | nil =>
      rw [List.append_nil, ofUnits.eq_def acc]
      simp only [charOf_toNat h]
    | cons v us =>
      rw [List.cons_append, List.nil_append, ofUnits, hhigh, charOf_toNat h]
      rfl
  · next h =>
    have hhigh : isHigh (0xD800 + (c.toNat - 0x10000) / 0x400) = true := by
      simp only [isHigh, Bool.and_eq_true, decide_eq_true_eq]
      omega
    have hlow : isLow (0xDC00 + (c.toNat - 0x10000) % 0x400) = true := by
      simp only [isLow, Bool.and_eq_true, decide_eq_true_eq]
      omega
    have hcode : 0x10000 + (0xD800 + (c.toNat - 0x10000) / 0x400 - 0xD800) * 0x400
        + (0xDC00 + (c.toNat - 0x10000) % 0x400 - 0xDC00) = c.toNat := by
      omega
    rw [List.cons_append, List.cons_append, List.nil_append, ofUnits, hhigh, hlow, hcode,
      Char.ofNat_toNat]
    rfl

theorem ofUnits_flatMap_units (cs acc : List Char) :
    ofUnits acc (cs.flatMap units) = acc.reverse ++ cs := by
  induction cs generalizing acc with
  | nil => simp [ofUnits]
  | cons c cs ih =>
    rw [List.flatMap_cons, ofUnits_units, ih]
    simp

/-- The units that a text is written with are those of its characters. -/
theorem decodeUnits_encode (t : Text) :
    decodeUnits [] (encode t) = ((Utf8.pieces t).map Utf8.Piece.toChar).flatMap units := by
  let cs := (Utf8.pieces t).map Utf8.Piece.toChar
  have hencode : encode t = (cs.flatMap units).flatMap encodeUnit := by
    rw [List.flatMap_assoc, List.flatMap_map]
    rfl
  have hunits : ∀ u ∈ cs.flatMap units, u < 0x10000 := by
    intro u hu
    obtain ⟨c, _, hc⟩ := List.mem_flatMap.1 hu
    exact units_lt hc
  rw [hencode, decodeUnits_flatMap_encodeUnit hunits, List.reverse_nil, List.nil_append]

/-- A valid text is read back as it was written. -/
theorem decode_encode (h : Utf8.isValid t = true) : decode (encode t) = t := by
  rw [decode, decodeUnits_encode, ofUnits_flatMap_units, List.reverse_nil, List.nil_append]
  exact Utf8.ofChars_toChar_pieces h

/-! ### The bytes of the form -/

theorem bytes_encodeUnit (h : u < 0x10000) : ∀ b ∈ encodeUnit u, b ≠ 0 ∧ b < 0xF0 := by
  have hbyte {n : Nat} (hpos : 0 < n) (hlt : n < 0xF0) : UInt8.ofNat n ≠ 0 ∧ UInt8.ofNat n < 0xF0 := by
    have hn : (UInt8.ofNat n).toNat = n := toNat_ofNat_of_lt (by omega)
    rw [UInt8.lt_iff_toNat_lt, hn]
    exact ⟨fun h => by simp [h] at hn; omega, hlt⟩
  unfold encodeUnit
  split
  · decide +kernel
  split
  · exact List.forall_mem_singleton.2 (hbyte (by omega) (by omega))
  split <;> simp only [List.forall_mem_cons]
  · exact ⟨hbyte (by omega) (by omega), hbyte (by omega) (by omega), List.forall_mem_nil _⟩
  · exact ⟨hbyte (by omega) (by omega), hbyte (by omega) (by omega), hbyte (by omega) (by omega),
      List.forall_mem_nil _⟩

/-- Text is read back from the form that class files give it, which has no zero byte and no byte that
starts four in UTF-8; texts of other characters have other forms. -/
theorem encode_reversible (cs : List Char) :
    decode (encode (.ofChars cs)) = .ofChars cs ∧
    (∀ b ∈ encode (.ofChars cs), b ≠ 0 ∧ b < 0xF0) ∧
    ∀ ds : List Char, encode (.ofChars ds) = encode (.ofChars cs) ↔ ds = cs := by
  have hback (ds : List Char) : decode (encode (.ofChars ds)) = .ofChars ds :=
    decode_encode (Utf8.isValid_ofChars ds)
  refine ⟨hback cs, ?_, fun ds => ⟨fun h => ?_, fun h => h ▸ rfl⟩⟩
  · intro b hb
    obtain ⟨p, -, hb⟩ := List.mem_flatMap.1 hb
    obtain ⟨u, hu, hb⟩ := List.mem_flatMap.1 hb
    exact bytes_encodeUnit (units_lt hu) b hb
  · have hpieces : ds.map Utf8.Piece.char = cs.map .char := by
      rw [← Utf8.pieces_ofChars, ← hback, h, hback, Utf8.pieces_ofChars]
    exact (List.map_inj_right fun _ _ => Utf8.Piece.char.inj).1 hpieces

/-- Zero and a pair of surrogates. -/
theorem encode_reversible_samplePair :
    0xED ∈ encode (.ofChars ['\x00', '😀']) ∧ (0xED : UInt8) < 0xF0 ∧
      decode (encode (.ofChars ['\x00', '😀'])) = .ofChars ['\x00', '😀'] := by
  have hmem : 0xED ∈ encode (.ofChars ['\x00', '😀']) := by
    rw [encode, Utf8.pieces_ofChars]
    decide
  obtain ⟨hback, hbytes, -⟩ := encode_reversible ['\x00', '😀']
  exact ⟨hmem, (hbytes _ hmem).2, hback⟩

end Modified

end Classwright
