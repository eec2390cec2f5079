import Classwright.Token.Lexer
import Mathlib.Data.List.TakeWhile

/-!
Reading text back as tokens. A word, a number or a literal is read as the same token again wherever
what follows does not extend it (`Token.Rescans`), and so is a symbol; `Source.Scans` follows the
lexer over texts that are put together from such pieces.
-/

namespace Classwright

namespace Pos

theorem line_le_after (p : Pos) (t : Text) : p.line ≤ (p.after t).line := by
  fun_induction after p t with
  | case1 p => exact Nat.le_refl _
  | case2 p rest ih => exact Nat.le_trans (Nat.le_succ _) ih
  | case3 p b rest _ ih => exact ih

theorem line_after {p : Pos} (h : ascii '\n' ∉ t) : (p.after t).line = p.line := by
  fun_induction after p t with
  | case1 p => rfl
  | case2 p rest _ => exact absurd (List.mem_cons_self) h
  | case3 p b rest _ ih => exact ih fun hmem => h (List.mem_cons_of_mem _ (List.mem_of_mem_drop hmem))

end Pos

namespace Source

/-! ### What ends a token -/

/-- Text that starts with no digit. -/
def EndsDigits (rest : Text) : Prop := ∀ b t, rest = b :: t → Text.isDigit b = false

/-- Text that does not go on with a word or a number before it. -/
structure EndsWord (rest : Text) : Prop where
  digit : EndsDigits rest
  letter : ∀ b t, rest = b :: t → Text.isLetter b = false
  fraction : fraction rest = []

/-- Whether a byte may stand in a symbol after its first one, or make a slash start a comment. -/
def joins (b : UInt8) : Bool :=
  [ascii '.', ascii ':', ascii '=', ascii '>', ascii '&', ascii '|', ascii '+', ascii '-', ascii '*',
    ascii '/'].contains b

/-- Text that does not go on with a symbol before it. -/
def EndsSymbol (rest : Text) : Prop := ∀ b t, rest = b :: t → joins b = false

theorem takeWhile_append (ht : ∀ b ∈ t, p b = true)
    (hrest : ∀ b u, rest = b :: u → p b = false) : (t ++ rest).takeWhile p = t := by
  rw [List.takeWhile_append_of_pos ht]
  cases rest with
  | nil => simp
  | cons b u => rw [List.takeWhile_cons_of_neg (by rw [hrest b u rfl]; decide), List.append_nil]

/-! ### Words -/

theorem lexeme_word (hb : Text.isLetter b = true)
    (hw : ∀ c ∈ w, (Text.isLetter c || Text.isDigit c) = true) (hrest : EndsWord rest) :
    lexeme b (w ++ rest) = .ok (.ofWord (b :: w), b :: w) := by
  have htake : (w ++ rest).takeWhile (fun c => Text.isLetter c || Text.isDigit c) = w :=
    takeWhile_append hw fun c u h => by rw [hrest.letter c u h, hrest.digit c u h]; rfl
  rw [lexeme, if_pos hb, htake]

/-! ### Numbers -/

inductive IsFraction : Text → Prop where
  | none : IsFraction []
  | some {d : UInt8} {ds : Text} (hd : Text.isDigit d = true) (hds : ∀ c ∈ ds, Text.isDigit c = true) :
    IsFraction (0x2E :: d :: ds)

inductive IsExponent : Text → Prop where
  | none : IsExponent []
  | some {e d : UInt8} {sg ds : Text} (he : e = ascii 'e' ∨ e = ascii 'E')
    (hsg : sg = [] ∨ sg = [0x2B] ∨ sg = [0x2D]) (hd : Text.isDigit d = true)
    (hds : ∀ c ∈ ds, Text.isDigit c = true) : IsExponent (e :: (sg ++ d :: ds))

/-- The suffix of a number and the kind that it gives, for a number that is whole so far or not. -/
inductive IsSuffix (whole : Bool) : Kind → Text → Prop where
  | none : IsSuffix whole (if whole then .int else .float) []
  | float {c : UInt8} (hc : c = ascii 'f' ∨ c = ascii 'F' ∨ c = ascii 'd' ∨ c = ascii 'D') :
    IsSuffix whole .float [c]
  | long {c : UInt8} (hwhole : whole = true) (hc : c = ascii 'l' ∨ c = ascii 'L') :
    IsSuffix whole .int [c]

theorem isFraction_fraction (t : Text) : IsFraction (fraction t) := by
  unfold fraction
  split
  · split
    · next hd => exact .some hd fun c hc => List.mem_takeWhile_imp hc
    · exact .none
  · exact .none

theorem sign_cases (t : Text) : sign t = [] ∨ sign t = [0x2B] ∨ sign t = [0x2D] := by
  unfold sign
  split
  · exact .inr (.inl rfl)
  · exact .inr (.inr rfl)
  · exact .inl rfl

theorem isExponent_exponent (t : Text) : IsExponent (exponent t) := by
  unfold exponent
  split
  · next e rest =>
    split
    · next he =>
      dsimp only
      cases hds : (rest.drop (sign rest).length).takeWhile Text.isDigit with
      | nil => exact .none
      | cons d ds =>
        have hall : ∀ c ∈ d :: ds, Text.isDigit c = true := fun c hc =>
          List.mem_takeWhile_imp (hds ▸ hc)
        exact .some he (sign_cases rest) (hall d (.head _)) fun c hc => hall c (.tail _ hc)
    · exact .none
  · exact .none

theorem isSuffix_suffix (whole : Bool) (t : Text) : IsSuffix whole (suffix whole t).1 (suffix whole t).2 := by
  unfold suffix
  split
  · split
    · next hc => exact .float hc
    · split
      · next hc => exact .long hc.1 hc.2
      · exact .none
  · exact .none

section
variable {whole : Bool} {kind : Kind} {d f e s t rest : Text}

theorem endsDigits_cons (hb : Text.isDigit b = false) (t : Text) : EndsDigits (b :: t) := by
  rintro _ _ ⟨rfl, rfl⟩
  exact hb

theorem IsFraction.endsDigits (h : IsFraction f) (ht : EndsDigits t) : EndsDigits (f ++ t) := by
  cases h with
  | none => exact ht
  | some => exact endsDigits_cons (by decide) _

theorem isDigit_of_exponent (h : b = ascii 'e' ∨ b = ascii 'E') :
    Text.isDigit b = false := by
  rcases h with rfl | rfl <;> decide

theorem IsExponent.endsDigits (h : IsExponent e) (ht : EndsDigits t) : EndsDigits (e ++ t) := by
  cases h with
  | none => exact ht
  | some he => exact endsDigits_cons (isDigit_of_exponent he) _

/-- A suffix is a letter that no exponent starts with. -/
theorem IsSuffix.cases (h : IsSuffix whole kind s) : s = [] ∨ ∃ c, s = [c] ∧
    Text.isDigit c = false ∧ c ≠ 0x2E ∧ ¬ (c = ascii 'e' ∨ c = ascii 'E') := by
  cases h with
  | none => exact .inl rfl
  | float hc =>
    refine .inr ⟨_, rfl, ?_⟩
    rcases hc with rfl | rfl | rfl | rfl <;> decide
  | long _ hc =>
    refine .inr ⟨_, rfl, ?_⟩
    rcases hc with rfl | rfl <;> decide

theorem IsSuffix.endsDigits (h : IsSuffix whole kind s) (hrest : EndsWord rest) :
    EndsDigits (s ++ rest) := by
  rcases h.cases with rfl | ⟨c, rfl, hc, -⟩
  · exact hrest.digit
  · exact endsDigits_cons hc _

theorem fraction_cons (hb : b ≠ 0x2E) (t : Text) : fraction (b :: t) = [] := by
  unfold fraction
  split
  · next heq => exact absurd (List.cons.inj heq).1 hb
  · rfl

theorem fraction_append (h : IsFraction f) (ht : EndsDigits t) (hnone : f = [] → fraction t = []) :
    fraction (f ++ t) = f := by
  cases h with
  | none => exact hnone rfl
  | some hd hds =>
    rw [List.cons_append, List.cons_append, fraction, if_pos hd, takeWhile_append hds ht]

theorem not_exponent_of_letter (h : Text.isLetter b = false) :
    ¬ (b = ascii 'e' ∨ b = ascii 'E') := by
  rintro (rfl | rfl) <;> revert h <;> decide

theorem exponent_of_suffix (h : IsSuffix whole kind s) (hrest : EndsWord rest) :
    exponent (s ++ rest) = [] := by
  rcases h.cases with rfl | ⟨c, rfl, -, -, hc⟩
  · cases rest with
    | nil => rfl
    | cons b t => exact if_neg (not_exponent_of_letter (hrest.letter b t rfl))
  · exact if_neg hc

theorem sign_append (hsg : sg = [] ∨ sg = [0x2B] ∨ sg = [0x2D]) {d : UInt8}
    (hd : Text.isDigit d = true) (t : Text) : sign (sg ++ d :: t) = sg := by
  rcases hsg with rfl | rfl | rfl
  · rw [List.nil_append]
    unfold sign
    split
    · next heq =>
      obtain ⟨rfl, -⟩ := List.cons.inj heq
      revert hd
      decide
    · next heq =>
      obtain ⟨rfl, -⟩ := List.cons.inj heq
      revert hd
      decide
    · rfl
  · rfl
  · rfl

theorem exponent_append (h : IsExponent e) (ht : EndsDigits t) (hnone : e = [] → exponent t = []) :
    exponent (e ++ t) = e := by
  cases h with
  | none => exact hnone rfl
  | @some e d sg ds he hsg hd hds =>
    have hall : ∀ c ∈ d :: ds, Text.isDigit c = true := List.forall_mem_cons.2 ⟨hd, hds⟩
    have happend : sg ++ d :: ds ++ t = sg ++ d :: (ds ++ t) := by
      rw [List.append_assoc, List.cons_append]
    rw [List.cons_append, exponent, if_pos he, happend, sign_append hsg hd, List.drop_left,
      ← List.cons_append, takeWhile_append hall ht]
    rfl

theorem suffix_append (h : IsSuffix whole kind s) (hrest : EndsWord rest) :
    suffix whole (s ++ rest) = (kind, s) := by
  cases h with
  | none =>
    cases rest with
    | nil => rfl
    | cons b t =>
      have hb := hrest.letter b t rfl
      have hfloat : ¬ (b = ascii 'f' ∨ b = ascii 'F' ∨ b = ascii 'd' ∨ b = ascii 'D') := by
        rintro (rfl | rfl | rfl | rfl) <;> revert hb <;> decide
      have hlong : ¬ (whole = true ∧ (b = ascii 'l' ∨ b = ascii 'L')) := by
        rintro ⟨-, rfl | rfl⟩ <;> revert hb <;> decide
      rw [List.nil_append, suffix, if_neg hfloat, if_neg hlong]
  | float hc => rw [List.cons_append, suffix, if_pos hc]
  | @long c hwhole hc =>
    have hfloat : ¬ (c = ascii 'f' ∨ c = ascii 'F' ∨ c = ascii 'd' ∨ c = ascii 'D') := by
      rcases hc with rfl | rfl <;> decide
    rw [List.cons_append, suffix, if_neg hfloat, if_pos ⟨hwhole, hc⟩]

/-- A number that is put together from its parts is read as such. -/
theorem number_append (hd : ∀ c ∈ d, Text.isDigit c = true) (hf : IsFraction f) (he : IsExponent e)
    (hs : IsSuffix (f.isEmpty && e.isEmpty) kind s) (hrest : EndsWord rest) :
    number (d ++ f ++ e ++ s ++ rest) = (kind, d ++ f ++ e ++ s) := by
  have hse := hs.endsDigits hrest
  have hese := he.endsDigits hse
  have hnone : f = [] → fraction (e ++ (s ++ rest)) = [] := by
    intro _
    cases he with
    | some he => exact fraction_cons (by rcases he with rfl | rfl <;> decide) _
    | none =>
      rcases hs.cases with rfl | ⟨c, rfl, -, hc, -⟩
      · exact hrest.fraction
      · exact fraction_cons hc _
  have hdigits : (d ++ (f ++ (e ++ (s ++ rest)))).takeWhile Text.isDigit = d :=
    takeWhile_append hd (hf.endsDigits hese)
  rw [List.append_assoc, List.append_assoc, List.append_assoc, number, hdigits]
  dsimp only
  rw [List.drop_left, fraction_append hf hese hnone, List.drop_left,
    exponent_append he hse fun _ => exponent_of_suffix hs hrest, List.drop_left,
    suffix_append hs hrest]

theorem number_head (hb : Text.isDigit b = true) (t : Text) :
    ∃ w, (number (b :: t)).2 = b :: w := by
  refine ⟨(number (b :: t)).2.tail, ?_⟩
  rw [number]
  dsimp only
  rw [List.takeWhile_cons_of_pos hb]
  rfl

/-- A number is read as the same number again. -/
theorem number_number (t : Text) (hrest : EndsWord rest) :
    number ((number t).2 ++ rest) = number t :=
  number_append (fun _ hc => List.mem_takeWhile_imp hc) (isFraction_fraction _)
    (isExponent_exponent _) (isSuffix_suffix _ _) hrest

end

/-! ### Literals in quotes -/

theorem closeQuote_cons {quote c : UInt8} (hc : c ≠ 0x5C) (read rest : Text) :
    closeQuote quote read (c :: rest) =
      if c = quote then .ok (c :: read).reverse else closeQuote quote (c :: read) rest := by
  rw [closeQuote.eq_4]
  · exact fun h _ => hc h
  · exact fun _ _ h _ => hc h

/-- A byte that no case for a backslash takes is none. -/
theorem ne_escape {c : UInt8} {rest : Text} (h : c = 0x5C → rest = [] → False)
    (h' : ∀ d t, c = 0x5C → rest = d :: t → False) : c ≠ 0x5C := by
  rintro rfl
  cases rest with
  | nil => exact h rfl rfl
  | cons d t => exact h' d t rfl rfl

theorem closeQuote_append {read : Text} (h : closeQuote quote read t = .ok text) :
    ∃ w, text = read.reverse ++ w ∧ w <+: t
      ∧ ∀ rest, closeQuote quote read (w ++ rest) = .ok text := by
  fun_induction closeQuote quote read t with
  | case1 => cases h
  | case2 => cases h
  | case3 read c rest ih =>
    obtain ⟨w, rfl, hprefix, hw⟩ := ih h
    refine ⟨0x5C :: c :: w, by simp, by simpa using hprefix, fun rest => ?_⟩
    rw [List.cons_append, List.cons_append, closeQuote]
    exact hw rest
  | case4 read rest h₁ h₂ =>
    cases h
    refine ⟨[quote], List.reverse_cons, List.prefix_append [quote] _, fun rest => ?_⟩
    rw [List.cons_append, closeQuote_cons (ne_escape h₁ h₂), if_pos rfl]
  | case5 read c rest h₁ h₂ hc ih =>
    obtain ⟨w, rfl, hprefix, hw⟩ := ih h
    refine ⟨c :: w, by simp, by simpa using hprefix, fun rest => ?_⟩
    rw [List.cons_append, closeQuote_cons (ne_escape h₁ h₂), if_neg hc]
    exact hw rest

end Source

/-- A token that is read again from its text if that is followed by what ends a word. -/
def Token.Rescans (t : Token) : Prop :=
  ∃ b w, t.text = b :: w ∧ Source.isBlank b = false ∧ b ≠ ascii '/' ∧
    ∀ rest, Source.EndsWord rest → Source.lexeme b (w ++ rest) = .ok (t.kind, t.text)

/-- A token as the lexer makes it: unless it is a symbol or the end marker, it is read again from its
text. -/
def Token.IsScanned (t : Token) : Prop := t.kind = .eof ∨ (∃ s, t.kind = .symbol s) ∨ t.Rescans

namespace Source

section
variable {b : UInt8}

theorem isBlank_cases (h : isBlank b = true) :
    b = ascii ' ' ∨ b = ascii '\t' ∨ b = ascii '\r' ∨ b = ascii '\n' := by
  simpa only [isBlank, Bool.or_eq_true, beq_iff_eq, or_assoc] using h

/-- A byte that starts a word or a number is no blank and no slash. -/
theorem isBlank_of_start (hb : Text.isLetter b = true ∨ Text.isDigit b = true) :
    isBlank b = false ∧ b ≠ ascii '/' := by
  constructor
  · rw [Bool.eq_false_iff]
    intro hblank
    rcases isBlank_cases hblank with rfl | rfl | rfl | rfl <;> revert hb <;> decide
  · rintro rfl
    revert hb
    decide

theorem rescans_word (hb : Text.isLetter b = true)
    (hw : ∀ c ∈ w, (Text.isLetter c || Text.isDigit c) = true) (line col : Int) :
    Token.Rescans ⟨.ofWord (b :: w), b :: w, line, col⟩ :=
  ⟨b, w, rfl, (isBlank_of_start (.inl hb)).1, (isBlank_of_start (.inl hb)).2,
    fun _ hrest => lexeme_word hb hw hrest⟩

theorem rescans_literal
    (hb : b = ascii '"' ∧ kind = .string ∨ b = ascii '\'' ∧ kind = .char)
    (h : literal kind b rest = .ok (kind', text)) : Token.Rescans ⟨kind', text, line, col⟩ := by
  unfold literal at h
  split at h
  · next t ht =>
    cases h
    obtain ⟨w, rfl, -, hw⟩ := closeQuote_append ht
    rcases hb with ⟨rfl, rfl⟩ | ⟨rfl, rfl⟩
    · refine ⟨_, w, rfl, by decide, by decide, fun rest _ => ?_⟩
      rw [lexeme, if_neg (by decide), if_neg (by decide), if_pos rfl, literal, hw]
    · refine ⟨_, w, rfl, by decide, by decide, fun rest _ => ?_⟩
      rw [lexeme, if_neg (by decide), if_neg (by decide), if_neg (by decide), if_pos rfl, literal, hw]
  · cases h

/-- Every token but a symbol is read again from its text. -/
theorem rescans_of_lexeme (h : lexeme b rest = .ok (kind, text))
    (hkind : ∀ s, kind ≠ .symbol s) (line col : Int) : Token.Rescans ⟨kind, text, line, col⟩ := by
  unfold lexeme at h
  split at h
  · next hb =>
    cases h
    refine rescans_word hb (fun c hc => ?_) line col
    have := List.mem_takeWhile_imp hc
    exact this
  · next hletter =>
    split at h
    · next hb =>
      obtain ⟨w, hw⟩ := number_head hb rest
      obtain ⟨hblank, hslash⟩ := isBlank_of_start (.inr hb)
      have hnumber := Except.ok.inj h
      have htext : text = b :: w := by rw [← hw, hnumber]
      refine ⟨b, w, htext, hblank, hslash, fun rest' hrest' => ?_⟩
      rw [lexeme, if_neg hletter, if_pos hb, ← List.cons_append, ← hw, number_number _ hrest', hnumber]
    · split at h
      · next hb => exact rescans_literal (.inl ⟨hb, rfl⟩) h
      · split at h
        · next hb => exact rescans_literal (.inr ⟨hb, rfl⟩) h
        · split at h
          · cases h
            exact absurd rfl (hkind _)
          · cases h

/-- Tokens are scanned, and the end marker is the last of them. -/
theorem isScanned_of_tokensOnto {read : List Token}
    (h : tokensOnto read pos src = .ok ts) (hread : ∀ t ∈ read, t.IsScanned) :
    (∀ t ∈ ts, t.IsScanned) ∧ ∃ init e, ts = init ++ [e] ∧ e.kind = .eof := by
  fun_induction tokensOnto read pos src with
  | case1 => cases h
  | case2 read pos src p hskip =>
    cases h
    refine ⟨fun t ht => ?_, read.reverse, ⟨.eof, [], p.line, p.col⟩, List.reverse_cons, rfl⟩
    rcases List.mem_cons.1 (List.mem_reverse.1 ht) with rfl | ht
    · exact .inl rfl
    · exact hread t ht
  | case3 => cases h
  | case4 read pos src p b rest hskip kind text hlexeme ih =>
    refine ih h fun t ht => ?_
    rcases List.mem_cons.1 ht with rfl | ht
    · by_cases hkind : ∃ s, kind = .symbol s
      · exact .inr (.inl hkind)
      · exact .inr (.inr (rescans_of_lexeme hlexeme (fun s hs => hkind ⟨s, hs⟩) _ _))
    · exact hread t ht

theorem isScanned_of_tokens {ts : List Token} (h : tokens src = .ok ts) :
    (∀ t ∈ ts, t.IsScanned) ∧ ∃ init e, ts = init ++ [e] ∧ e.kind = .eof :=
  isScanned_of_tokensOnto h nofun

end

/-! ### How tokens start -/

theorem IsSuffix.kind_ne_ident (h : IsSuffix whole kind s) :
    kind ≠ .ident := by
  cases h with
  | none => cases whole <;> nofun
  | float => nofun
  | long => nofun

theorem literal_kind
    (h : literal kind quote rest = .ok (kind', text)) : kind' = kind := by
  unfold literal at h
  split at h
  · cases h
    rfl
  · cases h

/-- Only a letter starts an identifier. -/
theorem isLetter_of_ident (h : lexeme b rest = .ok (.ident, text)) :
    Text.isLetter b = true := by
  unfold lexeme at h
  split at h
  · next hb => exact hb
  · split at h
    · have hkind : (number (b :: rest)).1 ≠ .ident := (isSuffix_suffix _ _).kind_ne_ident
      exact absurd (congrArg Prod.fst (Except.ok.inj h)) hkind
    · split at h
      · cases literal_kind h
      · split at h
        · cases literal_kind h
        · split at h <;> cases h

theorem joins_cases (h : joins b = true) :
    Text.isLetter b = false ∧ Text.isDigit b = false ∧ b ≠ ascii '"' ∧ b ≠ ascii '\'' := by
  have htable : ∀ b ∈ [ascii '.', ascii ':', ascii '=', ascii '>', ascii '&', ascii '|', ascii '+',
      ascii '-', ascii '*', ascii '/'], Text.isLetter b = false ∧ Text.isDigit b = false
        ∧ b ≠ ascii '"' ∧ b ≠ ascii '\'' := by decide +kernel
  exact htable b (List.contains_iff_mem.1 h)

end Source

/-- A token that is no symbol does not go on with a symbol before it. -/
theorem Token.Rescans.endsSymbol {t : Token} (h : t.Rescans) (hkind : ∀ s, t.kind ≠ .symbol s)
    (rest : Text) : Source.EndsSymbol (t.text ++ rest) := by
  obtain ⟨b, w, htext, -, -, hlexeme⟩ := h
  have hnil := hlexeme [] ⟨nofun, nofun, rfl⟩
  rw [htext]
  rintro _ _ ⟨⟩
  rw [Bool.eq_false_iff]
  intro hjoins
  obtain ⟨hletter, hdigit, hstring, hchar⟩ := Source.joins_cases hjoins
  rw [Source.lexeme, if_neg (by rw [hletter]; decide), if_neg (by rw [hdigit]; decide),
    if_neg hstring, if_neg hchar] at hnil
  split at hnil
  · exact hkind _ (congrArg Prod.fst (Except.ok.inj hnil)).symm
  · cases hnil

namespace Source

/-! ### Blanks and comments -/

/-- Whether a text starts with a comment. -/
def startsComment : Text → Bool
  | 0x2F :: 0x2F :: _ => true
  | 0x2F :: 0x2A :: _ => true
  | _ => false

theorem startsComment_of_ne (hb : b ≠ 0x2F) (t : Text) : startsComment (b :: t) = false := by
  unfold startsComment
  split
  · next heq => exact absurd (List.cons.inj heq).1 hb
  · next heq => exact absurd (List.cons.inj heq).1 hb
  · rfl

theorem skip_of_token (hb : isBlank b = false)
    (ht : startsComment (b :: t) = false) (pos : Pos) : skip pos (b :: t) = .ok (pos, b :: t) := by
  rw [skip.eq_def]
  split
  · next heq =>
    rw [heq] at ht
    cases ht
  · next heq =>
    rw [heq] at ht
    cases ht
  · next heq =>
    obtain ⟨rfl, rfl⟩ := List.cons.inj heq
    rw [if_neg (by rw [hb]; decide)]
  · next heq => cases heq

theorem skip_of_blank (hb : isBlank b = true) (t : Text) (pos : Pos) :
    skip pos (b :: t) = skip (pos.after [b]) t := by
  rw [skip.eq_def]
  split
  · next heq =>
    obtain ⟨rfl, -⟩ := List.cons.inj heq
    cases hb
  · next heq =>
    obtain ⟨rfl, -⟩ := List.cons.inj heq
    cases hb
  · next heq =>
    obtain ⟨rfl, rfl⟩ := List.cons.inj heq
    rw [if_pos hb]
  · next heq => cases heq

theorem tokensOnto_of_blank (hb : isBlank b = true) (read : List Token) (pos : Pos)
    (t : Text) : tokensOnto read pos (b :: t) = tokensOnto read (pos.after [b]) t := by
  rw [tokensOnto.eq_def, tokensOnto.eq_def read _ t, skip_of_blank hb]

theorem tokensOnto_of_lexeme (hb : isBlank b = false)
    (hcomment : startsComment (b :: (w ++ rest)) = false)
    (h : lexeme b (w ++ rest) = .ok (kind, b :: w)) (read : List Token) (pos : Pos) :
    tokensOnto read pos (b :: w ++ rest)
      = tokensOnto (⟨kind, b :: w, pos.line, pos.col⟩ :: read) (pos.after (b :: w)) rest := by
  rw [List.cons_append, tokensOnto.eq_def, skip_of_token hb hcomment]
  dsimp only
  rw [h]
  dsimp only
  rw [List.length_cons, Nat.add_sub_cancel, List.drop_left]

/-! ### Symbols -/

end Source

/-- Whether no other symbol starts with the same byte. -/
def Symbol.isAlone (s : Symbol) : Bool :=
  Symbol.all.all fun s' => s'.spelling.head? != s.spelling.head? || s' = s

namespace Source

section
variable {s : Symbol} {rest : Text}

theorem ofText?_spelling (s : Symbol) : Symbol.ofText? s.spelling = some s := by
  cases s <;> rfl

theorem spelling_of_ofText? (h : Symbol.ofText? t = some s) : s.spelling = t := by
  have := List.find?_some h
  exact eq_of_beq this

theorem joins_of_mem_tail (s : Symbol) : ∀ b ∈ s.spelling.tail, joins b = true := by
  cases s <;> decide +kernel

theorem eq_of_isAlone (hs : s.isAlone = true)
    (h : s'.spelling.head? = s.spelling.head?) : s' = s := by
  have hmem : s' ∈ Symbol.all := by cases s' <;> decide
  have := List.all_eq_true.1 hs s' hmem
  rw [h, bne_self_eq_false, Bool.false_or] at this
  exact of_decide_eq_true this

theorem spelling_eq_cons (s : Symbol) : ∃ b t, s.spelling = b :: t := by
  cases s <;> exact ⟨_, _, rfl⟩

/-- No symbol is spelled by another one and what ends it. -/
theorem ofText?_append (hs : s.isAlone = true ∨ joins b = false) (t : Text) :
    Symbol.ofText? (s.spelling ++ b :: t) = none := by
  cases h : Symbol.ofText? (s.spelling ++ b :: t) with
  | none => rfl
  | some s' =>
    have hspelling := spelling_of_ofText? h
    obtain ⟨c, u, hc⟩ := spelling_eq_cons s
    rcases hs with hs | hb
    · have hhead : s'.spelling.head? = s.spelling.head? := by rw [hspelling, hc]; rfl
      rw [eq_of_isAlone hs hhead] at hspelling
      have := congrArg List.length hspelling
      rw [List.length_append, List.length_cons] at this
      omega
    · have hmem : b ∈ s'.spelling.tail := by
        rw [hspelling, hc]
        exact List.mem_append_right _ (.head _)
      cases (joins_of_mem_tail s' b hmem).symm.trans hb

/-- What ends a symbol. -/
def Ends (s : Symbol) (rest : Text) : Prop := s.isAlone = true ∨ EndsSymbol rest

theorem ofText?_take (h : Ends s rest) (hn : s.spelling.length ≤ n) :
    Symbol.ofText? ((s.spelling ++ rest).take n) = some s
      ∨ s.spelling.length < n ∧ Symbol.ofText? ((s.spelling ++ rest).take n) = none := by
  rw [List.take_append, List.take_of_length_le hn]
  cases hrest : rest.take (n - s.spelling.length) with
  | nil =>
    rw [List.append_nil]
    exact .inl (ofText?_spelling s)
  | cons b t =>
    have hlt : s.spelling.length < n := by
      refine Nat.lt_of_le_of_ne hn fun heq => ?_
      rw [heq, Nat.sub_self, List.take_zero] at hrest
      cases hrest
    refine .inr ⟨hlt, ofText?_append (h.imp_right fun h => ?_) t⟩
    cases rest with
    | nil =>
      rw [List.take_nil] at hrest
      cases hrest
    | cons c u =>
      obtain ⟨m, hm⟩ : ∃ m, n - s.spelling.length = m + 1 := ⟨n - s.spelling.length - 1, by omega⟩
      rw [hm, List.take_succ_cons] at hrest
      obtain ⟨rfl, -⟩ := List.cons.inj hrest
      exact h c u rfl

theorem longestSymbol?_append (h : Ends s rest) : longestSymbol? (s.spelling ++ rest) = some s := by
  have hlen : s.spelling.length = 1 ∨ s.spelling.length = 2 ∨ s.spelling.length = 3 := by
    cases s <;> decide
  have hself : Symbol.ofText? ((s.spelling ++ rest).take s.spelling.length) = some s := by
    rw [List.take_left]
    exact ofText?_spelling s
  unfold longestSymbol?
  rcases hlen with hlen | hlen | hlen
  · rw [hlen] at hself
    rw [hself]
    rcases ofText?_take h (n := 3) (by omega) with h3 | ⟨-, h3⟩
    · rw [h3]
      rfl
    · rcases ofText?_take h (n := 2) (by omega) with h2 | ⟨-, h2⟩
      · rw [h3, h2]
        rfl
      · rw [h3, h2]
        rfl
  · rw [hlen] at hself
    rw [hself]
    rcases ofText?_take h (n := 3) (by omega) with h3 | ⟨-, h3⟩
    · rw [h3]
      rfl
    · rw [h3]
      rfl
  · rw [hlen] at hself
    rw [hself]
    rfl

theorem lexeme_symbol (hs : s.spelling = b :: w) (h : Ends s rest) :
    lexeme b (w ++ rest) = .ok (.symbol s, b :: w) := by
  have hb : Text.isLetter b = false ∧ Text.isDigit b = false ∧ b ≠ ascii '"' ∧ b ≠ ascii '\'' := by
    have : b = s.spelling.headD 0 := by rw [hs]; rfl
    subst this
    cases s <;> decide
  have hlongest := longestSymbol?_append h
  rw [hs, List.cons_append] at hlongest
  rw [lexeme, if_neg (by rw [hb.1]; decide), if_neg (by rw [hb.2.1]; decide), if_neg hb.2.2.1,
    if_neg hb.2.2.2, hlongest, ← hs]

theorem startsComment_symbol (h : Ends s rest) : startsComment (s.spelling ++ rest) = false := by
  have hdiv : s = .div ∨ s.spelling.headD 0 ≠ 0x2F ∨ s = .divAssign := by cases s <;> decide
  rcases hdiv with rfl | hne | rfl
  · have hends : EndsSymbol rest := h.resolve_left (by decide)
    cases rest with
    | nil => rfl
    | cons b t =>
      have hb := hends b t rfl
      change startsComment (0x2F :: b :: t) = false
      unfold startsComment
      split
      · next heq =>
        obtain ⟨rfl, -⟩ := List.cons.inj (List.cons.inj heq).2
        revert hb
        decide
      · next heq =>
        obtain ⟨rfl, -⟩ := List.cons.inj (List.cons.inj heq).2
        revert hb
        decide
      · rfl
  · obtain ⟨b, w, hs⟩ := spelling_eq_cons s
    rw [hs] at hne ⊢
    exact startsComment_of_ne hne _
  · rfl

end

/-! ### Texts in pieces -/

section
variable {b : UInt8}

theorem endsWord_cons (hb : Text.isLetter b = false ∧ Text.isDigit b = false ∧ b ≠ 0x2E) (t : Text) :
    EndsWord (b :: t) := by
  refine ⟨endsDigits_cons hb.2.1 t, ?_, fraction_cons hb.2.2 t⟩
  rintro _ _ ⟨⟩
  exact hb.1

theorem endsSymbol_cons (hb : joins b = false) (t : Text) : EndsSymbol (b :: t) := by
  rintro _ _ ⟨⟩
  exact hb

theorem endsWord_of_blank (hb : isBlank b = true) (t : Text) : EndsWord (b :: t) := by
  rcases isBlank_cases hb with rfl | rfl | rfl | rfl <;>
    exact endsWord_cons (by decide) t

theorem endsSymbol_of_blank (hb : isBlank b = true) (t : Text) : EndsSymbol (b :: t) := by
  rcases isBlank_cases hb with rfl | rfl | rfl | rfl <;> exact endsSymbol_cons (by decide) t

/-- A symbol ends a word, unless it is a point that a digit may follow. -/
theorem endsWord_symbol {s : Symbol} (hs : s ≠ .dot) (t : Text) : EndsWord (s.spelling ++ t) := by
  cases s with
  | dot => exact absurd rfl hs
  | range | varargs => exact ⟨endsDigits_cons (by decide) _, fun | _, _, rfl => by decide, rfl⟩
  | _ => exact endsWord_cons (by decide) _

/-- What ends both words and symbols. -/
structure EndsBoth (rest : Text) : Prop where
  word : EndsWord rest
  symbol : EndsSymbol rest

theorem endsBoth_cons (hb : Text.isLetter b = false ∧ Text.isDigit b = false ∧ joins b = false)
    (t : Text) : EndsBoth (b :: t) := by
  obtain ⟨hletter, hdigit, hjoins⟩ := hb
  refine ⟨endsWord_cons ⟨hletter, hdigit, ?_⟩ t, endsSymbol_cons hjoins t⟩
  rintro rfl
  cases hjoins

theorem endsBoth_of_blank (hb : isBlank b = true) (t : Text) : EndsBoth (b :: t) :=
  ⟨endsWord_of_blank hb t, endsSymbol_of_blank hb t⟩

end

end Source

/-- A token that stands at a place. -/
def Pos.token (pos : Pos) (kind : Kind) (text : Text) : Token := ⟨kind, text, pos.line, pos.col⟩

/-- A keyword that stands at a place. -/
def Pos.word (pos : Pos) (k : Keyword) : Token := pos.token (.keyword k) k.spelling

@[simp] theorem Pos.kind_token (pos : Pos) (kind : Kind) (text : Text) :
    (pos.token kind text).kind = kind := rfl

namespace Source

/-- The lexer reads a text at a place as tokens and goes on at another place, if what follows the
text is as required. -/
structure Scans (pos : Pos) (text : Text) (F : Text → Prop) (ts : List Token) (pos' : Pos) :
    Prop where
  run : ∀ read rest, F rest →
    tokensOnto read pos (text ++ rest) = tokensOnto (ts.reverse ++ read) pos' rest
  line : pos.line ≤ pos'.line

/-- No requirement on what follows. -/
def Any (_ : Text) : Prop := True

namespace Scans

section
variable {pos pos₁ pos₂ : Pos} {text text' : Text} {F G : Text → Prop} {ts us : List Token}

theorem nil : Scans pos [] F [] pos := ⟨fun _ _ _ => rfl, Nat.le_refl _⟩

theorem mono (h : Scans pos text F ts pos₁) (hF : ∀ rest, G rest → F rest) :
    Scans pos text G ts pos₁ :=
  ⟨fun read rest hrest => h.run read rest (hF rest hrest), h.line⟩

theorem append (h : Scans pos text F ts pos₁) (h' : Scans pos₁ text' G us pos₂)
    (hF : ∀ rest, G rest → F (text' ++ rest)) :
    Scans pos (text ++ text') G (ts ++ us) pos₂ := by
  refine ⟨fun read rest hrest => ?_, Nat.le_trans h.line h'.line⟩
  rw [List.append_assoc, h.run read _ (hF rest hrest), h'.run _ rest hrest, List.reverse_append,
    List.append_assoc]

theorem andThen (h : Scans pos text Any ts pos₁) (h' : Scans pos₁ text' G us pos₂) :
    Scans pos (text ++ text') G (ts ++ us) pos₂ :=
  h.append h' fun _ _ => trivial

theorem cons {t : Token} (h : Scans pos text F [t] pos₁) (h' : Scans pos₁ text' G us pos₂)
    (hF : ∀ rest, G rest → F (text' ++ rest)) : Scans pos (text ++ text') G (t :: us) pos₂ :=
  h.append h' hF

theorem consThen (h : Scans pos text Any [t] pos₁) (h' : Scans pos₁ text' G us pos₂) :
    Scans pos (text ++ text') G (t :: us) pos₂ :=
  h.andThen h'

/-- Blanks before a text. -/
theorem skip (h : Scans pos text Any [] pos₁) (h' : Scans pos₁ text' G us pos₂) :
    Scans pos (text ++ text') G us pos₂ :=
  h.andThen h'

end

section
variable (pos : Pos)

theorem token {t : Token} (ht : t.Rescans) :
    Scans pos t.text EndsWord [pos.token t.kind t.text] (pos.after t.text) := by
  refine ⟨fun read rest hrest => ?_, Pos.line_le_after _ _⟩
  obtain ⟨b, w, htext, hblank, hslash, hlexeme⟩ := ht
  rw [htext] at hlexeme ⊢
  exact tokensOnto_of_lexeme hblank (startsComment_of_ne hslash _) (hlexeme rest hrest) read pos

theorem symbol (s : Symbol) :
    Scans pos s.spelling (Ends s) [pos.token (.symbol s) s.spelling] (pos.after s.spelling) := by
  refine ⟨fun read rest hrest => ?_, Pos.line_le_after _ _⟩
  have hcomment := startsComment_symbol hrest
  have hblank : isBlank (s.spelling.headD 0) = false := by cases s <;> decide
  obtain ⟨b, w, hs⟩ := spelling_eq_cons s
  rw [hs] at hcomment hblank
  have h := tokensOnto_of_lexeme hblank hcomment (lexeme_symbol hs hrest) read pos
  rw [hs]
  exact h

/-- A symbol that no other one starts with. -/
theorem bracket (hs : s.isAlone = true) :
    Scans pos s.spelling Any [pos.token (.symbol s) s.spelling] (pos.after s.spelling) :=
  (symbol pos s).mono fun _ _ => .inl hs

theorem keyword (k : Keyword) :
    Scans pos k.spelling EndsWord [pos.word k] (pos.after k.spelling) := by
  have ht : Token.Rescans ⟨.keyword k, k.spelling, 0, 0⟩ := by
    have hword : k.spelling ≠ [] ∧ Text.isLetter (k.spelling.headD 0) = true
        ∧ (∀ c ∈ k.spelling.tail, (Text.isLetter c || Text.isDigit c) = true)
        ∧ Kind.ofWord k.spelling = .keyword k := by
      cases k <;> decide +kernel
    obtain ⟨hne, hhead, htail, hkind⟩ := hword
    obtain ⟨b, w, hspelling⟩ := List.exists_cons_of_ne_nil hne
    rw [hspelling] at hhead htail hkind ⊢
    have h : Token.Rescans ⟨.ofWord (b :: w), b :: w, 0, 0⟩ := rescans_word hhead htail 0 0
    rwa [hkind] at h
  exact token pos ht

theorem blank (hb : isBlank b = true) : Scans pos [b] Any [] (pos.after [b]) :=
  ⟨fun read rest _ => tokensOnto_of_blank hb read pos rest, Pos.line_le_after _ _⟩

/-- A space, which stays on the line. -/
theorem space : Scans pos " " Any [] (pos.after " ") := blank pos (by decide)

theorem newline : Scans pos "\n" Any [] ⟨pos.line + 1, 1⟩ := by
  have h := blank pos (b := ascii '\n') (by decide)
  rwa [Pos.after, if_pos rfl, Pos.after] at h

/-- A word and a space after it. -/
theorem word (k : Keyword) : Scans pos (k.spelling ++ " ") Any
    [pos.word k] ((pos.after k.spelling).after " ") :=
  (keyword pos k).append (space _) fun _ _ => endsWord_of_blank (by decide) _

/-- A symbol and a space after it. -/
theorem mark (s : Symbol) : Scans pos (s.spelling ++ " ") Any
    [pos.token (.symbol s) s.spelling] ((pos.after s.spelling).after " ") :=
  (symbol pos s).append (space _) fun _ _ => .inr (endsSymbol_of_blank (by decide) _)

/-- A symbol between spaces. -/
theorem spaced (s : Symbol) : Scans pos (" " ++ (s.spelling ++ " ")) Any
    [(pos.after " ").token (.symbol s) s.spelling]
    (((pos.after " ").after s.spelling).after " ") :=
  (space pos).andThen (mark _ s)

/-- Tabs, which stay on the line. -/
theorem tabs (n : Nat) : ∃ pos', Scans pos (List.replicate n (ascii '\t')) Any [] pos' := by
  induction n generalizing pos with
  | zero => exact ⟨pos, nil⟩
  | succ n ih =>
    obtain ⟨pos', h⟩ := ih (pos.after [ascii '\t'])
    exact ⟨pos', (blank pos (by decide)).andThen h⟩

end

/-- Tokens of a text that is scanned from its start to its end. -/
theorem tokens
    (h : Scans .start text F ts pos) (hnil : F []) :
    Source.tokens text = .ok (ts ++ [pos.token .eof []]) := by
  have hrun := h.run [] [] hnil
  rw [List.append_nil, List.append_nil] at hrun
  rw [Source.tokens, hrun, tokensOnto, Source.skip]
  simp only [List.reverse_cons, List.reverse_reverse]
  rfl

end Scans

end Source

end Classwright
