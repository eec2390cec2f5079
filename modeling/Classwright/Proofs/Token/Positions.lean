import Classwright.Proofs.ModifiedUtf8
import Classwright.Proofs.Outcome
import Classwright.Proofs.Token.Scanning

/-!
Where the tokens of a source stand. The place of an offset is told by the text before it alone
(`Source.placeAt`): its line by the newlines, its column by the characters since the last one. The lexer
counts places along instead; as every piece that it passes starts with a byte that goes on with no
character before it, both agree (`Pos.start_after`). So each token stands at an offset that has its
place, with nothing but blanks and complete comments between it and the token before it
(`Source.Placed`).
-/

namespace Classwright

/-! ### Characters of joined texts -/

namespace Utf8

/-- Text that does not go on with a character before it. -/
def Breaks (t : Text) : Prop := ∀ b u, t = b :: u → isContinuation b = false

theorem breaks_nil : Breaks [] := nofun

theorem breaks_cons (hb : isContinuation b = false) (t : Text) : Breaks (b :: t) := by
  rintro _ _ ⟨⟩
  exact hb

theorem pair?_eq_none (h : isContinuation b1 = false) : pair? b b1 = none := by
  rw [pair?, h, Bool.and_false]
  rfl

theorem triple?_eq_none (h : isContinuation b1 = false ∨ isContinuation b2 = false) :
    triple? b b1 b2 = none := by
  unfold triple?
  rcases h with h | h <;> simp [h]

theorem quadruple?_eq_none
    (h : isContinuation b1 = false ∨ isContinuation b2 = false ∨ isContinuation b3 = false) :
    quadruple? b b1 b2 b3 = none := by
  unfold quadruple?
  rcases h with h | h | h <;> simp [h]

theorem first_cases (b : UInt8) (rest : Text) :
    (∃ c n, first b rest = (.char c, n)) ∨ first b rest = (.stray b, 0) := by
  fun_cases first b rest with
  | case1 | case3 | case5 | case7 => exact .inl ⟨_, _, rfl⟩
  | case2 | case4 | case6 | case8 => exact .inr rfl

/-- A stray byte stays one if what follows the text breaks it off. -/
theorem first_append_of_stray (h : Breaks t)
    (hs : first b s = (.stray b, 0)) : first b (s ++ t) = (.stray b, 0) := by
  cases t with
  | nil => rwa [List.append_nil]
  | cons c u =>
    have hc : isContinuation c = false := h c u rfl
    revert hs
    fun_cases first b s with
    | case1 | case3 | case5 | case7 => rintro ⟨⟩
    | case2 hb =>
      intro _
      rw [List.nil_append, first.eq_def, if_neg hb]
      dsimp only
      rw [pair?_eq_none hc]
      rcases u with _ | ⟨d, _ | ⟨e, u⟩⟩
      · rfl
      · dsimp only
        rw [triple?_eq_none (.inl hc)]
      · dsimp only
        rw [triple?_eq_none (.inl hc)]
        dsimp only
        rw [quadruple?_eq_none (.inl hc)]
    | case4 hb b1 hpair =>
      intro _
      have htriple : triple? b b1 c = none := triple?_eq_none (.inr hc)
      simp only [List.cons_append, List.nil_append, first.eq_def, if_neg hb, hpair, htriple]
      cases u with
      | nil => rfl
      | cons d u =>
        have hquadruple : quadruple? b b1 c d = none := quadruple?_eq_none (.inr (.inl hc))
        simp only [hquadruple]
    | case6 hb b1 hpair b2 htriple =>
      intro _
      have hquadruple : quadruple? b b1 b2 c = none := quadruple?_eq_none (.inr (.inr hc))
      simp only [List.cons_append, List.nil_append, first.eq_def, if_neg hb, hpair, htriple, hquadruple]
    | case8 hb b1 hpair b2 htriple b3 rest3 hquadruple =>
      intro _
      simp only [List.cons_append, first.eq_def, if_neg hb, hpair, htriple, hquadruple]

/-- The first piece of a text does not depend on what follows the text, if that breaks it off. -/
theorem first_append_of_breaks (b : UInt8) (s : Text) (h : Breaks t) :
    first b (s ++ t) = first b s := by
  rcases first_cases b s with ⟨c, n, hfirst⟩ | hfirst
  · rw [hfirst, (first_append t hfirst).2]
  · rw [hfirst, first_append_of_stray h hfirst]

theorem first_le (b : UInt8) (rest : Text) : (first b rest).2 ≤ rest.length := by
  rcases first_cases b rest with ⟨c, n, hfirst⟩ | hfirst
  · rw [hfirst]
    exact (first_append [] hfirst).1
  · rw [hfirst]
    exact Nat.zero_le _

/-- All bytes of a piece but the first are continuation bytes. -/
theorem isContinuation_of_mem_first {rest : Text}
    (h : c ∈ rest.take (first b rest).2) : isContinuation c = true := by
  by_contra hc
  obtain ⟨s, t, hst⟩ := List.append_of_mem h
  have hrest : rest = s ++ (c :: t ++ rest.drop (first b rest).2) := by
    rw [← List.append_assoc, ← hst, List.take_append_drop]
  have hfirst : first b rest = first b s := by
    rw [hrest]
    exact first_append_of_breaks b s (breaks_cons (Bool.eq_false_iff.2 hc) _)
  have hle := first_le b s
  have hlen := congrArg List.length hst
  rw [← hfirst] at hle
  rw [List.length_take, List.length_append, List.length_cons] at hlen
  omega

theorem count_nil : count [] = 0 := by
  rw [count, pieces_nil]
  rfl

theorem count_cons (b : UInt8) (rest : Text) :
    count (b :: rest) = 1 + count (rest.drop (first b rest).2) := by
  have hpieces : pieces (b :: rest) = [(first b rest).1] ++ pieces (rest.drop (first b rest).2) := by
    rw [pieces, piecesOnto]
    exact piecesOnto_append [] [(first b rest).1] _
  rw [count, hpieces, List.length_append]
  rfl

theorem count_append (s : Text) (h : Breaks t) : count (s ++ t) = count s + count t := by
  cases s with
  | nil => rw [List.nil_append, count_nil, Nat.zero_add]
  | cons b rest =>
    rw [List.cons_append, count_cons, count_cons, first_append_of_breaks b rest h,
      List.drop_append_of_le_length (first_le b rest), count_append _ h, Nat.add_assoc]
termination_by s.length
decreasing_by
  rw [List.length_drop, List.length_cons]
  omega

end Utf8

/-! ### Places -/

namespace Source

/-- The part of a text after its last newline. -/
def lastLine (t : Text) : Text := (t.reverse.takeWhile (· != ascii '\n')).reverse

/-- The place of an offset: its line is one more than the number of newlines before it, its column one
more than the number of characters from the start of its line to it. -/
def placeAt (src : Text) (n : Nat) : Pos :=
  ⟨1 + (src.take n).count (ascii '\n'), 1 + Utf8.count (lastLine (src.take n))⟩

section
variable {s t : Text}

theorem takeWhile_eq_self_iff_not_mem :
    t.takeWhile (· != ascii '\n') = t ↔ ascii '\n' ∉ t := by
  rw [List.takeWhile_eq_self_iff]
  constructor
  · intro h hmem
    exact absurd (h _ hmem) (by decide)
  · intro h b hb
    rw [bne_iff_ne]
    rintro rfl
    exact h hb

theorem lastLine_of_not_mem (h : ascii '\n' ∉ t) : lastLine t = t := by
  rw [lastLine, takeWhile_eq_self_iff_not_mem.2 (by rwa [List.mem_reverse]), List.reverse_reverse]

theorem lastLine_append (h : ascii '\n' ∈ t) : lastLine (s ++ t) = lastLine t := by
  have hlen : (t.reverse.takeWhile (· != ascii '\n')).length ≠ t.reverse.length := by
    intro heq
    refine takeWhile_eq_self_iff_not_mem.1 ?_ (List.mem_reverse.2 h)
    exact (List.takeWhile_prefix _).eq_of_length heq
  rw [lastLine, List.reverse_append, List.takeWhile_append, if_neg hlen, lastLine]

theorem lastLine_newline (t : Text) : lastLine (ascii '\n' :: t) = lastLine t := by
  by_cases h : ascii '\n' ∈ t
  · exact lastLine_append (s := [ascii '\n']) h
  · have hall : ∀ b ∈ t.reverse, (b != ascii '\n') = true := by
      rw [← List.takeWhile_eq_self_iff, takeWhile_eq_self_iff_not_mem, List.mem_reverse]
      exact h
    rw [lastLine_of_not_mem h, lastLine, List.reverse_cons, List.takeWhile_append_of_pos hall,
      List.takeWhile_cons_of_neg (by decide), List.append_nil, List.reverse_reverse]

end

end Source

namespace Pos

/-- A piece that starts with no newline has none. -/
theorem not_mem_piece {b : UInt8} (hb : ¬ b = ascii '\n') (rest : Text) :
    ascii '\n' ∉ b :: rest.take (Utf8.first b rest).2 := by
  rw [List.mem_cons, not_or]
  refine ⟨fun h => hb h.symm, fun hmem => ?_⟩
  exact absurd (Utf8.isContinuation_of_mem_first hmem) (by decide)

/-- The place after a text is told by its newlines and by the characters since the last one. -/
theorem after_eq (p : Pos) (t : Text) : p.after t = ⟨p.line + t.count (ascii '\n'),
    (if ascii '\n' ∈ t then 1 else p.col) + Utf8.count (Source.lastLine t)⟩ := by
  fun_induction after p t with
  | case1 p =>
    rw [Source.lastLine_of_not_mem List.not_mem_nil, Utf8.count_nil, if_neg List.not_mem_nil]
    rfl
  | case2 p rest ih =>
    rw [ih, ite_self, List.count_cons_self, if_pos List.mem_cons_self, Source.lastLine_newline]
    congr 1
    dsimp only
    omega
  | case3 p b rest hb ih =>
    have hpiece := not_mem_piece hb rest
    have hsplit : b :: rest = (b :: rest.take (Utf8.first b rest).2)
        ++ rest.drop (Utf8.first b rest).2 := by
      rw [List.cons_append, List.take_append_drop]
    have hcount : (b :: rest).count (ascii '\n')
        = (rest.drop (Utf8.first b rest).2).count (ascii '\n') := by
      rw [hsplit, List.count_append, List.count_eq_zero_of_not_mem hpiece, Nat.zero_add]
    rw [ih, hcount]
    by_cases hmem : ascii '\n' ∈ rest.drop (Utf8.first b rest).2
    · have hline : Source.lastLine (b :: rest) = Source.lastLine (rest.drop (Utf8.first b rest).2) := by
        rw [hsplit, Source.lastLine_append hmem]
      rw [if_pos hmem, if_pos (List.mem_cons_of_mem _ (List.mem_of_mem_drop hmem)), hline]
    · have hmem' : ascii '\n' ∉ b :: rest := by
        rw [hsplit, List.mem_append, not_or]
        exact ⟨hpiece, hmem⟩
      rw [if_neg hmem, if_neg hmem', Source.lastLine_of_not_mem hmem, Source.lastLine_of_not_mem hmem',
        Utf8.count_cons]
      dsimp only
      rw [Nat.add_assoc]

theorem start_after (src : Text) (n : Nat) : start.after (src.take n) = Source.placeAt src n := by
  rw [after_eq, Source.placeAt, start, ite_self]

/-- A place is counted along two texts, if the second one does not go on with the first. -/
theorem after_append (p : Pos) (s : Text) (h : Utf8.Breaks t) :
    p.after (s ++ t) = (p.after s).after t := by
  fun_induction after p s with
  | case1 p => rfl
  | case2 p rest ih => rw [List.cons_append, after, if_pos rfl, ih]
  | case3 p b rest hb ih =>
    rw [List.cons_append, after, if_neg hb, Utf8.first_append_of_breaks b rest h,
      List.drop_append_of_le_length (Utf8.first_le b rest), ih]

/-! Places are counted along blanks one by one, along comments between two marks, along other text in one
line by its characters, and along a literal on several lines by the characters up to its last line. -/

theorem after_blank (p : Pos) (b : UInt8) :
    p.after [b] = if b = ascii '\n' then ⟨p.line + 1, 1⟩ else ⟨p.line, p.col + 1⟩ := by
  rw [after]
  split
  · rw [after]
  · rw [List.drop_nil, after]

theorem after_block (p : Pos) (comment : Text) : p.after ("/*" ++ comment ++ "*/") =
    ⟨(after ⟨p.line, p.col + 2⟩ comment).line, (after ⟨p.line, p.col + 2⟩ comment).col + 2⟩ := by
  have hmark (p : Pos) (b : UInt8) (hb : b = 0x2F ∨ b = 0x2A) (t : Text) :
      p.after (b :: t) = after ⟨p.line, p.col + 1⟩ t := by
    rw [after]
    rcases hb with rfl | rfl <;> rfl
  change p.after ((0x2F :: 0x2A :: comment) ++ [0x2A, 0x2F]) = _
  rw [after_append p _ (Utf8.breaks_cons (by decide) _), hmark p _ (.inl rfl), hmark _ _ (.inr rfl), hmark _ _ (.inr rfl), hmark _ _ (.inl rfl), after]

theorem after_line (p : Pos) (h : ascii '\n' ∉ t) : p.after t = ⟨p.line, p.col + Utf8.count t⟩ := by
  rw [after_eq, List.count_eq_zero_of_not_mem h, if_neg h, Source.lastLine_of_not_mem h, Nat.add_zero]

theorem after_lines (p : Pos) (s : Text) (h : ascii '\n' ∉ t) : p.after (s ++ ascii '\n' :: t) =
    ⟨p.line + (s ++ ascii '\n' :: t).count (ascii '\n'),
      (1 - Utf8.count (s ++ [ascii '\n']) + Utf8.count (s ++ ascii '\n' :: t) : Int).toNat⟩ := by
  have hcount (t : Text) : Utf8.count (s ++ ascii '\n' :: t) = Utf8.count s + (1 + Utf8.count t) := by
    rw [Utf8.count_append s (Utf8.breaks_cons (by decide) t), Utf8.count_cons]
    rfl
  rw [after_eq, if_pos (by simp), Source.lastLine_append (by simp), Source.lastLine_newline,
    Source.lastLine_of_not_mem h, hcount, hcount, Utf8.count_nil]
  congr 1
  omega

end Pos

namespace Source

/-! ### Blanks and comments -/

/-- Blanks and complete comments before the rest of a source: a comment after two slashes goes up to a
newline or the end of the source, a comment between marks up to the first closing mark. -/
inductive Gap (rest : Text) : Text → Prop where
  | nil : Gap rest []
  | blank {b : UInt8} {gap : Text} (hb : isBlank b = true) (h : Gap rest gap) : Gap rest (b :: gap)
  | line {comment gap : Text} (hcomment : ascii '\n' ∉ comment)
    (hend : gap ++ rest = [] ∨ ∃ t, gap ++ rest = ascii '\n' :: t) (h : Gap rest gap) :
    Gap rest ("//" ++ comment ++ gap)
  | block {comment gap : Text} (hcomment : ¬ ("*/" : Text) <:+: comment) (h : Gap rest gap) :
    Gap rest ("/*" ++ comment ++ "*/" ++ gap)

theorem breaks_of_blank (hb : isBlank b = true) (t : Text) : Utf8.Breaks (b :: t) := by
  refine Utf8.breaks_cons ?_ t
  rcases isBlank_cases hb with rfl | rfl | rfl | rfl <;> decide

theorem Gap.breaks (h : Gap rest gap) : Utf8.Breaks gap := by
  cases h with
  | nil => exact Utf8.breaks_nil
  | blank hb _ => exact breaks_of_blank hb _
  | line _ _ _ | block _ _ => exact Utf8.breaks_cons (b := 0x2F) (by decide) _

/-- A comment is closed by the first closing mark. -/
theorem of_closeComment {read : Text}
    (h : closeComment read t = some (comment, rest)) :
    ∃ body, t = body ++ "*/" ++ rest ∧ comment = read.reverse ++ body ++ "*/"
      ∧ ¬ ("*/" : Text) <:+: body := by
  fun_induction closeComment read t with
  | case1 read rest =>
    cases h
    exact ⟨[], rfl, by simp; rfl, by decide⟩
  | case2 read b t hb ih =>
    obtain ⟨body, rfl, rfl, hbody⟩ := ih h
    refine ⟨b :: body, rfl, by simp, fun hinfix => ?_⟩
    rcases List.infix_cons_iff.1 hinfix with ⟨after, hprefix⟩ | hinfix
    · obtain ⟨rfl, rfl⟩ := List.cons.inj hprefix
      exact hb _ rfl rfl
    · exact hbody hinfix
  | case3 => cases h

/-- What follows the rest of a line is a newline. -/
theorem newline_of_drop_takeWhile (t : Text) :
    t.drop (t.takeWhile (· != ascii '\n')).length = []
      ∨ ∃ u, t.drop (t.takeWhile (· != ascii '\n')).length = ascii '\n' :: u := by
  have hdrop : t.drop (t.takeWhile (· != ascii '\n')).length = t.dropWhile (· != ascii '\n') := by
    have happend := List.prefix_iff_eq_append.1 (List.takeWhile_prefix (l := t) (· != ascii '\n'))
    exact List.append_cancel_left (happend.trans List.takeWhile_append_dropWhile.symm)
  rw [hdrop]
  have hhead := List.head?_dropWhile_not (· != ascii '\n') t
  cases hwhile : t.dropWhile (· != ascii '\n') with
  | nil => exact .inl rfl
  | cons b u =>
    rw [hwhile] at hhead
    exact .inr ⟨u, by rw [bne_eq_false_iff_eq.1 hhead]⟩

/-- Blanks and complete comments are passed, up to a token, a comment that is not closed or the end. -/
theorem skip_cases (pos : Pos) (src : Text) : ∃ gap rest, src = gap ++ rest ∧ Gap rest gap ∧
    (skip pos src = .ok (pos.after gap, rest)
      ∨ (∃ t, rest = "/*" ++ t) ∧ skip pos src = .error ⟨.openComment, "/*", pos.after gap⟩) := by
  fun_induction skip pos src with
  | case1 pos t comment =>
    rename_i ih
    obtain ⟨gap, rest, hrest, hgap, h⟩ := ih
    have ht : t = comment ++ (gap ++ rest) := by
      rw [← hrest, List.prefix_iff_eq_append.1 (List.takeWhile_prefix _)]
    refine ⟨0x2F :: 0x2F :: comment ++ gap, rest, ?_, .line (fun hmem => ?_) ?_ hgap, ?_⟩
    · rw [List.append_assoc, List.cons_append, List.cons_append, ← ht]
    · exact absurd (List.mem_takeWhile_imp hmem) (by decide)
    · rw [← hrest]
      exact newline_of_drop_takeWhile t
    · rwa [Pos.after_append pos _ hgap.breaks]
  | case2 pos t comment t' hclose ih =>
    obtain ⟨gap, rest, rfl, hgap, h⟩ := ih
    obtain ⟨body, rfl, rfl, hbody⟩ := of_closeComment hclose
    refine ⟨_, rest, ?_, .block hbody hgap, ?_⟩
    · change "/*" ++ (body ++ "*/" ++ (gap ++ rest)) = _
      simp only [List.append_assoc]
    · rwa [Pos.after_append pos _ hgap.breaks]
  | case3 pos t hclose =>
    exact ⟨[], 0x2F :: 0x2A :: t, rfl, .nil, .inr ⟨⟨t, rfl⟩, by rw [Pos.after]⟩⟩
  | case4 pos b t _ _ hb ih =>
    obtain ⟨gap, rest, rfl, hgap, h⟩ := ih
    refine ⟨b :: gap, rest, rfl, .blank hb hgap, ?_⟩
    rwa [show b :: gap = [b] ++ gap from rfl, Pos.after_append pos _ hgap.breaks]
  | case5 pos b t _ _ hb => exact ⟨[], b :: t, rfl, .nil, .inl (by rw [Pos.after])⟩
  | case6 pos => exact ⟨[], [], rfl, .nil, .inl (by rw [Pos.after])⟩

theorem of_skip (h : skip pos src = .ok (p, rest)) :
    ∃ gap, src = gap ++ rest ∧ Gap rest gap ∧ p = pos.after gap := by
  obtain ⟨gap, rest', rfl, hgap, hskip | ⟨-, hskip⟩⟩ := skip_cases pos src
  · cases hskip.symm.trans h
    exact ⟨gap, rfl, hgap, rfl⟩
  · cases hskip.symm.trans h

/-! ### Texts of tokens -/

theorem prefix_append (hs : s <+: u) (ht : t <+: u.drop s.length) : s ++ t <+: u := by
  rw [← List.prefix_iff_eq_append.1 hs]
  exact List.prefix_append_right_inj s |>.2 ht

theorem prefix_fraction (t : Text) : fraction t <+: t := by
  unfold fraction
  split
  · split
    · exact List.cons_prefix_cons.2 ⟨rfl, List.cons_prefix_cons.2 ⟨rfl, List.takeWhile_prefix _⟩⟩
    · exact List.nil_prefix
  · exact List.nil_prefix

theorem prefix_sign (t : Text) : sign t <+: t := by
  unfold sign
  split
  · exact List.cons_prefix_cons.2 ⟨rfl, List.nil_prefix⟩
  · exact List.cons_prefix_cons.2 ⟨rfl, List.nil_prefix⟩
  · exact List.nil_prefix

theorem prefix_exponent (t : Text) : exponent t <+: t := by
  unfold exponent
  split
  · split
    · dsimp only
      split
      · exact List.nil_prefix
      · exact List.cons_prefix_cons.2 ⟨rfl, prefix_append (prefix_sign _) (List.takeWhile_prefix _)⟩
    · exact List.nil_prefix
  · exact List.nil_prefix

theorem prefix_suffix (whole : Bool) (t : Text) : (suffix whole t).2 <+: t := by
  unfold suffix
  split
  · split
    · exact List.cons_prefix_cons.2 ⟨rfl, List.nil_prefix⟩
    · split
      · exact List.cons_prefix_cons.2 ⟨rfl, List.nil_prefix⟩
      · exact List.nil_prefix
  · exact List.nil_prefix

theorem prefix_number (t : Text) : (number t).2 <+: t := by
  unfold number
  have hfraction := prefix_append (List.takeWhile_prefix Text.isDigit) (prefix_fraction (t.drop _))
  refine prefix_append (prefix_append hfraction ?_) ?_
  · rw [List.length_append, ← List.drop_drop]
    exact prefix_exponent _
  · rw [List.length_append, List.length_append, ← List.drop_drop, ← List.drop_drop]
    exact prefix_suffix _ _

theorem prefix_longestSymbol? (h : longestSymbol? t = some s) :
    s.spelling <+: t := by
  unfold longestSymbol? at h
  simp only [Option.or_eq_some_iff] at h
  rcases h with h | ⟨-, h | ⟨-, h⟩⟩ <;>
    exact spelling_of_ofText? h ▸ List.take_prefix _ _

theorem prefix_literal
    (h : literal kind quote rest = .ok (kind', text)) : ∃ w, text = quote :: w ∧ w <+: rest := by
  unfold literal at h
  split at h
  · next t ht =>
    cases h
    obtain ⟨w, rfl, hw, -⟩ := closeQuote_append ht
    exact ⟨w, rfl, hw⟩
  · cases h

theorem isContinuation_of_isLetter (h : Text.isLetter b = true) :
    Utf8.isContinuation b = false := by
  rw [Bool.eq_false_iff, Ne, Utf8.isContinuation_iff]
  simp [Text.isLetter, UInt8.le_iff_toNat_le, ← UInt8.toNat_inj, ascii] at h
  omega

theorem isContinuation_of_isDigit (h : Text.isDigit b = true) :
    Utf8.isContinuation b = false := by
  rw [Bool.eq_false_iff, Ne, Utf8.isContinuation_iff]
  simp [Text.isDigit, UInt8.le_iff_toNat_le, ascii] at h
  omega

/-- The text of a token stands where the token starts, and its first byte goes on with no character
before it. -/
theorem of_lexeme
    (h : lexeme b rest = .ok (kind, text)) :
    Utf8.isContinuation b = false ∧ ∃ w, text = b :: w ∧ w <+: rest := by
  unfold lexeme at h
  split at h
  · next hb =>
    cases h
    exact ⟨isContinuation_of_isLetter hb, _, rfl, List.takeWhile_prefix _⟩
  · split at h
    · next hb =>
      have hprefix := prefix_number (b :: rest)
      obtain ⟨w, hw⟩ := number_head hb rest
      rw [congrArg Prod.snd (Except.ok.inj h)] at hw hprefix
      cases hw
      exact ⟨isContinuation_of_isDigit hb, w, rfl, (List.cons_prefix_cons.1 hprefix).2⟩
    · split at h
      · next hb => exact ⟨hb ▸ by decide, prefix_literal h⟩
      · split at h
        · next hb => exact ⟨hb ▸ by decide, prefix_literal h⟩
        · split at h
          · next s hs =>
            cases h
            have hprefix := prefix_longestSymbol? hs
            have hhead : Utf8.isContinuation (s.spelling.headD 0) = false := by cases s <;> decide
            obtain ⟨c, w, hspelling⟩ := spelling_eq_cons s
            rw [hspelling] at hprefix hhead ⊢
            obtain ⟨rfl, hw⟩ := List.cons_prefix_cons.1 hprefix
            exact ⟨hhead, w, rfl, hw⟩
          · cases h

/-! ### Runs of the lexer -/

/-- Text after an opening quote that ends in a backslash which escapes nothing. -/
inductive CutEscape (quote : UInt8) : Text → Prop where
  | here : CutEscape quote [0x5C]
  | escape {c : UInt8} {t : Text} (h : CutEscape quote t) : CutEscape quote (0x5C :: c :: t)
  | byte {c : UInt8} {t : Text} (hescape : c ≠ 0x5C) (hquote : c ≠ quote) (h : CutEscape quote t) :
    CutEscape quote (c :: t)

theorem reverse_cons_append (a : α) (s t : List α) :
    (a :: s).reverse ++ t = s.reverse ++ a :: t := by
  rw [List.reverse_cons, List.append_assoc, List.singleton_append]

/-- A literal that is not closed goes up to the end, and beyond it by a zero byte if its last escape is cut. -/
theorem closeQuote_error {read : Text}
    (h : closeQuote quote read t = .error text) :
    text = read.reverse ++ t ∨ CutEscape quote t ∧ text = read.reverse ++ t ++ [0] := by
  fun_induction closeQuote quote read t with
  | case1 read =>
    cases h
    exact .inl (List.append_nil _).symm
  | case2 read =>
    cases h
    refine .inr ⟨.here, ?_⟩
    rw [List.reverse_cons, List.reverse_cons]
  | case3 read c rest ih =>
    rw [reverse_cons_append, reverse_cons_append] at ih
    rcases ih h with rfl | ⟨hcut, rfl⟩
    · exact .inl rfl
    · exact .inr ⟨.escape hcut, rfl⟩
  | case4 read rest h₁ h₂ => cases h
  | case5 read c rest h₁ h₂ hc ih =>
    rw [reverse_cons_append] at ih
    rcases ih h with rfl | ⟨hcut, rfl⟩
    · exact .inl rfl
    · exact .inr ⟨.byte (ne_escape h₁ h₂) hc hcut, rfl⟩

/-- The text of a fault stands where it is found, but for a literal whose last escape is cut. -/
theorem lexeme_error
    (h : lexeme b rest = .error (fault, text)) :
    text <+: b :: rest ∨ CutEscape b rest ∧ text = b :: rest ++ [0] ∧ ∃ kind, fault = .openLiteral kind := by
  have hliteral {kind : Kind} (h : literal kind b rest = .error (fault, text)) :
      text <+: b :: rest ∨ CutEscape b rest ∧ text = b :: rest ++ [0]
        ∧ ∃ kind, fault = .openLiteral kind := by
    unfold literal at h
    split at h
    · cases h
    · next t ht =>
      cases h
      rcases closeQuote_error ht with rfl | ⟨hcut, rfl⟩
      · exact .inl List.prefix_rfl
      · exact .inr ⟨hcut, rfl, kind, rfl⟩
  unfold lexeme at h
  split at h
  · cases h
  · split at h
    · cases h
    · split at h
      · exact hliteral h
      · split at h
        · exact hliteral h
        · split at h
          · cases h
          · cases h
            exact .inl (List.cons_prefix_cons.2 ⟨rfl, List.take_prefix _ _⟩)

/-- A token stands at an offset: its text is there, and its line and column are those of the offset. -/
structure StandsAt (src : Text) (t : Token) (n : Nat) : Prop where
  text : t.text <+: src.drop n
  line : t.line = (placeAt src n).line
  col : t.col = (placeAt src n).col

/-- The cursor moves from one offset to another, both in the source, over blanks and complete comments. -/
structure Passes (src : Text) (i n : Nat) : Prop where
  le : i ≤ n
  within : n ≤ src.length
  gap : Gap (src.drop n) ((src.take n).drop i)

/-- What comes of lexing a source with the cursor at an offset. Gaps are passed. Then the source ends, or a
token is cut out that the source has there and the cursor moves behind it, or there is an error that
quotes what the source has there. Only where a literal is left open and a backslash is the last byte, the
cursor moves behind the source, and the text of the error has one byte more. -/
inductive Run (src : Text) : Nat → Except LexError (List Token) → Prop where
  | eof {i : Nat} (h : Passes src i src.length) :
    Run src i (.ok [(placeAt src src.length).token .eof []])
  | token {i n : Nat} {t : Token} {outcome : Except LexError (List Token)} (h : Passes src i n)
    (hstands : StandsAt src t n) (ht : t.text ≠ []) (hnext : n + t.text.length ≤ src.length)
    (hrun : Run src (n + t.text.length) outcome) : Run src i (outcome.map (t :: ·))
  | fault {i n : Nat} {e : LexError} (h : Passes src i n) (htext : e.text <+: src.drop n)
    (hpos : e.pos = placeAt src n) : Run src i (.error e)
  | cut {i n : Nat} {kind : Kind} {quote : UInt8} {body : Text} (h : Passes src i n)
    (hdrop : src.drop n = quote :: body) (hcut : CutEscape quote body) :
    Run src i (.error ⟨.openLiteral kind, src.drop n ++ [0], placeAt src n⟩)

section
variable {before gap rest : Text}

theorem drop_gap : (before ++ (gap ++ rest)).drop (before ++ gap).length = rest := by
  rw [← List.append_assoc, List.drop_left]

theorem take_gap : (before ++ (gap ++ rest)).take (before ++ gap).length = before ++ gap := by
  rw [← List.append_assoc, List.take_left]

theorem Gap.passes (h : Gap rest gap) :
    Passes (before ++ (gap ++ rest)) before.length (before ++ gap).length := by
  refine ⟨?_, ?_, ?_⟩
  · rw [List.length_append]
    omega
  · rw [← List.append_assoc, @List.length_append _ (before ++ gap)]
    omega
  · rwa [drop_gap, take_gap, List.drop_left]

theorem Gap.place (h : Gap rest gap) :
    (Pos.start.after before).after gap = placeAt (before ++ (gap ++ rest)) (before ++ gap).length := by
  rw [← Pos.after_append _ _ h.breaks, ← Pos.start_after, take_gap]

end

/-- The tokens of a text that follows another one, which the cursor has passed. -/
theorem run_of_tokensOnto (read : List Token) (before src : Text) :
    ∃ outcome, Run (before ++ src) before.length outcome
      ∧ tokensOnto read (Pos.start.after before) src = outcome.map (read.reverse ++ ·) := by
  generalize hpos : Pos.start.after before = pos
  fun_induction tokensOnto read pos src generalizing before with
  | case1 read pos src e hskip =>
    subst hpos
    obtain ⟨gap, rest, rfl, hgap, hok | ⟨⟨t, rfl⟩, herror⟩⟩ := skip_cases (Pos.start.after before) src
    · cases hok.symm.trans hskip
    · cases herror.symm.trans hskip
      refine ⟨_, .fault hgap.passes ?_ hgap.place, rfl⟩
      rw [drop_gap]
      exact List.prefix_append _ t
  | case2 read pos src p hskip =>
    subst hpos
    obtain ⟨gap, rfl, hgap, rfl⟩ := of_skip hskip
    have hlen : (before ++ gap).length = (before ++ (gap ++ [])).length := by rw [List.append_nil]
    have hpasses : Passes (before ++ (gap ++ [])) before.length (before ++ gap).length := hgap.passes
    rw [hgap.place, hlen]
    rw [hlen] at hpasses
    exact ⟨_, .eof hpasses, congrArg Except.ok List.reverse_cons⟩
  | case3 read pos src p b rest hskip fault text hlexeme =>
    subst hpos
    obtain ⟨gap, rfl, hgap, rfl⟩ := of_skip hskip
    rw [hgap.place]
    rcases lexeme_error hlexeme with htext | ⟨hcut, rfl, kind, rfl⟩
    · refine ⟨_, .fault hgap.passes ?_ rfl, rfl⟩
      rwa [drop_gap]
    · have hrun : Run (before ++ (gap ++ b :: rest)) before.length (.error ⟨.openLiteral kind, _, _⟩) :=
        .cut hgap.passes drop_gap hcut
      rw [drop_gap] at hrun
      exact ⟨_, hrun, rfl⟩
  | case4 read pos src p b rest hskip kind text hlexeme ih =>
    subst hpos
    obtain ⟨gap, rfl, hgap, rfl⟩ := of_skip hskip
    obtain ⟨hb, w, rfl, rest', rfl⟩ := of_lexeme hlexeme
    have hnext : Pos.start.after (before ++ gap ++ b :: w)
        = ((Pos.start.after before).after gap).after (b :: w) := by
      rw [Pos.after_append _ _ (Utf8.breaks_cons hb w), Pos.after_append _ _ hgap.breaks]
    have hsrc : before ++ gap ++ b :: w ++ rest' = before ++ (gap ++ b :: (w ++ rest')) := by
      simp only [List.append_assoc, List.cons_append]
    rw [List.length_cons, Nat.add_sub_cancel, List.drop_left] at ih ⊢
    obtain ⟨outcome, hrun, heq⟩ := ih (before ++ gap ++ b :: w) hnext
    rw [hsrc, @List.length_append _ (before ++ gap)] at hrun
    have hstands : StandsAt (before ++ (gap ++ b :: (w ++ rest')))
        (Token.mk kind (b :: w) ((Pos.start.after before).after gap).line
          ((Pos.start.after before).after gap).col) (before ++ gap).length := by
      rw [hgap.place]
      refine ⟨?_, rfl, rfl⟩
      rw [drop_gap]
      exact List.prefix_append (b :: w) rest'
    refine ⟨_, .token hgap.passes hstands (List.cons_ne_nil b w) ?_ hrun, ?_⟩
    · rw [← hsrc, ← List.length_append, @List.length_append _ (before ++ gap ++ b :: w)]
      exact Nat.le_add_right _ _
    · rw [heq]
      cases outcome with
      | error e => rfl
      | ok ts => exact congrArg Except.ok (reverse_cons_append _ _ _)

theorem run_of_tokens (src : Text) : Run src 0 (tokens src) := by
  obtain ⟨outcome, hrun, htokens⟩ := run_of_tokensOnto [] [] src
  have hstart : Pos.start.after [] = Pos.start := by rw [Pos.after]
  rw [hstart] at htokens
  rw [tokens, htokens]
  cases outcome with
  | error e => exact hrun
  | ok ts => exact hrun

/-- The text of an error is a piece of the source, which begins at the place of the error. -/
def Quotes (src : Text) (e : LexError) : Prop :=
  ∃ n ≤ src.length, e.text <+: src.drop n ∧ e.pos = placeAt src n

/-- A literal is left open up to the end of the source, and the last byte is a backslash that escapes
nothing. -/
def CutAt (src : Text) (e : LexError) : Prop :=
  ∃ n kind quote body, src.drop n = quote :: body ∧ CutEscape quote body
    ∧ e = ⟨.openLiteral kind, src.drop n ++ [0], placeAt src n⟩

theorem Run.quotes
    (h : Run src i outcome) (he : outcome = .error e) : Quotes src e ∨ CutAt src e := by
  induction h with
  | eof => cases he
  | @token i n t outcome _ _ _ _ _ ih =>
    cases outcome with
    | error e' =>
      cases he
      exact ih rfl
    | ok ts => cases he
  | fault h htext hpos =>
    cases he
    exact .inl ⟨_, h.within, htext, hpos⟩
  | cut h hdrop hcut =>
    cases he
    exact .inr ⟨_, _, _, _, hdrop, hcut, rfl⟩

/-- Throughout a run of the lexer, the cursor and the texts that are cut out stay in the source, and the
text of an error quotes it. The one way to leave the source is an open literal that ends in a backslash:
the text reported for it has a zero byte behind the source. -/
theorem tokens_within (src : Text) :
    Run src 0 (tokens src) ∧ ∀ e, tokens src = .error e → Quotes src e ∨ CutAt src e := by
  refine ⟨run_of_tokens src, fun e he => ?_⟩
  exact (run_of_tokens src).quotes he

/-- A literal that is left open by a backslash at the end. -/
def sampleCut : Text := "\"abc\\"

theorem tokens_not_within : ∃ e, tokens sampleCut = .error e ∧ ¬ e.text <:+: sampleCut :=
  ⟨⟨.openLiteral .string, sampleCut ++ [0], ⟨1, 1⟩⟩, by decide +kernel, by decide +kernel⟩

/-! ### Placement -/

/-- Tokens make up a source from an offset on. They stand at offsets, one before the other and the last
one, the end marker, at the end of the source; and between where one token ends, or the start, and where
the next one stands there are only blanks and complete comments. -/
structure Placed (src : Text) (start : Nat) (ts : List Token) (offsets : List Nat) : Prop where
  increasing : offsets.Pairwise (· < ·)
  marker : ts.getLast?.map Token.kind = some .eof
  last : offsets.getLast? = some src.length
  stands : List.Forall₂ (StandsAt src) ts offsets
  gaps : ∀ g ∈ (start :: List.zipWith (fun t n => n + t.text.length) ts offsets).zip offsets,
    g.1 ≤ g.2 ∧ Gap (src.drop g.2) ((src.take g.2).drop g.1)

theorem placed_last (h : Passes src start src.length) :
    Placed src start [(placeAt src src.length).token .eof []] [src.length] := by
  refine ⟨List.pairwise_singleton _ _, rfl, rfl, .cons ⟨List.nil_prefix, rfl, rfl⟩ .nil, fun g hg => ?_⟩
  cases List.mem_singleton.1 hg
  exact ⟨h.le, h.gap⟩

theorem Placed.cons
    (h : Placed src (n + t.text.length) ts offsets) (ht : t.text ≠ [])
    (hwithin : ∀ m ∈ offsets, n + t.text.length ≤ m) (hstands : StandsAt src t n)
    (hpasses : Passes src start n) : Placed src start (t :: ts) (n :: offsets) := by
  have hpos := List.length_pos_iff.2 ht
  refine ⟨List.pairwise_cons.2 ⟨fun m hm => ?_, h.increasing⟩, ?_, ?_, .cons hstands h.stands, ?_⟩
  · have := hwithin m hm
    omega
  · have hmarker := h.marker
    cases hlast : ts.getLast? with
    | none =>
      rw [hlast] at hmarker
      cases hmarker
    | some e =>
      rw [hlast] at hmarker
      rw [List.getLast?_cons, hlast]
      exact hmarker
  · rw [List.getLast?_cons, h.last]
    rfl
  · rw [List.zipWith_cons_cons, List.zip_cons_cons, List.forall_mem_cons]
    exact ⟨⟨hpasses.le, hpasses.gap⟩, h.gaps⟩

theorem Run.placed
    (h : Run src start outcome) (hts : outcome = .ok ts) :
    ∃ offsets, Placed src start ts offsets ∧ ∀ n ∈ offsets, start ≤ n := by
  induction h generalizing ts with
  | eof h =>
    cases hts
    exact ⟨_, placed_last h, fun n hn => List.mem_singleton.1 hn ▸ h.le⟩
  | @token i n t outcome h hstands ht _ _ ih =>
    cases outcome with
    | error e => cases hts
    | ok us =>
      cases hts
      obtain ⟨offsets, hplaced, hwithin⟩ := ih rfl
      refine ⟨n :: offsets, hplaced.cons ht hwithin hstands h, List.forall_mem_cons.2 ⟨h.le, fun m hm => ?_⟩⟩
      have := hwithin m hm
      have := h.le
      omega
  | fault | cut => cases hts

/-- The tokens of a source are exact and nothing is lost between them. -/
theorem tokens_placed {src : Text} {ts : List Token} (h : tokens src = .ok ts) :
    ∃ offsets, Placed src 0 ts offsets := by
  obtain ⟨offsets, hplaced, -⟩ := (run_of_tokens src).placed h
  exact ⟨offsets, hplaced⟩

/-- A source with bytes that are no characters, a literal over several lines and characters of several
bytes in literals and comments. -/
def sampleLines : Text :=
  ("x '" : Text) ++ [0xFF, 0xC3] ++ ("' // ü\n\"ж\n\\\nжж\" y /* ∑ */ z" : Text)

theorem tokens_placed_sampleLines : ∃ ts offsets, tokens sampleLines = .ok ts
    ∧ ts.map (fun t => (t.line, t.col)) = [(1, 1), (1, 3), (2, 1), (4, 5), (4, 15), (4, 16)]
    ∧ Placed sampleLines 0 ts offsets := by
  have hrun : (tokens sampleLines).toOption.map (List.map fun t => (t.line, t.col))
      = some [(1, 1), (1, 3), (2, 1), (4, 5), (4, 15), (4, 16)] := by
    decide +kernel
  obtain ⟨ts, hts, hplaces⟩ := Option.map_eq_some_iff.1 hrun
  obtain ⟨offsets, hplaced⟩ := tokens_placed (of_toOption hts)
  exact ⟨ts, offsets, of_toOption hts, hplaces, hplaced⟩

end Source

end Classwright
