import Classwright.Proofs.Outcome
import Classwright.Proofs.Token.Scanning

/-!
Layout does not change the tokens of a source. Each token is the longest one that its text starts with,
and no token but a literal holds a space, so a space after it ends it as well as what stood there
before (`Token.Respaces`). The texts of the tokens with spaces between them are therefore read as the
same tokens.
-/

namespace Classwright

/-- A token without its place. -/
def Token.content (t : Token) : Kind × Text := (t.kind, t.text)

/-- A token that is read again, wherever it stands, if its text is followed by what ends both words and
symbols. -/
def Token.Respaces (t : Token) : Prop :=
  ∀ pos : Pos, Source.Scans pos t.text Source.EndsBoth [pos.token t.kind t.text] (pos.after t.text)

namespace Source

theorem kind_ofWord (word : Text) (s : Symbol) : Kind.ofWord word ≠ .symbol s := by
  unfold Kind.ofWord
  split <;> nofun

theorem IsSuffix.kind_ne_symbol (h : IsSuffix whole kind t)
    (s : Symbol) : kind ≠ .symbol s := by
  cases h with
  | none => cases whole <;> nofun
  | float => nofun
  | long => nofun

/-- A symbol is spelled in one way. -/
theorem spelling_of_lexeme
    (h : lexeme b rest = .ok (.symbol s, text)) : text = s.spelling := by
  unfold lexeme at h
  split at h
  · exact absurd (congrArg Prod.fst (Except.ok.inj h)) (kind_ofWord _ s)
  · split at h
    · have hkind : (number (b :: rest)).1 ≠ .symbol s := (isSuffix_suffix _ _).kind_ne_symbol s
      exact absurd (congrArg Prod.fst (Except.ok.inj h)) hkind
    · split at h
      · cases literal_kind h
      · split at h
        · cases literal_kind h
        · split at h
          · cases h
            rfl
          · cases h

theorem respaces_of_lexeme
    (h : lexeme b rest = .ok (kind, text)) (line col : Int) :
    Token.Respaces ⟨kind, text, line, col⟩ := by
  intro pos
  by_cases hkind : ∃ s, kind = .symbol s
  · obtain ⟨s, rfl⟩ := hkind
    cases spelling_of_lexeme h
    exact (Scans.symbol pos s).mono fun _ hrest => .inr hrest.symbol
  · have ht := rescans_of_lexeme h (fun s hs => hkind ⟨s, hs⟩) line col
    exact (Scans.token pos ht).mono fun _ hrest => hrest.word

/-- Every token but the end marker, which has no text, is read again before a space. -/
theorem respaces_of_tokensOnto {read : List Token}
    (h : tokensOnto read pos src = .ok ts) (hread : ∀ t ∈ read, t.Respaces) :
    ∃ init e, ts = init ++ [e] ∧ e.content = (.eof, []) ∧ ∀ t ∈ init, t.Respaces := by
  fun_induction tokensOnto read pos src with
  | case1 => cases h
  | case2 read pos src p hskip =>
    cases h
    exact ⟨read.reverse, _, List.reverse_cons, rfl, fun t ht => hread t (List.mem_reverse.1 ht)⟩
  | case3 => cases h
  | case4 read pos src p b rest hskip kind text hlexeme ih =>
    exact ih h (List.forall_mem_cons.2 ⟨respaces_of_lexeme hlexeme _ _, hread⟩)

/-- The texts of some tokens, each one after a space. -/
def spaced (ts : List Token) : Text := (ts.map Token.text).flatMap ((" " : Text) ++ ·)

theorem endsBoth_nil : EndsBoth [] := ⟨⟨nofun, nofun, rfl⟩, nofun⟩

theorem endsBoth_spaced (ts : List Token) (hrest : EndsBoth rest) :
    EndsBoth (spaced ts ++ rest) := by
  cases ts with
  | nil => exact hrest
  | cons t ts => exact endsBoth_of_blank (b := ascii ' ') (by decide) _

theorem scans_spaced (h : ∀ t ∈ ts, t.Respaces) (pos : Pos) :
    ∃ us pos', Scans pos (spaced ts) EndsBoth us pos'
      ∧ us.map Token.content = ts.map Token.content := by
  induction ts generalizing pos with
  | nil => exact ⟨[], pos, .nil, rfl⟩
  | cons t ts ih =>
    obtain ⟨ht, hts⟩ := List.forall_mem_cons.1 h
    obtain ⟨us, pos', hscan, hus⟩ := ih hts ((pos.after " ").after t.text)
    refine ⟨_ :: us, pos', .cons ((Scans.space pos).skip (ht _)) hscan ?_, ?_⟩
    · exact fun _ => endsBoth_spaced ts
    · rw [List.map_cons, List.map_cons, hus]
      rfl

/-- The texts of tokens with single spaces between them are read as the same tokens. -/
theorem scans_join {ts : List Token} (h : ∀ t ∈ ts, t.Respaces) (pos : Pos) :
    ∃ us pos', Scans pos (Text.join " " (ts.map Token.text)) EndsBoth us pos'
      ∧ us.map Token.content = ts.map Token.content := by
  cases ts with
  | nil => exact ⟨[], pos, .nil, rfl⟩
  | cons t ts =>
    obtain ⟨ht, hts⟩ := List.forall_mem_cons.1 h
    obtain ⟨us, pos', hscan, hus⟩ := scans_spaced hts (pos.after t.text)
    refine ⟨_ :: us, pos', .cons (ht pos) hscan fun _ => endsBoth_spaced ts, ?_⟩
    rw [List.map_cons, List.map_cons, hus]
    rfl

/-- Joining a last text that is empty adds a separator, unless it is the only one. -/
theorem join_concat_nil (ts : List Text) :
    Text.join " " (ts ++ [[]]) = Text.join " " ts ∨ Text.join " " (ts ++ [[]]) = Text.join " " ts ++ " " := by
  cases ts with
  | nil => exact .inl rfl
  | cons t ts =>
    refine .inr ?_
    rw [List.cons_append, Text.join, Text.join, List.flatMap_append, List.append_assoc]
    rfl

/-- The texts of the tokens of a source with single spaces between them are a source with the same
tokens, whether the empty text of the end marker is taken along or not. -/
theorem tokens_of_join {src : Text} {ts : List Token} (h : tokens src = .ok ts) :
    (∃ us, tokens (Text.join " " (ts.map Token.text)) = .ok us
      ∧ us.map Token.content = ts.map Token.content)
    ∧ ∃ us, tokens (Text.join " " (ts.dropLast.map Token.text)) = .ok us
      ∧ us.map Token.content = ts.map Token.content := by
  obtain ⟨init, e, rfl, he, hinit⟩ := respaces_of_tokensOnto h nofun
  obtain ⟨us, pos, hscan, hus⟩ := scans_join hinit .start
  have hcontent (p : Pos) : (us ++ [p.token .eof []]).map Token.content
      = (init ++ [e]).map Token.content := by
    rw [List.map_append, List.map_append, hus, List.map_singleton, List.map_singleton, he]
    rfl
  have htext : e.text = [] := congrArg Prod.snd he
  constructor
  · rw [List.map_append, List.map_singleton, htext]
    rcases join_concat_nil (init.map Token.text) with heq | heq
    · rw [heq]
      exact ⟨_, hscan.tokens endsBoth_nil, hcontent _⟩
    · rw [heq]
      have hspace := hscan.append (Scans.space pos) fun _ _ => endsBoth_of_blank (by decide) _
      rw [List.append_nil] at hspace
      exact ⟨_, hspace.tokens trivial, hcontent _⟩
  · rw [List.dropLast_concat]
    exact ⟨_, hscan.tokens endsBoth_nil, hcontent _⟩

/-- A source without blanks, in which a number backs off from an exponent and from a fraction, and
comments stand for spaces. -/
def sampleTight : Text := "x=1e..y//\"\n'\n'+/**/+1.5e3f"

theorem tokens_of_join_sampleTight : ∃ ts, tokens sampleTight = .ok ts
    ∧ ts.map Token.text = ["x", "=", "1", "e", "..", "y", "'\n'", "+", "+", "1.5e3f", ""]
    ∧ (∃ us, tokens (Text.join " " (ts.map Token.text)) = .ok us
      ∧ us.map Token.content = ts.map Token.content)
    ∧ ∃ us, tokens (Text.join " " (ts.dropLast.map Token.text)) = .ok us
      ∧ us.map Token.content = ts.map Token.content := by
  have hrun : (tokens sampleTight).toOption.map (List.map Token.text)
      = some (["x", "=", "1", "e", "..", "y", "'\n'", "+", "+", "1.5e3f", ""] : List Text) := by
    decide +kernel
  obtain ⟨ts, hts, htexts⟩ := Option.map_eq_some_iff.1 hrun
  exact ⟨ts, of_toOption hts, htexts, tokens_of_join (of_toOption hts)⟩

end Source

end Classwright
