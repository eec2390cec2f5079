import Classwright.Constant.Literal
import Classwright.Proofs.Token.Scanning

/-!
Every text can be written as a string literal and is read back from it. In the literal a backslash
stands before each quote and each backslash of the text (`Literal.quote`). The lexer looks for the end
of the literal and the constant is made from the text between the quotes, each in its own pass over
the escapes; both pass the escapes of a text the same way (`Source.closeQuote_escape`,
`Literal.unescape_escape`).
-/

namespace Classwright

namespace Literal

/-- The bytes that stand for a byte between quotes. -/
def escape (b : UInt8) : Text :=
  if b = ascii '"' ∨ b = ascii '\\' then [ascii '\\', b] else [b]

/-- A text as a string literal. -/
def quote (v : Text) : Text := ascii '"' :: (v.flatMap escape ++ [ascii '"'])

theorem unescape_cons (hb : b ≠ ascii '\\') (read rest : Text) :
    unescape read (b :: rest) = unescape (b :: read) rest := by
  cases rest with
  | nil => rw [unescape, unescape]
  | cons c rest => rw [unescape, if_neg hb]

theorem unescape_escape (v read : Text) :
    unescape read (v.flatMap escape) = read.reverse ++ v := by
  induction v generalizing read with
  | nil => rw [List.flatMap_nil, unescape, List.append_nil]
  | cons b v ih =>
    rw [List.flatMap_cons, escape]
    split
    · next hb =>
      have hescaped : escaped b = b := by rcases hb with rfl | rfl <;> rfl
      rw [List.cons_append, List.singleton_append, unescape, if_pos rfl, ih, hescaped]
      simp
    · next hb =>
      rw [List.singleton_append, unescape_cons fun h => hb (.inr h), ih]
      simp

end Literal

namespace Source

open Literal

theorem closeQuote_escape (v read rest : Text) :
    closeQuote (ascii '"') read (v.flatMap escape ++ ascii '"' :: rest) =
      .ok (read.reverse ++ v.flatMap escape ++ [ascii '"']) := by
  induction v generalizing read with
  | nil =>
    rw [List.flatMap_nil, List.nil_append, closeQuote_cons (by decide), if_pos rfl]
    simp
  | cons b v ih =>
    rw [List.flatMap_cons, List.append_assoc, escape]
    split
    · rw [List.cons_append, List.singleton_append, show ascii '\\' = 0x5C from rfl, closeQuote, ih]
      simp
    · next hb =>
      rw [not_or] at hb
      rw [List.singleton_append, closeQuote_cons hb.2, if_neg hb.1, ih]
      simp

/-- A text that is written as a string literal is read as one token, which stands for that text. -/
theorem tokens_quote (v : Text) : ∃ pos : Pos,
    tokens (quote v) = .ok [⟨.string, quote v, 1, 1⟩, ⟨.eof, [], pos.line, pos.col⟩] ∧
    Constant.ofToken ⟨.string, quote v, 1, 1⟩ = .ok (.ofText v) := by
  have hliteral : literal .string (ascii '"') (v.flatMap escape ++ [ascii '"']) =
      .ok (.string, quote v) := by
    rw [literal, closeQuote_escape, List.append_assoc]
    rfl
  have htoken : Token.Rescans ⟨.string, quote v, 1, 1⟩ := rescans_literal (.inl ⟨rfl, rfl⟩) hliteral
  have hunquote : unquote (quote v) = v := by
    rw [unquote, quote, List.drop_one, List.tail_cons, List.dropLast_concat, unescape_escape]
    rfl
  refine ⟨_, (Scans.token .start htoken).tokens ⟨by rintro _ _ ⟨⟩, by rintro _ _ ⟨⟩, rfl⟩, ?_⟩
  rw [Constant.ofToken, ofKind, hunquote]

end Source

end Classwright
