import Classwright.Proofs.Syntax.Reprint

/-!
The texts of types, parameters and paths are read back by the parsers that take them. A type is
followed by a token that does not go on with it (`EndsRef`).
-/

open Classwright.Grammar Classwright.Parser

namespace Classwright

/-- Whatever follows, a parser takes tokens as a tree and leaves the rest. -/
def Takes {α : Type} (p : List Token → Except ParseError (α × List Token)) (ts : List Token) (a : α) :
    Prop :=
  ∀ rest, p (ts ++ rest) = .ok (a, rest)

theorem ok_bind {r : Except ε β}
    (h : m = .ok a) (h' : f a = r) : m >>= f = r := by
  rw [h]
  exact h'

/-- A kind of token that does not go on with a type. -/
def endsTypes (k : Kind) : Bool :=
  !([.symbol .pipe, .symbol .question, .symbol .lbrack, .symbol .dot, .symbol .colon] : List Kind).contains k

/-! ### Types -/

/-- What follows does not go on with a type. -/
structure EndsRef (type : TypeRef) (rest : List Token) : Prop where
  last : EndsType type.last rest
  pipe : ∀ t us, rest = t :: us → t.kind ≠ .symbol .pipe

theorem Parser.EndsType.of_bare (h : EndsType type rest)
    (hbare : type'.bare = type.bare) : EndsType type' rest := by
  have hlist : type'.list = type.list := by injection hbare
  have hnullable : type'.nullable = type.nullable := by injection hbare
  intro t ts hrest
  rw [hlist, hnullable]
  exact h t ts hrest

theorem endsRef_cons (ht : endsTypes t.kind = true) (type : TypeRef) (us : List Token) :
    EndsRef type (t :: us) := by
  have hkinds : t.kind ≠ .symbol .pipe ∧ t.kind ≠ .symbol .question ∧ t.kind ≠ .symbol .lbrack
      ∧ t.kind ≠ .symbol .dot := by
    refine ⟨?_, ?_, ?_, ?_⟩ <;> intro h <;> rw [h] at ht <;> cases ht
  constructor
  · rintro _ _ ⟨⟩ -
    exact ⟨hkinds.2.1, fun _ => hkinds.2.2⟩
  · rintro _ _ ⟨⟩
    exact hkinds.1

theorem scans_alternatives (h : ∀ m ∈ types, m.Wf) (pos : Pos) :
    ∃ ts pos' types', Source.Scans pos
        ((types.map TypeName.layout).flatMap ((" | " : Text) ++ ·)) Source.EndsWord ts pos'
      ∧ types'.map TypeName.bare = types.map TypeName.bare
      ∧ ∀ first rest, EndsRef ⟨first, types⟩ rest →
        EndsType first (ts ++ rest) ∧ plain (alternatives (ts ++ rest)) = .ok (types', rest) := by
  induction types generalizing pos with
  | nil =>
    refine ⟨[], pos, [], .nil, rfl, fun first rest hrest => ⟨hrest.last, ?_⟩⟩
    cases rest with
    | nil =>
      rw [List.nil_append, alternatives]
      rfl
    | cons t us =>
      rw [List.nil_append, alternatives, if_neg (hrest.pipe t us rfl)]
      rfl
  | cons m types ih =>
    obtain ⟨hm, htypes⟩ := List.forall_mem_cons.1 h
    have hpipe := Source.Scans.spaced pos .pipe
    obtain ⟨ts, pos₁, hscan₁, -, m', hm', hbare⟩ := hm.reads _
    obtain ⟨us, pos₂, types', hscan₂, hbares, hread⟩ := ih htypes pos₁
    have hscan := (hpipe.andThen hscan₁).append hscan₂ fun rest hrest => by
      cases types with
      | nil => exact hrest
      | cons => exact Source.endsWord_of_blank (by decide) _
    refine ⟨_, pos₂, m' :: types', hscan, by rw [List.map_cons, hbare, hbares]; rfl,
      fun first rest hrest => ⟨?_, ?_⟩⟩
    · rintro _ _ ⟨⟩ -
      exact ⟨by rintro ⟨⟩, fun _ => ⟨by rintro ⟨⟩, by rintro ⟨⟩⟩⟩
    · have hlast : EndsRef ⟨m, types⟩ rest := by
        refine ⟨?_, hrest.pipe⟩
        have := hrest.last
        rwa [TypeRef.last, List.getLastD_cons] at this
      obtain ⟨hends, halternatives⟩ := hread m rest hlast
      rw [List.append_assoc, List.append_assoc, List.singleton_append]
      rw [alternatives, if_pos (Pos.kind_token _ _ _)]
      exact plain_bind_of_ok (plain_typeName_of_named hm' (hends.of_bare hbare)) fun _ =>
        plain_bind_of_ok halternatives fun _ => rfl

theorem TypeRef.Wf.reads (h : type.Wf) :
    ReadsAs type.layout Source.EndsWord .ident fun ts => ∃ type', type'.bare = type.bare
      ∧ ∀ rest, EndsRef type rest → plain (typeRef (ts ++ rest)) = .ok (type', rest) := by
  intro pos
  obtain ⟨hfirst, hothers⟩ := List.forall_mem_cons.1 h
  obtain ⟨ts, pos₁, hscan₁, hstart, first', hfirst', hbare⟩ := hfirst.reads pos
  obtain ⟨us, pos₂, others', hscan₂, hbares, hread⟩ := scans_alternatives hothers pos₁
  have hscan := hscan₁.append hscan₂ fun rest hrest => by
    cases type.others with
    | nil => exact hrest
    | cons => exact Source.endsWord_of_blank (by decide) _
  refine ⟨_, pos₂, hscan, hstart.append us, ⟨first', others'⟩, ?_, fun rest hrest => ?_⟩
  · rw [TypeRef.bare, hbare, hbares]
    rfl
  · obtain ⟨hends, halternatives⟩ := hread type.first rest hrest
    rw [List.append_assoc, typeRef]
    exact plain_bind_of_ok (plain_typeName_of_named hfirst' (hends.of_bare hbare)) fun _ =>
      plain_bind_of_ok halternatives fun _ => rfl

/-- A kind that follows types, before which a type may be left out. -/
theorem scans_result (h : ∀ t, type = some t → t.Wf) (pos : Pos) :
    ∃ ts pos' type', Source.Scans pos (Layout.result type) Source.EndsWord ts pos'
      ∧ type'.map TypeRef.bare = type.map TypeRef.bare
      ∧ ∀ t us, endsTypes t.kind = true → plain (typeMark (ts ++ t :: us)) = .ok (type', t :: us) := by
  cases type with
  | none =>
    refine ⟨[], pos, none, .nil, rfl, fun t us ht => ?_⟩
    have hcolon : t.kind ≠ .symbol .colon := by
      intro h
      rw [h] at ht
      cases ht
    rw [List.nil_append, typeMark, pass_cons_of_ne hcolon]
    rfl
  | some type =>
    obtain ⟨ts, pos', hscan, -, type', hbare, hread⟩ := (h type rfl).reads _
    refine ⟨_, pos', some type', (Source.Scans.mark pos .colon).andThen hscan, ?_, fun t us ht => ?_⟩
    · rw [Option.map_some, hbare]
      rfl
    · rw [List.append_assoc, List.singleton_append, typeMark, pass_of_kind (Pos.kind_token _ _ _)]
      exact plain_bind_of_ok (hread _ (endsRef_cons ht type us)) fun _ => rfl

theorem endsWord_result (type : Option TypeRef) (hrest : Source.EndsWord rest) :
    Source.EndsWord (Layout.result type ++ rest) := by
  cases type with
  | none => exact hrest
  | some type => exact Source.endsWord_cons (by decide) _

/-! ### Bindings -/

theorem Binding.Wf.reads (h : b.Wf) (pos : Pos) :
    ∃ name colon ts pos' type', Source.Scans pos (Layout.binding b) Source.EndsWord
        (name :: colon :: ts) pos'
      ∧ name.kind = .ident ∧ name.text = b.name ∧ colon.kind = .symbol .colon
      ∧ type'.bare = b.type.bare
      ∧ ∀ t us, endsTypes t.kind = true → plain (typeRef (ts ++ t :: us)) = .ok (type', t :: us) := by
  have hname := h.name.scans pos
  have hcolon := Source.Scans.mark (pos.after b.name) .colon
  obtain ⟨ts, pos', hscan, -, type', hbare, hread⟩ := h.type.reads _
  have hscan' := (hname.append hcolon fun rest _ =>
    Source.endsWord_cons (by decide) _).andThen hscan
  exact ⟨_, _, ts, pos', type', hscan', rfl, rfl, rfl, hbare,
    fun t us ht => hread _ (endsRef_cons ht b.type us)⟩

theorem Text.join_cons_cons (sep t u : Text) (us : List Text) :
    Text.join sep (t :: u :: us) = t ++ sep ++ Text.join sep (u :: us) := by
  rw [Text.join, Text.join, List.flatMap_cons]
  simp only [List.append_assoc]

theorem scans_params {ps : List Binding} (h : ∀ b ∈ ps, b.Wf) (pos : Pos) :
    ∃ ts pos' ps', Source.Scans pos
        (Text.join ", " (ps.map Layout.binding) ++ Symbol.rparen.spelling) Source.Any ts pos'
      ∧ ps'.map Binding.bare = ps.map Binding.bare
      ∧ Takes (fun ts => plain (params ts)) ts ps' := by
  induction ps generalizing pos with
  | nil =>
    refine ⟨_, _, [], .bracket pos (s := .rparen) (by decide), rfl, fun rest => ?_⟩
    dsimp only
    rw [params]
    exact plain_expect_bind rfl fun _ => rfl
  | cons b ps ih =>
    obtain ⟨hb, hps⟩ := List.forall_mem_cons.1 h
    obtain ⟨name, colon, ts, pos₁, type', hscan₁, hname, htext, hcolon, hbare, hread⟩ := hb.reads pos
    have hbare' : Binding.bare ⟨name, name.text, type'⟩ = b.bare := by
      rw [Binding.bare, htext, hbare, Binding.bare]
    have hpeek (rest : List Token) : (peek (name :: rest)).kind ≠ .symbol .rparen := by
      rw [peek, List.headD_cons, hname]
      decide
    cases ps with
    | nil =>
      have hscan := hscan₁.append (.bracket pos₁ (s := .rparen) (by decide)) fun rest _ =>
        Source.endsWord_symbol (by decide) rest
      have htext : Text.join ", " ([b].map Layout.binding) = Layout.binding b := List.append_nil _
      rw [htext]
      refine ⟨_, _, [⟨name, name.text, type'⟩], hscan, by rw [List.map_cons, hbare']; rfl,
        fun rest => ?_⟩
      dsimp only
      rw [List.append_assoc, List.cons_append, List.cons_append, params, if_neg (hpeek _)]
      refine plain_expect_bind hname fun _ => plain_expect_bind hcolon fun _ =>
          plain_bind_of_ok (hread _ _ rfl) fun _ => ?_
      dsimp only
      rw [pass_cons_of_ne (by rintro ⟨⟩)]
      exact plain_expect_bind rfl fun _ => rfl
    | cons b' ps =>
      have hcomma := Source.Scans.mark pos₁ .comma
      obtain ⟨us, pos₂, ps', hscan₂, hbares, hread'⟩ := ih hps _
      have hscan := (hscan₁.append hcomma fun rest _ =>
        Source.endsWord_cons (by decide) _).andThen hscan₂
      rw [← List.append_assoc] at hscan
      have htext : Text.join ", " ((b :: b' :: ps).map Layout.binding) = Layout.binding b
          ++ (Symbol.comma.spelling ++ " ") ++ Text.join ", " ((b' :: ps).map Layout.binding) :=
        Text.join_cons_cons _ _ _ _
      rw [htext]
      refine ⟨_, pos₂, ⟨name, name.text, type'⟩ :: ps', hscan,
        by rw [List.map_cons, hbare', hbares]; rfl, fun rest => ?_⟩
      dsimp only
      rw [List.append_assoc, List.append_assoc, List.cons_append, List.cons_append, params,
        if_neg (hpeek _)]
      refine plain_expect_bind hname fun _ => plain_expect_bind hcolon fun _ =>
          plain_bind_of_ok (hread _ _ rfl) fun _ => ?_
      dsimp only
      rw [pass_of_kind (Pos.kind_token _ _ _)]
      exact plain_bind_of_ok (hread' rest) fun _ => rfl

/-- A path with slashes. -/
theorem scans_pathTail {parts : List Text} (hparts : ∀ p ∈ parts, IsName p) (pos : Pos) :
    ∃ ts pos', Source.Scans pos (parts.flatMap (Symbol.div.spelling ++ ·)) Source.EndsWord ts pos'
      ∧ ∀ path t us, t.kind ≠ .symbol .div → plain (pathTail path (ts ++ t :: us))
        = .ok (path ++ parts.flatMap (Symbol.div.spelling ++ ·), t :: us) := by
  induction parts generalizing pos with
  | nil =>
    refine ⟨[], pos, .nil, fun path t us ht => ?_⟩
    rw [List.nil_append, pathTail, if_neg ht, List.flatMap_nil, List.append_nil]
    rfl
  | cons part parts ih =>
    obtain ⟨hpart, hparts⟩ := List.forall_mem_cons.1 hparts
    have hdiv := Source.Scans.symbol pos .div
    have hname := hdiv.append (hpart.scans _) fun rest _ => .inr (hpart.endsSymbol rest)
    obtain ⟨ts, pos', hscan, hread⟩ := ih hparts _
    refine ⟨_, pos', hname.append hscan fun rest hrest => ?_, fun path t us ht => ?_⟩
    · cases parts with
      | nil => exact hrest
      | cons => exact Source.endsWord_cons (by decide) _
    · rw [List.append_assoc]
      dsimp only [List.cons_append, List.nil_append]
      rw [pathTail, if_pos (Pos.kind_token _ _ _)]
      refine plain_expect_bind rfl fun _ => plain_bind_of_ok (hread _ t us ht) fun _ => ?_
      rw [List.flatMap_cons]
      simp only [List.append_assoc]
      rfl

end Classwright
