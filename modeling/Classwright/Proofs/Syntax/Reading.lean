import Classwright.Syntax.Parser

/-!
The parser without the proofs that it carries along: what its functions read and leave (`plain`). A
tree that is read in steps comes of what they read, one by one (`plain_bind_of_ok`, `of_plain_bind`).
-/

namespace Classwright.Parser

/-- What was read and what is left. -/
def plain {α : Type} {P : List Token → Prop}
    (r : Except ParseError (α × { rest : List Token // P rest })) :
    Except ParseError (α × List Token) :=
  match r with
  | .ok (x, rest) => .ok (x, rest.1)
  | .error e => .error e

section
variable {α β : Type} {P Q : List Token → Prop}

/-- A last step whose result is given as it is. -/
theorem plain_bind_pure {m : Except ParseError (α × { rest : List Token // P rest })}
    {f : α × { rest : List Token // P rest } →
      Except ParseError (α × { rest : List Token // Q rest })}
    (h : ∀ x rest, plain (f (x, rest)) = .ok (x, rest.1)) : plain (m >>= f) = plain m := by
  cases m with
  | error e => rfl
  | ok r => exact h r.1 r.2

theorem eq_ok_of_plain {r : Except ParseError (α × { rest : List Token // P rest })} {x : α}
    {rest : List Token} (h : plain r = .ok (x, rest)) : ∃ hrest, r = .ok (x, ⟨rest, hrest⟩) := by
  unfold plain at h
  split at h
  · cases h
    exact ⟨_, rfl⟩
  · cases h

/-- A step that reads something, and what comes of the steps after it. -/
theorem plain_bind_of_ok {m : Except ParseError (α × { rest : List Token // P rest })}
    {f : α × { rest : List Token // P rest } →
      Except ParseError (β × { rest : List Token // Q rest })} {x : α} {l : List Token}
    {r : Except ParseError (β × List Token)} (h : plain m = .ok (x, l))
    (hf : ∀ hl, plain (f (x, ⟨l, hl⟩)) = r) : plain (m >>= f) = r := by
  obtain ⟨hl, rfl⟩ := eq_ok_of_plain h
  exact hf hl

theorem of_plain_bind {m : Except ParseError (α × { rest : List Token // P rest })}
    {f : α × { rest : List Token // P rest } →
      Except ParseError (β × { rest : List Token // Q rest })} {r : β × List Token}
    (h : plain (m >>= f) = .ok r) :
    ∃ x rest hrest, plain m = .ok (x, rest) ∧ plain (f (x, ⟨rest, hrest⟩)) = .ok r := by
  cases m with
  | error e => cases h
  | ok q => exact ⟨q.1, q.2.1, q.2.2, rfl, h⟩

theorem plain_bind_of_error {m : Except ParseError (α × { rest : List Token // P rest })}
    {f : α × { rest : List Token // P rest } →
      Except ParseError (β × { rest : List Token // Q rest })} {e : ParseError}
    (h : plain m = .error e) : plain (m >>= f) = .error e := by
  cases m with
  | error e =>
    cases h
    rfl
  | ok r => cases h

end

section
variable {kind : Kind} {t : Token} {ts : List Token}

theorem plain_expect_bind {α : Type} {P : List Token → Prop} {fault : ParseFault}
    {f : Token × { rest : List Token // rest <:+ t :: ts ∧ rest.length < (t :: ts).length } →
      Except ParseError (α × { rest : List Token // P rest })}
    {r : Except ParseError (α × List Token)} (h : t.kind = kind)
    (hf : ∀ hl, plain (f (t, ⟨ts, hl⟩)) = r) : plain (expect kind fault (t :: ts) >>= f) = r :=
  plain_bind_of_ok (by rw [expect, if_pos h]; rfl) hf

theorem of_plain_expect {fault : ParseFault} {rest : List Token}
    (h : plain (expect kind fault ts) = .ok (t, rest)) : t.kind = kind ∧ ts = t :: rest := by
  cases ts with
  | nil => cases h
  | cons u us =>
    rw [expect] at h
    split at h
    · cases h
      exact ⟨‹_›, rfl⟩
    · cases h

theorem pass_of_kind (h : t.kind = kind) :
    pass kind (t :: ts) = (true, ⟨ts, left_cons left_rfl⟩) := if_pos h

theorem pass_of_ne (h : ∀ t us, ts = t :: us → t.kind ≠ kind) :
    pass kind ts = (false, ⟨ts, left_rfl⟩) := by
  cases ts with
  | nil => rfl
  | cons t us => exact if_neg (h t us rfl)

theorem pass_cons_of_ne (h : t.kind ≠ kind) :
    pass kind (t :: ts) = (false, ⟨t :: ts, left_rfl⟩) := if_neg h

theorem pass_cases (kind : Kind) (ts : List Token) :
    (∃ t us h, ts = t :: us ∧ t.kind = kind ∧ pass kind ts = (true, ⟨us, h⟩))
      ∨ pass kind ts = (false, ⟨ts, left_rfl⟩) := by
  cases ts with
  | nil => exact .inr rfl
  | cons t us =>
    by_cases h : t.kind = kind
    · exact .inl ⟨t, us, _, rfl, h, pass_of_kind h⟩
    · exact .inr (pass_cons_of_ne h)

end

theorem stmtsOnto_cons (t : Token) (ts : List Token) (read : List Stmt) : stmtsOnto read (t :: ts) =
    if t.kind = .eof then .ok read.reverse
    else plain (stmt (t :: ts)) >>= fun (s, rest) => stmtsOnto (s :: read) rest := by
  rw [stmtsOnto.eq_def]
  dsimp only
  split
  · rfl
  · cases stmt (t :: ts) with
    | error e => rfl
    | ok r => rfl

end Classwright.Parser
