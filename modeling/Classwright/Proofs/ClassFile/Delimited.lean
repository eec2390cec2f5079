import Classwright.ClassFile.Decode
import Classwright.Proofs.Outcome

/-!
Class files delimit themselves. A reader that succeeds has looked at no bytes but those that it took
(`Read.Local`), so what follows a class is left over, and neither a longer text nor a shorter one is
a class too (`ClassFile.decode_delimited`).
-/

namespace Classwright

theorem Text.split?_append_right (h : split? acc n t = some (b, rest))
    (u : Text) : split? acc n (t ++ u) = some (b, rest ++ u) := by
  induction n generalizing acc t with
  | zero =>
    rw [split?] at h ⊢
    cases h
    rfl
  | succ n ih =>
    cases t with
    | nil => cases h
    | cons c t => exact ih h

namespace Read

/-- What a reader gives does not depend on what stands after the bytes that it takes. -/
class Local (m : Read α) : Prop where
  append : ∀ {r x r'}, m r = .ok (x, r') → ∀ u,
    m ⟨r.offset, r.rest ++ u⟩ = .ok (x, ⟨r'.offset, r'.rest ++ u⟩)

namespace Local

variable {m m' : Read α} {f : α → Read β}

instance (x : α) : Local (pure x : Read α) where
  append h _ := by
    cases h
    rfl

instance (e : DecodeError) : Local (throw e : Read α) where
  append := nofun

instance (e : DecodeError) (f : α → Read β) : Local ((throw e : Read α) >>= f) where
  append := nofun

instance bind [Local m] [∀ x, Local (f x)] : Local (m >>= f) where
  append {r _ _} hy u := by
    obtain ⟨⟨x, s⟩, hx, hy⟩ := bind_eq_ok hy
    change (m ⟨r.offset, r.rest ++ u⟩ >>= fun p => f p.1 p.2) = _
    rw [append hx u]
    exact append hy u

/-- A reader may look at where it stands. -/
theorem of_get {f : Reader → Read β} (h : ∀ r, Local (f r)) (hf : ∀ n t u, f ⟨n, t⟩ = f ⟨n, u⟩) :
    Local (get >>= f) where
  append {r _ _} hy u := by
    change f ⟨r.offset, r.rest ++ u⟩ _ = _
    rw [hf _ _ r.rest]
    exact (h r).append hy u

instance {c : Prop} [Decidable c] [Local m] [Local m'] : Local (if c then m else m') := by
  split <;> assumption

instance bytesOr (short : DecodeError) (n : Nat) : Local (bytesOr short n) where
  append h u := by
    rw [Read.bytesOr] at h ⊢
    split at h
    · cases h
    · next hsplit =>
      cases h
      rw [Text.split?_append_right hsplit]

instance (short : DecodeError) (n : Nat) : Local (numberOr short n) := by
  unfold numberOr
  infer_instance

instance (n : Nat) : Local (bytes n) := bytesOr _ n

instance (n : Nat) : Local (number n) := inferInstanceAs (Local (numberOr _ n))

instance (n : Nat) : Local (skip n) := by
  unfold skip
  infer_instance

instance [Local m] (done : Array α) (n : Nat) : Local (many m done n) := by
  induction n generalizing done with
  | zero => exact inferInstanceAs (Local (pure done))
  | succ n ih => exact bind

instance (index : Nat) : Local (entry index) := by
  refine @bind _ _ _ _ _ fun tag => ?_
  split <;> infer_instance

instance (size : Nat) (p : Pool) (fuel : Nat) : Local (entries size p fuel) := by
  induction fuel generalizing p with
  | zero => exact inferInstanceAs (Local (pure p))
  | succ fuel ih =>
    unfold entries
    infer_instance

instance (p : Pool) : Local (name p) := by
  refine of_get (fun r => @bind _ _ _ _ _ fun i => ?_) fun _ _ _ => rfl
  split <;> infer_instance

instance (p : Pool) : Local (className p) := by
  refine of_get (fun r => @bind _ _ _ _ _ fun i => ?_) fun _ _ _ => rfl
  split <;> infer_instance

instance : Local skipAttributes := by
  unfold skipAttributes
  infer_instance

instance (p : Pool) (m : Method) (n : Nat) : Local (methodAttributes p m n) := by
  induction n generalizing m with
  | zero => exact inferInstanceAs (Local (pure m))
  | succ n ih =>
    unfold methodAttributes
    infer_instance

instance (p : Pool) (source : Text) (n : Nat) : Local (classAttributes p source n) := by
  induction n generalizing source with
  | zero => exact inferInstanceAs (Local (pure source))
  | succ n ih =>
    unfold classAttributes
    infer_instance

instance (p : Pool) : Local (field p) := by
  unfold field
  infer_instance

instance (p : Pool) : Local (method p) := by
  unfold method
  infer_instance

instance : Local pool := by
  unfold pool
  infer_instance

theorem classFile : Local classFile := by
  unfold Read.classFile classFile.skipHead
  refine @bind _ _ _ _ _ fun magic => ?_
  split
  · infer_instance
  · refine @bind _ _ _ _ _ fun _ => @bind _ _ _ _ _ fun version => ?_
    split
    · infer_instance
    · refine @bind _ _ _ _ _ fun p => @bind _ _ _ _ _ fun _ => @bind _ _ _ _ _ fun _ => ?_
      infer_instance

end Local

end Read

/-- A text that is a class is no proper part of another one from its start: neither a text that goes
on after it nor one that stops earlier is a class. -/
theorem ClassFile.decode_delimited {t : Text} {c : ClassFile} (h : decode t = .ok c) {u : Text}
    (hu : u ≠ []) : (∃ e, decode (t ++ u) = .error e) ∧
      ∀ s, t = s ++ u → ∃ e, decode s = .error e := by
  have hlonger {t : Text} {c : ClassFile} (h : decode t = .ok c) :
      decode (t ++ u) = .error (.trailing u.length) := by
    obtain ⟨⟨c, r⟩, hc, h⟩ := bind_eq_ok h
    dsimp only at h
    split at h
    · next hempty =>
      have hrest := List.isEmpty_iff.1 hempty
      have hrun := Read.Local.classFile.append hc u
      rw [decode, StateT.run, hrun, hrest]
      simp [bind, Except.bind, hu]
      rfl
    · cases h
  refine ⟨⟨_, hlonger h⟩, fun s hs => ?_⟩
  cases hd : decode s with
  | error e => exact ⟨e, rfl⟩
  | ok d =>
    have := hlonger hd
    rw [← hs, h] at this
    cases this

/-- A class without members that comes from itself. -/
def ClassFile.sampleBytes : Text :=
  [0xCA, 0xFE, 0xBA, 0xBE, 0, 0, 0, 49, 0, 3, 1, 0, 1, 65, 7, 0, 1, 0, 1, 0, 2, 0, 2, 0, 0, 0, 0, 0, 0, 0, 0]

theorem ClassFile.decode_delimited_sampleBytes : (∃ c, decode sampleBytes = .ok c) ∧
    (∃ e, decode (sampleBytes ++ [0]) = .error e) ∧ ∃ e, decode sampleBytes.dropLast = .error e := by
  have hok : (decode sampleBytes).isOk = true := by decide +kernel
  cases h : decode sampleBytes with
  | error e =>
    rw [h] at hok
    cases hok
  | ok c =>
    obtain ⟨hlonger, hshorter⟩ := decode_delimited h (u := [0]) nofun
    exact ⟨⟨c, rfl⟩, hlonger, hshorter _ rfl⟩

end Classwright
