import Classwright.Proofs.Body.Pass
import Mathlib

/-!
Where the meaning of a source is refused. Each check points at a token of the tree that it is about, so
if all tokens of a statement are at places of the source, then so is all that is refused while its code
is written (`Gen.fails_stmt`).
-/

namespace Classwright.Gen

variable {P : Int → Int → Prop}

/-- Writing code fails at places only. -/
def Fails (P : Int → Int → Prop) (m : Gen α) : Prop := ∀ b, FailsAt P (m b)

theorem fails_pure (a : α) : Fails P (pure a : Gen α) := fun _ => .ok _

theorem Fails.bind (hm : Fails P m) (hf : ∀ a, Fails P (f a)) :
    Fails P (m >>= f) := fun b => (hm b).bind fun r _ => hf r.1 r.2

theorem Fails.check {f : PUnit → Gen β} [Decidable c] (hm : Fails P m)
    (hf : ∀ a, Fails P (f a)) : Fails P (if c then m >>= f else f ⟨⟩) := by
  split
  · exact hm.bind hf
  · exact hf _

theorem Fails.discard (hm : Fails P m) : Fails P (Functor.discard m) :=
  hm.bind fun _ => fails_pure _

theorem fails_refuse (h : tok.At P) (fault : CompileFault) :
    Fails P (refuse tok fault : Gen α) := fun _ => .error h

theorem fails_edit (f : Code → Code) : Fails P (edit f) := fun _ => .ok _

theorem fails_invoke (op : Opcode) (cls name desc : Text) : Fails P (invoke op cls name desc) :=
  failsAt_access _

theorem fails_field (op : Opcode) (owner : Text) (v : Var) : Fails P (field op owner v) :=
  failsAt_access _

theorem fails_isReachable : Fails P isReachable := fun _ => .ok _

theorem fails_alloc (t : Ty) : Fails P (alloc t) := fun _ => .ok _

theorem Fails.lift (hx : FailsAt P x)
    (hf : ∀ a, x = .ok a → Fails P (f a)) : Fails P (liftM x >>= f) := by
  cases x with
  | error e => exact fun _ => .error (hx e rfl)
  | ok a => exact hf a rfl

theorem fails_get (h : ∀ b, Fails P (f b)) : Fails P (get >>= f) :=
  fun b => h b b

theorem fails_declare (htok : tok.At P) (name : Text) (t : Ty) (isConst : Bool) :
    Fails P (declare env tok name t isConst) := by
  refine fails_get fun b => ?_
  dsimp only
  split
  · exact fails_refuse htok _
  · exact fun _ => .error trivial
  · exact fun _ => .ok _

theorem fails_store (v : Var) : Fails P (store v) := by
  unfold store
  split
  · exact fails_edit _
  · exact fails_field _ _ _
  · exact fails_field _ _ _

/-- Failing at places only passes through all code. -/
def failsPass (env : Env) (P : Int → Int → Prop) : Pass env Unit where
  Holds _ _ _ m := Fails P m
  Taken _ _ _ := True
  Seen _ _ := True
  Own _ _ := True
  Target _ := True
  Unnamed _ _ := True
  Place := P
  taken_mono _ h := h
  taken_of_seen _ _ := trivial
  own_mono _ h := h
  composes _ _ := {
    quiet := Quiet.fails
    bind := Fails.bind
    lift hx h := Fails.lift hx.failsAt h
    self _ := fails_edit _ }
  newLabel h b := h () b.code.marks.size le_rfl trivial _
  bindLabel _ := fails_edit _
  jump _ _ := fails_edit _
  loadSlot _ := fails_edit _
  storeSlot _ := fails_edit _
  incSlot _ _ := fails_edit _
  put _ _ _ := fails_field _ _ _
  get h := fails_get fun b => h () b le_rfl (fun _ _ _ => trivial) fun _ _ _ => trivial
  alloc h := (fails_alloc _).bind fun slot => h () slot le_rfl trivial
  declareLocal name isConst htok _ h := (fails_declare htok name _ isConst).bind fun v =>
    h () v le_rfl trivial
  target _ := trivial
  unnamed _ _ := trivial
  declareStore isConst _ htok _ h := (fails_declare htok _ _ isConst).bind fun v =>
    .check (fails_edit _) fun _ => (fails_store v).bind fun _ => h () le_rfl
  inScope h _ := (h _).bind fun _ _ => .ok _

theorem fails_stmt (h : s.At P) : Fails P (stmt env s) :=
  (failsPass env P).stmt (d := 1) (i := ()) (Nat.le_refl 1) h

theorem fails_stmts (h : Stmt.AllAt P ss) : Fails P (stmts env ss) :=
  (failsPass env P).stmts (d := 1) (i := ()) (Nat.le_refl 1) h

end Classwright.Gen
