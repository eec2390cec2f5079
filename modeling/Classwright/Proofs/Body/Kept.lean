import Classwright.Proofs.Body.Frames
import Classwright.Proofs.Body.Pass
import Mathlib.Data.Nat.Basic

/-!
All code that is written for expressions and statements keeps the frame in order.
-/

namespace Classwright.Gen

variable {env : Env} {d n : Nat}

/-- The object at hand is in slot zero. -/
theorem keeps_self (hs : env.self = some s) :
    Keeps env d n (edit (·.load s.type 0)) := by
  refine fun b _ _ hb => .of_eq rfl ⟨hb.emit fun u hu => ?_, grows_edit b _, Nat.zero_le _⟩
  cases (Instr.local?_load s.type 0).symm.trans hu
  have := hb.self (by rw [hs]; rfl)
  have hwidth : Frame.width s.type = 1 := rfl
  rw [Family.width_ofTy, hwidth]
  dsimp only
  omega

theorem composes_keeps : Composes (fun _ _ => True) env fun m => Keeps env d n m where
  quiet := Quiet.keeps
  bind := Keeps.andThen
  lift _ h b hd hn hb := .bind (.lift fun a ha => h a ha b hd hn hb)
  self := keeps_self

theorem keeps_put (owner : Text) (v : Var) : Keeps env d n (field .putstatic owner v) := by
  refine fun b _ _ hb => (after_field _ _ _ b).mono fun _ b' h => ?_
  obtain ⟨pop, push, -, rfl⟩ := h
  exact ⟨hb.emit nofun, grows_edit b _, Nat.zero_le _⟩

theorem uses_of_reach (h : v.reach ≤ n) : Uses (fun m => Keeps env d n m) v where
  load hlocal := by
    rw [Var.reach, if_pos hlocal] at h
    exact keeps_load h
  store hlocal := by
    rw [Var.reach, if_pos hlocal] at h
    exact keeps_store h
  inc hlocal hint by_ := by
    rw [Var.reach, if_pos hlocal, hint] at h
    exact keeps_inc h by_
  put _ := keeps_put _ _

theorem Held.reach_of_lookup? (h : Held env b)
    (hv : b.scopes.lookup? name = some v) : v.reach ≤ b.next := by
  obtain ⟨vs, hvs, hfind⟩ := List.exists_of_findSome?_eq_some hv
  exact h.vars (List.mem_flatten.2 ⟨vs, hvs, List.mem_of_find?_eq_some hfind⟩)

/-- Keeping the frame in order, where a number of slots is taken. -/
def keepsPass (env : Env) : Pass env Nat where
  Holds d n _ m := Keeps env d n m
  Taken n t slot := slot + Frame.width t ≤ n
  Seen n v := v.reach ≤ n
  Own _ _ := True
  Target _ := True
  Unnamed _ _ := True
  Place _ _ := True
  taken_mono hij h := Nat.le_trans h hij
  taken_of_seen h hlocal := by rwa [Var.reach, if_pos hlocal] at h
  own_mono _ h := h
  composes _ _ := composes_keeps
  newLabel h := keeps_newLabel.andThen fun l => h _ l (Nat.le_refl _) trivial
  bindLabel _ := keeps_bind _
  jump := keeps_jump
  loadSlot := keeps_load
  storeSlot := keeps_store
  incSlot := keeps_inc
  put _ _ _ := keeps_put _ _
  get h := keeps_get fun b hb hn =>
    h b.next b hn (fun _ _ hv => hb.reach_of_lookup? hv) fun _ _ _ => trivial
  alloc h := (keeps_alloc _).bind fun slot => h _ slot (Nat.le_max_left ..) (Nat.le_max_right ..)
  declareLocal name isConst _ hd h :=
    (keeps_declareLocal hd _ name _ isConst).bind fun v =>
      h _ v (Nat.le_max_left ..) (Nat.le_max_right ..)
  target _ := trivial
  unnamed _ _ := trivial
  declareStore isConst _ _ _ h :=
    (keeps_declare _ _ _ isConst).bind fun v =>
      .optional (quiet_edit fun c => c.quiet_dup _ _).keeps fun _ =>
        (composes_keeps.store (uses_of_reach (Nat.le_max_right ..))).andThen fun _ =>
          h _ (Nat.le_max_left ..)
  inScope := Keeps.inScope

theorem keeps_stmt (hd : 1 ≤ d) (st : Stmt) : Keeps env d n (stmt env st) :=
  (keepsPass env).stmt hd st.at_true

theorem keeps_stmts (hd : 1 ≤ d) (ss : List Stmt) : Keeps env d n (stmts env ss) :=
  (keepsPass env).stmts hd (Stmt.allAt_true ss)

end Classwright.Gen
