import Classwright.Proofs.Body.Iteration
import Classwright.Proofs.Code.Search
import Classwright.Proofs.Unit.Methods

/-!
The bodies of methods. Each of them starts without anything on the stack and is written to its end
(`Code.Sealed`): functions and methods, constructors, the class initializer and the entry point.
-/

namespace Classwright

/-- Code that is followed right and complete. -/
structure Code.Sealed (c : Code) : Prop where
  sound : c.Sound (some 0)
  finished : c.Finished

namespace Gen

/-- Where a method starts. -/
structure Opening (b : Body) : Prop where
  code : b.code = {}
  scopes : b.scopes.Sound

theorem sound_empty : Code.Sound (some 0) {} where
  fault := rfl
  pos_nonneg h := by
    cases h
    exact Int.le_refl 0
  depth h := by simp at h
  tracks h := by
    cases h
    refine ⟨fun _ => none, ⟨rfl, ?_, ?_, ?_, ?_⟩, ?_⟩
    all_goals
      intros
      simp_all

theorem Opening.place (h : Opening b)
    (hknown : b.scopes.Covers known) (hroom : room < Code.limit) : Place (some 0) [] known room b where
  scopes := h.scopes
  known := hknown
  sound := h.code ▸ sound_empty
  room d hd := by
    rw [h.code] at hd
    cases hd
    rwa [show (({} : Code).depth + room) = room from Int.zero_add room]
  base hk hd := by
    rw [h.code] at hd
    cases hk
    cases hd
    rfl
  loop := nofun

/-- What is written from the start of a method has no open labels. -/
theorem Opening.sealed (h : Opening b)
    (h' : Ran (some 0) loops b b') (hdead : b'.code.dead = true) : b'.code.Sealed where
  sound := h'.step.sound
  finished := by
    refine ⟨hdead, ?_⟩
    rintro l ⟨m, hm, hindex⟩
    have hsize : b.code.marks.size ≤ l := by
      rw [h.code]
      exact Nat.zero_le l
    rcases h'.step.new hsize hm with hl | hl
    · cases hl
    · rw [hindex] at hl
      cases hl

theorem Runs.covers
    (h : Runs base loops known known' room m)
    (hsub : ∀ name ∈ known'', name ∈ known') : Runs base loops known known'' room m := by
  intro b hb
  refine (h b hb).mono ?_
  rintro _ b' ⟨hran, hcovers⟩
  exact ⟨hran, fun name hname => hcovers name (hsub name hname)⟩

end Gen

namespace ClassUnit

open Gen

variable {env : Env} {known : List Text} {room : Int} {b : Body}

/-! ### Functions -/

theorem runs_declareParams (hlength : ts.length = ps.length)
    (hts : ∀ t ∈ ts, t.isTight = true ∧ t.isVoid = false) :
    Runs (some 0) [] known (ps.map (·.name) ++ known) room (declareParams env ps ts) := by
  induction ps generalizing ts known with
  | nil =>
    intro b hb
    rw [declareParams]
    exact .pure ⟨.refl hb, hb.known⟩
  | cons p ps ih =>
    cases ts with
    | nil => cases hlength
    | cons t ts =>
      obtain ⟨htight, hvoid⟩ := hts t (.head _)
      have hone : Runs (some 0) [] known (p.name :: known) room
          (Functor.discard (declare env p.tok p.name t false)) := by
        intro b hb
        refine .discard ((hb.at.declare hb.scopes p.tok p.name htight hvoid false).mono ?_)
        rintro v b' ⟨h', hd⟩
        exact ⟨h'.ran hd.extends_ hd.scopes, (hb.known.extends hd.extends_).cons hd.isSome⟩
      have hrest : Runs (some 0) [] (p.name :: known) _ room (declareParams env ps ts) :=
        ih (Nat.succ.inj hlength) fun u hu => hts u (.tail _ hu)
      rw [declareParams]
      refine (hone.bind hrest).covers fun name hname => ?_
      simp only [List.map_cons, List.cons_append, List.mem_cons, List.mem_append] at hname ⊢
      tauto

/-- A function is written to its end. -/
theorem ensures_functionBody (henv : env.Sound) (hloops : env.loops = [])
    (hf : f.Sound) (hsettled : f.decl.isSettled known = true) (hb : Opening b)
    (hknown : b.scopes.Covers known) (hweight : 8 * (f.decl.weight : Int) < Code.limit) :
    Ensures (functionBody env f) b fun _ b' => b'.code.Sealed := by
  obtain ⟨decl, fn⟩ := f
  obtain ⟨tok, pub, name, params, result, ⟨btok, ss⟩⟩ := decl
  rw [FuncDecl.weight, Block.weight] at hweight
  obtain ⟨room, hroom⟩ : ∃ room : Int, room = 8 * (Stmt.weights ss : Int) := ⟨_, rfl⟩
  have hplace : Place (some 0) [] known room b := hb.place hknown (by omega)
  have hparams : Runs (some 0) [] known (params.map (·.name) ++ known) room
      (declareParams env params fn.sig.ins) :=
    runs_declareParams hf.length fun t ht =>
      ⟨(Ty.isProper_iff.1 ((Signature.isProper_iff.1 hf.proper).1 t ht)).1, hf.isVoid t ht⟩
  have hstmts : Runs (some 0) [] _ _ room (stmts env ss) :=
    hloops ▸ runs_stmts henv ss hsettled (by omega)
  refine (hparams b hplace).andThen ?_
  rintro _ b₁ ⟨h₁, hknown₁⟩
  have hplace₁ := hplace.ran h₁ hknown₁
  refine (hstmts b₁ hplace₁).andThen ?_
  rintro _ b₂ ⟨h₂, hknown₂⟩
  have hran := h₁.trans h₂
  refine .bind (.isReachable ?_)
  cases hpos : b₂.code.pos with
  | none => exact .pure (hb.sealed hran (Code.pos_eq_none.1 hpos))
  | some d =>
    dsimp only [Option.isSome]
    rw [if_pos rfl]
    have hplace₂ := hplace₁.ran h₂ hknown₂
    have hret : Ensures (edit (·.ret .void)) b₂ fun _ b' => b'.code.Sealed := by
      refine (At.ret (t := .void) [] hplace₂.at (by omega) (fun k d => hplace₂.base) hplace₂.scopes
        (.refl _)).mono ?_
      rintro _ b₃ ⟨h₃, -, hdead⟩
      exact hb.sealed (hran.trans h₃) hdead
    split
    · exact .bind (.refuse _ _)
    · exact hret

/-! ### Constructors -/

theorem ensures_initFields
    (h : At o own sc 0 b) (hsc : sc.Sound) (hroom : 3 ≤ o.room)
    (hfs : ∀ f ∈ fs, f.Sound) :
    Ensures (initFields s fs) b fun _ b' =>
      At o own b'.scopes 0 b' ∧ sc.Extends b'.scopes ∧ b'.scopes.Sound := by
  induction fs generalizing b sc with
  | nil =>
    cases h.scopes
    exact .pure ⟨h, .refl _, hsc⟩
  | cons f fs ih =>
    have hf := hfs f (.head _)
    have hsize := f.type.size_le_two
    rw [initFields]
    refine (h.alloc hsc f.type).andThen ?_
    rintro slot b₁ ⟨h₁, hext₁, hs₁⟩
    refine (h₁.load (t := s.type) rfl 0 (Int.le_refl _) ?_).andThen fun _ b₂ h₂ => ?_
    · change (0 : Int) + 1 ≤ o.room
      omega
    have h₂ := h₂.congr (m := 1) rfl
    refine (h₂.load hf.isVoid slot (by omega) (by omega)).andThen fun _ b₃ h₃ => ?_
    refine (h₃.putfield hf.tight (by omega) (by omega)).andThen fun _ b₄ h₄ => ?_
    have h₄ := h₄.congr (m := 0) (by omega)
    refine (ih h₄ hs₁ fun g hg => hfs g (.tail _ hg)).mono ?_
    rintro _ b₅ ⟨h₅, hext₅, hs₅⟩
    exact ⟨h₅, hext₁.trans hext₅, hs₅⟩

theorem ensures_constructorBody (hs : s.Sound) (hb : Opening b) :
    Ensures (constructorBody s) b fun _ b' => b'.code.Sealed := by
  have hplace : Place (some 0) [] [] 3 b := hb.place (List.forall_mem_nil _) (by decide)
  refine (hplace.at.load (t := s.type) rfl 0 (Int.le_refl _) ?_).andThen fun _ b₁ h₁ => ?_
  · change (0 : Int) + 1 ≤ 3
    decide
  have h₁ := h₁.congr (m := 1) rfl
  refine (h₁.invoke (p := 1) (q := 0) ⟨[], none⟩ rfl rfl (.inr ⟨.inr (.inl rfl), rfl⟩) rfl
    (Int.le_refl _) (by dsimp only; decide)).andThen fun _ b₂ h₂ => ?_
  have h₂ := h₂.congr (m := 0) rfl
  refine (ensures_initFields h₂ hplace.scopes (Int.le_refl _) fun f hf =>
    (hs.fields f hf).1).andThen ?_
  rintro _ b₃ ⟨h₃, hext₃, hs₃⟩
  refine (At.ret (t := .void) [] h₃ (by decide) (fun k d => hplace.base) hs₃ hext₃).mono ?_
  rintro _ b₄ ⟨h₄, -, hdead⟩
  exact hb.sealed h₄ hdead

/-! ### The class initializer -/

theorem runs_topLevelBody (henv : env.Sound) (hloops : env.loops = [])
    (hss : Stmt.areSettled known ss = true) (hroom : 8 * (Stmt.weights ss : Int) ≤ room) :
    Runs (some 0) [] known (ss.flatMap Stmt.declares ++ known) room (topLevelBody env ss) := by
  induction ss generalizing known with
  | nil =>
    intro b hb
    rw [topLevelBody]
    exact .pure ⟨.refl hb, hb.known⟩
  | cons st ss ih =>
    rw [Stmt.areSettled, Bool.and_eq_true] at hss
    rw [Stmt.weights] at hroom
    have hrest := ih hss.2 (by omega)
    have hsub : ∀ name ∈ (st :: ss).flatMap Stmt.declares ++ known,
        name ∈ ss.flatMap Stmt.declares ++ (st.declares ++ known) := by
      intro name hname
      simp only [List.flatMap_cons, List.mem_append] at hname ⊢
      tauto
    have hstmt : Runs (some 0) [] known (st.declares ++ known) room (stmt env st) :=
      hloops ▸ runs_stmt henv st hss.1 (by omega)
    cases st with
    | func _ | struct _ | typeAlias _ | use _ =>
      rw [topLevelBody]
      exact hrest.covers hsub
    | _ =>
      rw [topLevelBody]
      · exact (hstmt.bind hrest).covers hsub
      all_goals exact fun _ => Stmt.noConfusion

/-- The code of the class initializer is written to its end by a return. -/
theorem sealed_ret (hb : Opening b) (hroom : 0 ≤ room)
    (h : Place (some 0) [] known room b') (hran : Ran (some 0) [] b b') :
    (b'.code.ret .void).Sealed := by
  obtain ⟨-, hret⟩ := At.ret (t := .void) [] h.at hroom (fun k d => h.base) h.scopes (.refl _)
  obtain ⟨h', -, hdead⟩ := hret _ _ rfl
  exact hb.sealed (hran.trans h') hdead

/-! ### The entry point -/

theorem ensures_entryBody (hf : f.sig.isProper = true) (hargs : f.sig.argSize = 0)
    (hresult : f.sig.result.isVoid = true) (hb : Opening b) :
    Ensures (entryBody f) b fun _ b' => b'.code.Sealed := by
  have hplace : Place (some 0) [] [] 3 b := hb.place (List.forall_mem_nil _) (by decide)
  have hsize : f.sig.result.size = 0 := by rw [Ty.isVoid_iff.1 hresult]; rfl
  refine .bind (.discard ((hplace.at.alloc hplace.scopes .object).mono ?_))
  rintro _ b₁ ⟨h₁, hext₁, hs₁⟩
  refine (h₁.invoke f.sig hf rfl (.inl ⟨rfl, hargs.symm⟩) hsize (Int.le_refl _)
    (by dsimp only; decide)).andThen fun _ b₂ h₂ => ?_
  have h₂ := h₂.congr (m := 0) rfl
  refine (At.ret (t := .void) [] h₂ (by decide) (fun k d => hplace.base) hs₁ hext₁).mono ?_
  rintro _ b₃ ⟨h₃, -, hdead⟩
  exact hb.sealed h₃ hdead

end ClassUnit

end Classwright
