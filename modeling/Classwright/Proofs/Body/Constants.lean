import Classwright.Proofs.Body.Kept

/-!
Writing to static fields. A global is written to where it is declared, and after that only if it may
change: as long as no field of a name may change, code writes to the fields of that name as often as
they are declared (`Gen.writes_stmt`).
-/

namespace Classwright

/-- Whether a field is a constant of its class. -/
def Field.isConst (f : Field) : Bool := f.access.has .static && f.access.has .final

/-- The static fields that code writes to, in the order of its instructions. -/
def Code.statics (c : Code) : List MemberRef := c.instrs.toList.filterMap Instr.static?

theorem Code.statics_emit (c : Code) (i : Instr) :
    (c.emit i).statics = c.statics ++ i.static?.toList := by
  rw [statics, instrs_emit, Array.toList_push, List.filterMap_append]
  refine congrArg (c.statics ++ ·) ?_
  cases h : i.static? with
  | none => rw [List.filterMap_cons_none h]; rfl
  | some u => rw [List.filterMap_cons_some h]; rfl

theorem Code.Quiet.statics_eq {c : Code} (h : c.Quiet c') : c'.statics = c.statics := by
  rcases h with rfl | ⟨i, rfl, -, -, hi, -⟩
  · rfl
  · rw [statics_emit, hi]
    exact List.append_nil _

namespace Body

/-- Some field of a name may change. -/
def Loose (name : Text) (b : Body) : Prop := ∃ f ∈ b.globals, f.name = name ∧ f.isConst = false

/-- The globals of a name are constants, unless some field of that name may change. -/
def Guarded (name : Text) (b : Body) : Prop :=
  ∀ v ∈ b.inScope, v.kind = .global → v.name = name → v.const = true ∨ b.Loose name

/-- The fields of a class with a name that the code of a body writes to. -/
def writes (cls name : Text) (b : Body) : List MemberRef :=
  b.code.statics.filter fun r => r.cls = cls && r.name = name

/-- The fields with a name that a body declares. -/
def declares (cls name : Text) (b : Body) : List MemberRef :=
  (b.globals.toList.filter (·.name = name)).map fun f => { cls := cls, name := f.name, desc := f.desc }

end Body

namespace Gen

/-- What has been added to a body writes to the fields of a name as often as it declares them, unless
some field of that name may change. -/
structure WritesOnce (env : Env) (name : Text) (b b' : Body) : Prop where
  depth : b'.scopes.vars.length = b.scopes.vars.length
  globals : b.globals.toList <+: b'.globals.toList
  topLevel : env.topLevel = false → b'.globals = b.globals
  writes : ¬ b'.Loose name → ∃ new, b'.writes env.mainClass name = b.writes env.mainClass name ++ new ∧
    b'.declares env.mainClass name = b.declares env.mainClass name ++ new

/-- Writing code writes to every constant once, where at least `d` scopes are open; `loose` says that
some field of the name is known to change. -/
def Writes (env : Env) (name : Text) (d : Nat) (loose : Prop) (m : Gen α) : Prop :=
  ∀ b, d ≤ b.scopes.vars.length → (loose → b.Loose name) → b.Guarded name →
    After m b fun _ b' => b'.Guarded name ∧ WritesOnce env name b b'

variable {env : Env} {name : Text} {d : Nat} {loose : Prop} {b b' b'' : Body} {α β : Type}

theorem Loose.mono (h : b.globals.toList <+: b'.globals.toList) (hb : b.Loose name) :
    b'.Loose name := by
  obtain ⟨f, hf, hloose⟩ := hb
  exact ⟨f, Array.mem_toList_iff.1 (h.subset (Array.mem_toList_iff.2 hf)), hloose⟩

theorem WritesOnce.refl (b : Body) : WritesOnce env name b b where
  depth := rfl
  globals := List.prefix_rfl
  topLevel _ := rfl
  writes _ := ⟨[], (List.append_nil _).symm, (List.append_nil _).symm⟩

theorem WritesOnce.trans (h : WritesOnce env name b b') (h' : WritesOnce env name b' b'') :
    WritesOnce env name b b'' where
  depth := h'.depth.trans h.depth
  globals := h.globals.trans h'.globals
  topLevel htop := (h'.topLevel htop).trans (h.topLevel htop)
  writes hloose := by
    obtain ⟨new, hwrites, hdeclares⟩ := h.writes fun hb' => hloose (Loose.mono h'.globals hb')
    obtain ⟨new', hwrites', hdeclares'⟩ := h'.writes hloose
    refine ⟨new ++ new', ?_, ?_⟩
    · rw [hwrites', hwrites, List.append_assoc]
    · rw [hdeclares', hdeclares, List.append_assoc]

/-- Nothing but the code has changed, and it writes to no more fields of the name. -/
theorem writesOnce_edit (hc : ¬ b.Loose name →
      Body.writes env.mainClass name { b with code := c } = b.writes env.mainClass name) :
    WritesOnce env name b { b with code := c } where
  depth := rfl
  globals := List.prefix_rfl
  topLevel _ := rfl
  writes hloose := ⟨[], (hc hloose).trans (List.append_nil _).symm, (List.append_nil _).symm⟩

theorem writes_congr (hc : c.statics = b.code.statics) :
    Body.writes cls name { b with code := c } = b.writes cls name := by
  rw [Body.writes, hc, Body.writes]

/-! ### Actions -/

theorem writes_code
    (h : ∀ b, After m b fun _ b' => ∃ c, c.statics = b.code.statics ∧ b' = { b with code := c }) :
    Writes env name d loose m := by
  intro b _ _ hb
  refine (h b).mono fun _ b' h' => ?_
  obtain ⟨c, hc, rfl⟩ := h'
  exact ⟨hb, writesOnce_edit fun _ => writes_congr hc⟩

theorem writes_emit (hi : i.static? = none) : Writes env name d loose (edit (·.emit i)) :=
  writes_code fun b => .of_eq rfl ⟨_, by rw [Code.statics_emit, hi]; exact List.append_nil _, rfl⟩

theorem Quiet.writes {m : Gen α} (h : Quiet (fun _ _ => True) m) : Writes env name d loose m := by
  refine writes_code fun b => (h.after b).mono fun _ b' h' => ?_
  obtain ⟨c, hc, rfl⟩ := h'
  refine ⟨c, ?_, rfl⟩
  induction hc with
  | refl => rfl
  | tail _ hstep ih => exact hstep.statics_eq.trans ih

theorem Writes.bind (h : Writes env name d loose m)
    (hf : ∀ a, Writes env name d loose (f a)) : Writes env name d loose (m >>= f) := by
  intro b hd hloose hb
  refine .bind ((h b hd hloose hb).mono fun a b' h' => ?_)
  obtain ⟨hb', honce⟩ := h'
  refine (hf a b' (honce.depth ▸ hd) (fun hl => Loose.mono honce.globals (hloose hl)) hb').mono
    fun _ b'' h'' => ?_
  exact ⟨h''.1, honce.trans h''.2⟩

theorem composes_writes : Composes (fun _ _ => True) env fun m => Writes env name d loose m where
  quiet := Quiet.writes
  bind := Writes.bind
  lift _ h b hd hloose hb := .bind (.lift fun a ha => h a ha b hd hloose hb)
  self _ := writes_emit rfl

/-! ### Globals -/

/-- A global that may change is written to. -/
theorem writes_put (hv : v.name = name → loose) :
    Writes env name d loose (field .putstatic v.owner v) := by
  intro b _ hloose hb
  refine (after_field _ _ _ b).mono fun _ b' h => ?_
  obtain ⟨pop, push, -, rfl⟩ := h
  refine ⟨hb, writesOnce_edit fun hl => ?_⟩
  have hname : v.name ≠ name := fun hname => hl (hloose (hv hname))
  rw [Body.writes, Code.statics_emit, List.filter_append]
  simp [Instr.static?, hname, Body.writes]

section
variable {name' : Text} {t : Ty} {isConst : Bool} {v : Var}

/-- A local leaves the fields as they are. -/
theorem Declared.writesOnce (h : Declared env b name' t isConst v b') (hlocal : v.kind = .local)
    (hb : b.Guarded name) : b'.Guarded name ∧ WritesOnce env name b b' := by
  have hscope := h.inScope_eq
  cases h with
  | global _ _ _ hkind => cases hkind.symm.trans hlocal
  | «local» hvars _ _ _ _ _ _ hvars' _ hcode hglobals =>
    have hloose : b'.Loose name ↔ b.Loose name := by rw [Body.Loose, Body.Loose, hglobals]
    refine ⟨fun w hw hglobal hname => ?_, ?_⟩
    · rw [hscope] at hw
      rcases List.mem_cons.1 hw with rfl | hw
      · cases hlocal.symm.trans hglobal
      · rw [hloose]
        exact hb w hw hglobal hname
    · exact {
        depth := by rw [hvars, hvars']; rfl
        globals := hglobals ▸ List.prefix_rfl
        topLevel := fun _ => hglobals
        writes := fun _ => ⟨[], by rw [Body.writes, hcode, List.append_nil]; rfl,
          by rw [Body.declares, hglobals, List.append_nil]; rfl⟩ }

/-- A global is written to once where it is declared. -/
theorem Declared.writesOnce_put (h : Declared env b name' t isConst v b') (hglobal : v.kind = .global)
    (hb : b.Guarded name) {c : Code} (hc : c.statics = b'.code.statics) :
    let b'' : Body := { b' with
      code := c.emit ⟨.putstatic, .member ⟨v.owner, v.name, v.type.descriptor, false⟩ pop push⟩ }
    b''.Guarded name ∧ WritesOnce env name b b'' := by
  have hscope := h.inScope_eq
  cases h with
  | «local» _ _ _ hkind => cases hkind.symm.trans hglobal
  | global hvars htop _ _ hname htype hvars' _ hcode hglobals hconst howner =>
    have hprefix : b.globals.toList <+: b'.globals.toList := by
      rw [hglobals, Array.toList_push]
      exact List.prefix_append _ _
    refine ⟨fun w hw hkind hw' => ?_, ?_⟩
    · change w ∈ b'.inScope at hw
      rw [hscope] at hw
      rcases List.mem_cons.1 hw with rfl | hw
      · rw [hconst]
        cases isConst with
        | true => exact .inl rfl
        | false =>
          have hstatic : (Access.static.has .static && Access.static.has .final) = false := by decide
          refine .inr ⟨⟨Access.static, name', t.descriptor⟩, ?_, hname.symm.trans hw', hstatic⟩
          change _ ∈ b'.globals
          rw [hglobals]
          exact Array.mem_push_self
      · exact (hb w hw hkind hw').imp_right (Loose.mono hprefix)
    · refine {
        depth := by rw [hvars']; exact (congrArg List.length hvars).symm
        globals := hprefix
        topLevel := fun h => by rw [h] at htop; cases htop
        writes := fun _ => ?_ }
      rw [Body.writes, Code.statics_emit, hc, hcode, List.filter_append, Body.declares]
      dsimp only
      rw [hglobals, Array.toList_push, List.filter_append, List.map_append, hname, htype, howner]
      by_cases hname' : name' = name
      · subst hname'
        exact ⟨_, rfl, by simp [Instr.static?, Body.declares]⟩
      · exact ⟨[], by simp [Instr.static?, hname', Body.writes], by simp [hname', Body.declares]⟩

/-- Storing into a new variable, after code that writes to no static field. -/
theorem Declared.after_store (h : Declared env b name' t isConst v b') (hb : b.Guarded name)
    (hc : c.statics = b'.code.statics) :
    After (store v) { b' with code := c } fun _ b'' => b''.Guarded name ∧ WritesOnce env name b b'' := by
  have hkind : v.kind = .local ∨ v.kind = .global := by
    cases h with
    | «local» _ _ _ hkind => exact .inl hkind
    | global _ _ _ hkind => exact .inr hkind
  unfold store
  rcases hkind with hlocal | hglobal
  · obtain ⟨hb', honce⟩ := h.writesOnce hlocal hb
    rw [hlocal]
    refine .of_eq rfl ⟨hb', honce.trans (writesOnce_edit fun _ => writes_congr ?_)⟩
    exact (Code.statics_emit _ _).trans ((List.append_nil _).trans hc)
  · rw [hglobal]
    refine (after_field _ _ _ _).mono fun _ b'' h'' => ?_
    obtain ⟨pop, push, -, rfl⟩ := h''
    exact h.writesOnce_put hglobal hb hc

end

theorem writes_declareStore {t : Ty} (tok : Token) (name' : Text) (isConst keep : Bool)
    (hm : Writes env name d loose m) : Writes env name d loose (do
      let v ← declare env tok name' t isConst
      if keep then edit (·.dup t 0)
      store v
      m) := by
  intro b hd hloose hb
  refine .bind ((after_declare tok name' t isConst).mono fun v b₁ h₁ => ?_)
  have hstore {c : Code} (hc : c.statics = b₁.code.statics) :
      After (do store v; m) { b₁ with code := c } fun _ b' => b'.Guarded name ∧ WritesOnce env name b b' := by
    refine .bind ((h₁.after_store hb hc).mono fun _ b₂ h₂ => ?_)
    obtain ⟨hb₂, honce⟩ := h₂
    refine (hm b₂ (honce.depth ▸ hd) (fun hl => Loose.mono honce.globals (hloose hl)) hb₂).mono
      fun _ b₃ h₃ => ?_
    exact ⟨h₃.1, honce.trans h₃.2⟩
  cases keep with
  | false => exact hstore rfl
  | true => exact .bind (.of_eq rfl (hstore (b₁.code.quiet_dup t 0).statics_eq))

/-! ### All code -/

theorem Writes.inScope (h : Writes env name (d + 1) loose m) :
    Writes env name d loose (Gen.inScope m) := by
  intro b hd hloose hb
  refine .bind (.of_eq rfl (.bind ?_))
  refine (h { b with scopes := b.scopes.push } (Nat.succ_le_succ hd) hloose hb).mono fun a b' h' => ?_
  obtain ⟨hb', honce⟩ := h'
  have hdepth : b'.scopes.vars.length = b.scopes.vars.length + 1 := honce.depth
  obtain ⟨vs, outer, hvars⟩ := List.exists_cons_of_length_eq_add_one hdepth
  have hpop : b'.scopes.pop.vars = outer := by rw [Scopes.pop, hvars]
  refine .bind (.of_eq rfl (.of_eq rfl ⟨fun v hv => ?_, ?_⟩))
  · refine hb' v ?_
    change v ∈ b'.scopes.pop.vars.flatten at hv
    rw [hpop] at hv
    rw [Body.inScope, hvars]
    exact List.mem_append_right _ hv
  · exact {
      depth := by
        change b'.scopes.pop.vars.length = _
        rw [hvars, List.length_cons] at hdepth
        rw [hpop]
        exact Nat.succ.inj hdepth
      globals := honce.globals
      topLevel := honce.topLevel
      writes := honce.writes }

theorem writes_get (h : ∀ b, (loose → b.Loose name) → b.Guarded name →
      Writes env name d (b.Loose name) (f b)) : Writes env name d loose (get >>= f) :=
  fun b hd hloose hb => .bind (.of_eq rfl (h b hloose hb b hd id hb))

theorem writes_alloc (t : Ty) : Writes env name d loose (alloc t) := by
  intro b _ _ hb
  unfold alloc
  refine .of_eq (modifyGet_eq _ _) ?_
  cases halloc : b.scopes.alloc? t with
  | none => exact ⟨hb, .refl b⟩
  | some r =>
    unfold Scopes.alloc? at halloc
    obtain ⟨f, -, rfl⟩ := Option.map_eq_some_iff.1 halloc
    have hrefl : WritesOnce env name b b := .refl b
    exact ⟨hb, { hrefl with }⟩

theorem writes_declareLocal (hd : 2 ≤ d) (tok : Token) (name' : Text) (t : Ty) (isConst : Bool) :
    Writes env name d loose (declare env tok name' t isConst) := by
  intro b hd' _ hb
  refine (after_declare tok name' t isConst).mono fun v b' h => ?_
  exact h.writesOnce (h.kind (Nat.le_trans hd hd')) hb

theorem seen_of_guarded (hb : b.Guarded name)
    (hv : b.scopes.lookup? name' = some v) :
    v.kind = .global → v.name = name → v.const = true ∨ b.Loose name := by
  obtain ⟨vs, hvs, hfind⟩ := List.exists_of_findSome?_eq_some hv
  exact hb v (List.mem_flatten.2 ⟨vs, hvs, List.mem_of_find?_eq_some hfind⟩)

/-- Writing to constants once, where it may be known that some field of a name changes. -/
def writesPass (env : Env) (name : Text) : Pass env Prop where
  Holds d loose _ m := Writes env name d loose m
  Taken _ _ _ := True
  Seen loose v := v.kind = .global → v.name = name → v.const = true ∨ loose
  Own _ _ := True
  Target _ := True
  Unnamed _ _ := True
  Place _ _ := True
  taken_mono _ h := h
  taken_of_seen _ _ := trivial
  own_mono _ h := h
  composes _ _ := composes_writes
  newLabel h := (writes_code fun b => .of_eq rfl ⟨b.code.newLabel.2, rfl, rfl⟩).bind fun l =>
    h _ l le_rfl trivial
  bindLabel _ := writes_code fun b => .of_eq rfl ⟨_, by rw [Code.statics, Code.instrs_bind]; rfl, rfl⟩
  jump hop l := by
    unfold jump Code.jump
    rw [Instr.ofParts_jump hop]
    exact writes_emit rfl
  loadSlot _ := writes_emit rfl
  storeSlot _ := writes_emit rfl
  incSlot _ _ := writes_emit rfl
  put hv hconst hglobal := writes_put fun hname => (hv hglobal hname).resolve_left (by simp [hconst])
  get h := writes_get fun b hloose hb =>
    h (b.Loose name) b hloose (fun _ _ hv => seen_of_guarded hb hv) fun _ _ _ => trivial
  alloc h := (writes_alloc _).bind fun slot => h _ slot le_rfl trivial
  declareLocal name' isConst _ hd h :=
    (writes_declareLocal hd _ name' _ isConst).bind fun v => h _ v le_rfl trivial
  target _ := trivial
  unnamed _ _ := trivial
  declareStore isConst keep _ _ h := writes_declareStore _ _ isConst keep (h _ le_rfl)
  inScope := Writes.inScope

theorem writes_stmt (hd : 1 ≤ d) (st : Stmt) : Writes env name d loose (stmt env st) :=
  (writesPass env name).stmt hd st.at_true

theorem writes_stmts (hd : 1 ≤ d) (ss : List Stmt) : Writes env name d loose (stmts env ss) :=
  (writesPass env name).stmts hd (Stmt.allAt_true ss)

end Gen

end Classwright
