import Classwright.Proofs.Body.Composition

/-!
What writing code does to the frame. Every variable in scope has slots of its own below the next free
one, every instruction that is written uses slots that the frame has had, and at the top level the
variables of the outermost scope are the fields that they have become (`Gen.Held`). Code that is
written adds variables to the innermost scope only, in slots that were free before (`Gen.Grows`).
`Gen.Keeps` says that an action does all this; it is closed under what code is put together from, and
only slots that are used have to be known.
-/

namespace Classwright

/-! ### Frames -/

/-- The slots up to the end of a variable; one that is no local takes none. -/
def Var.reach (v : Var) : Nat := if v.kind = .local then v.slot + Frame.width v.type else 0

namespace Body

/-- The first slot of the frame that is free. -/
def next (b : Body) : Nat := (b.scopes.frame.map (·.next)).getD 0

/-- The number of slots that the frame has had. -/
def room (b : Body) : Nat := (b.scopes.frame.map (·.max)).getD 0

/-- The variables in scope, the innermost first. -/
def inScope (b : Body) : List Var := b.scopes.vars.flatten

end Body

namespace Scopes

/-- Leaving a scope frees no slot below those of its variables. -/
theorem le_next_releaseAll (hn : n ≤ f.next)
    (h : ∀ v ∈ vs, v.kind = .local → n ≤ v.slot) :
    n ≤ (releaseAll f vs).next ∧ (releaseAll f vs).next ≤ f.next ∧ (releaseAll f vs).max = f.max := by
  induction vs generalizing f with
  | nil => exact ⟨hn, Nat.le_refl _, rfl⟩
  | cons v vs ih =>
    have hvs := fun w hw => h w (.tail _ hw)
    by_cases hv : v.kind = .local
    · have hslot := h v (.head _) hv
      obtain ⟨h1, h2, h3⟩ := ih (f := f.release v.slot) (Nat.le_min.2 ⟨hn, hslot⟩) hvs
      rw [releaseAll, List.foldl_cons, if_pos hv]
      exact ⟨h1, Nat.le_trans h2 (Nat.min_le_left _ _), h3⟩
    · rw [releaseAll, List.foldl_cons, if_neg hv]
      exact ih hn hvs

/-- A local that is declared has to be new in its scope, and gets the next free slots. -/
theorem declare_local {s : Scopes} (hv : v.kind = .local)
    (h : s.declare v = .ok (w, s')) : ∃ vs outer f, s.vars = vs :: outer ∧ s.frame = some f ∧
      (∀ u ∈ vs, u.name ≠ v.name) ∧ w = { v with slot := f.next } ∧
      s' = ⟨(w :: vs) :: outer, some (f.alloc v.type).2⟩ := by
  unfold declare at h
  split at h
  · cases h
  · next vs outer hvars =>
    rw [if_pos hv] at h
    split at h
    · cases h
    · next hany =>
      split at h
      · cases h
      · next f hf =>
        cases h
        refine ⟨vs, outer, f, hvars, hf, fun u hu hname => hany ?_, rfl, rfl⟩
        exact List.any_eq_true.2 ⟨u, hu, beq_iff_eq.2 hname⟩

/-- Any other variable only has to be new in its scope. -/
theorem declare_other {s : Scopes} (hv : v.kind ≠ .local)
    (h : s.declare v = .ok (w, s')) : ∃ vs outer, s.vars = vs :: outer ∧
      (∀ u ∈ vs, u.name ≠ v.name) ∧ w = v ∧ s' = ⟨(v :: vs) :: outer, s.frame⟩ := by
  unfold declare at h
  split at h
  · cases h
  · next vs outer hvars =>
    rw [if_neg hv] at h
    split at h
    · cases h
    · next hany =>
      cases h
      refine ⟨vs, outer, hvars, fun u hu hname => hany ?_, rfl, rfl⟩
      exact List.any_eq_true.2 ⟨u, hu, beq_iff_eq.2 hname⟩

end Scopes

namespace Gen

/-! ### Bodies -/

/-- Variables of the outermost scope of top level code, the last one first, and the fields that they
have become. -/
structure Listed (vs : List Var) (fs : Array Field) : Prop where
  names : vs.map (·.name) = (fs.toList.map (·.name)).reverse
  nodup : (vs.map (·.name)).Nodup
  kinds : ∀ v ∈ vs, v.kind = .global

/-- A body whose frame has slots for all that is in scope and for all that its instructions use. The
variables of the outermost scope of top level code are the fields of the main class. -/
structure Held (env : Env) (b : Body) : Prop where
  frame : b.scopes.frame.isSome = true
  next : b.next ≤ b.room
  self : env.self.isSome = true → 1 ≤ b.room
  vars : v ∈ b.inScope → v.reach ≤ b.next
  apart : b.inScope.Pairwise fun v w => v.kind = .local → w.reach ≤ v.slot
  code : i ∈ b.code.instrs.toList → i.local? = some u → 0 ≤ u.slot ∧ u.slot + u.family.width ≤ b.room
  fields : env.topLevel = true → ∃ inner vs, b.scopes.vars = inner ++ [vs] ∧ Listed vs b.globals

/-- What has been added to a body is variables of the innermost scope, in slots that were free. -/
structure Grows (b b' : Body) : Prop where
  next : b.next ≤ b'.next
  vars : ∃ new, b'.scopes.vars = b.scopes.vars.modifyHead (new ++ ·) ∧
    ∀ v ∈ new, v.kind = .local → b.next ≤ v.slot

/-- Writing code keeps the frame in order where the first `n` slots are taken and at least `d` scopes
are open; afterwards the slots of the outcome are taken too. -/
def Keeps (env : Env) (d n : Nat) (m : Gen α) (k : α → Nat := fun _ => 0) : Prop :=
  ∀ b, d ≤ b.scopes.vars.length → n ≤ b.next → Held env b →
    After m b fun a b' => Held env b' ∧ Grows b b' ∧ k a ≤ b'.next

variable {env : Env} {d n : Nat} {b b' b'' : Body} {α β : Type}

theorem Grows.refl (b : Body) : Grows b b where
  next := Nat.le_refl _
  vars := ⟨[], by cases b.scopes.vars <;> rfl, fun _ hv => absurd hv List.not_mem_nil⟩

theorem Grows.trans (h : Grows b b') (h' : Grows b' b'') : Grows b b'' where
  next := Nat.le_trans h.next h'.next
  vars := by
    obtain ⟨new, hvars, hnew⟩ := h.vars
    obtain ⟨new', hvars', hnew'⟩ := h'.vars
    refine ⟨new' ++ new, ?_, fun v hv hlocal => ?_⟩
    · rw [hvars', hvars, List.modifyHead_modifyHead]
      exact congrArg (List.modifyHead · _) (funext fun vs => (List.append_assoc ..).symm)
    · rcases List.mem_append.1 hv with hv | hv
      · exact Nat.le_trans h.next (hnew' v hv hlocal)
      · exact hnew v hv hlocal

theorem Grows.length (h : Grows b b') : b'.scopes.vars.length = b.scopes.vars.length := by
  obtain ⟨new, hvars, -⟩ := h.vars
  rw [hvars, List.length_modifyHead]

section
variable {m : Gen α} {f : α → Gen β} {k : α → Nat} {k' : β → Nat}

theorem Keeps.mono (h : Keeps env d n m k) {k' : α → Nat} (hk : ∀ a, k' a ≤ k a) :
    Keeps env d n m k' :=
  fun b hd hn hb => (h b hd hn hb).mono fun a _ ⟨hb', hg, hka⟩ => ⟨hb', hg, Nat.le_trans (hk a) hka⟩

theorem Keeps.weaken (h : Keeps env d n m k) (hd : d ≤ d') (hn : n ≤ n') :
    Keeps env d' n' m k :=
  fun b hd' hn' hb => h b (Nat.le_trans hd hd') (Nat.le_trans hn hn') hb

theorem Keeps.bind (h : Keeps env d n m k) (hf : ∀ a, Keeps env d (max n (k a)) (f a) k') :
    Keeps env d n (m >>= f) k' := by
  intro b hd hn hb
  refine .bind ((h b hd hn hb).mono fun a b' h' => ?_)
  obtain ⟨hb', hg, hk⟩ := h'
  have hn' : max n (k a) ≤ b'.next := Nat.max_le.2 ⟨Nat.le_trans hn hg.next, hk⟩
  refine (hf a b' (hg.length ▸ hd) hn' hb').mono fun a' b'' h'' => ?_
  exact ⟨h''.1, hg.trans h''.2.1, h''.2.2⟩

/-- One thing after another. -/
theorem Keeps.andThen (h : Keeps env d n m) (hf : ∀ a, Keeps env d n (f a) k') :
    Keeps env d n (m >>= f) k' :=
  h.bind fun a => (hf a).weaken (Nat.le_refl _) (Nat.le_max_left ..)

theorem keeps_pure (a : α) : Keeps env d n (Pure.pure a) :=
  fun b _ _ hb => .of_eq rfl ⟨hb, .refl b, Nat.zero_le _⟩

theorem keeps_refuse (tok : Token) (fault : CompileFault) : Keeps env d n (Gen.refuse tok fault) k :=
  fun _ _ _ _ => .of_error rfl

theorem Keeps.discard (h : Keeps env d n m) : Keeps env d n (Functor.discard m) :=
  h.andThen fun _ => keeps_pure _

/-- What depends on the body may rely on the slots that are taken in it. -/
theorem keeps_get {f : Body → Gen β} (h : ∀ b, Held env b → n ≤ b.next → Keeps env d b.next (f b) k') :
    Keeps env d n (get >>= f) k' :=
  fun b hd hn hb => .bind (.of_eq rfl (h b hb hn b hd (Nat.le_refl _) hb))

/-- What is only done under a condition. -/
theorem Keeps.optional {m : Gen PUnit} {f : PUnit → Gen β} [Decidable c]
    (h : Keeps env d n m) (hf : ∀ a, Keeps env d n (f a) k') :
    Keeps env d n (if c then m >>= f else f ⟨⟩) k' := by
  split
  · exact h.andThen hf
  · exact hf _

end

/-! ### Code -/

/-- The code may change as long as it uses slots of the frame only. -/
theorem Held.edit (h : Held env b) {c : Code}
    (hc : ∀ i ∈ c.instrs.toList, ∀ u, i.local? = some u →
      i ∈ b.code.instrs.toList ∨ 0 ≤ u.slot ∧ u.slot + u.family.width ≤ b.room) :
    Held env { b with code := c } where
  frame := h.frame
  next := h.next
  self := h.self
  vars := h.vars
  apart := h.apart
  code {i u} hi hu := by
    rcases hc i hi u hu with hi | hu
    · exact h.code hi hu
    · exact hu
  fields := h.fields

theorem Held.emit (h : Held env b) {i : Instr}
    (hi : ∀ u, i.local? = some u → 0 ≤ u.slot ∧ u.slot + u.family.width ≤ b.room) :
    Held env { b with code := b.code.emit i } := by
  refine h.edit fun j hj u hu => ?_
  rw [Code.instrs_emit, Array.toList_push] at hj
  rcases List.mem_append.1 hj with hj | hj
  · exact .inl hj
  · cases List.mem_singleton.1 hj
    exact .inr (hi u hu)

theorem Held.quiet (h : Held env b) {c : Code} (hc : b.code.Quiet c) : Held env { b with code := c } := by
  rcases hc with rfl | ⟨i, rfl, hi, -⟩
  · exact h
  · exact h.emit fun u hu => by rw [hi] at hu; cases hu

/-- Nothing but the code has changed. -/
theorem grows_edit (b : Body) (c : Code) : Grows b { b with code := c } := { Grows.refl b with }

/-- What neither uses local variables nor jumps. -/
theorem Quiet.keeps (h : Quiet (fun _ _ => True) m) : Keeps env d n m := by
  refine fun b _ _ hb => (h.after b).mono fun _ b' hc => ?_
  obtain ⟨c, hc, rfl⟩ := hc
  refine ⟨?_, grows_edit b c, Nat.zero_le _⟩
  induction hc with
  | refl => exact hb
  | tail _ hstep ih => exact ih.quiet hstep

theorem keeps_newLabel : Keeps env d n newLabel :=
  fun b _ _ hb => .of_eq rfl ⟨hb.edit fun _ hi _ _ => .inl hi, grows_edit b _, Nat.zero_le _⟩

theorem keeps_bind (l : Label) : Keeps env d n (Gen.bind l) := by
  refine fun b _ _ hb => .of_eq rfl ⟨hb.edit fun i hi _ _ => .inl ?_, grows_edit b _, Nat.zero_le _⟩
  rwa [Code.instrs_bind] at hi

theorem keeps_jump {op : Opcode} (h : op.isJump = true) (l : Label) : Keeps env d n (jump op l) := by
  refine fun b _ _ hb => .of_eq rfl ⟨?_, grows_edit b _, Nat.zero_le _⟩
  dsimp only
  rw [Code.jump, Instr.ofParts_jump h]
  exact hb.emit (by rintro _ ⟨⟩)

/-- An instruction on a local variable whose slots are taken. -/
theorem keeps_use {u : LocalUse} (hi : i.local? = some u) (hu : 0 ≤ u.slot)
    (hn : u.slot + u.family.width ≤ n) : Keeps env d n (edit (·.emit i)) := by
  intro b _ hnext hb
  refine .of_eq rfl ⟨hb.emit fun u' hu' => ?_, grows_edit b _, Nat.zero_le _⟩
  cases hi.symm.trans hu'
  have := hb.next
  omega

theorem keeps_load {slot : Nat} (h : slot + Frame.width t ≤ n) :
    Keeps env d n (edit (·.load t slot)) := by
  refine keeps_use (Instr.local?_load t slot) (by simp) ?_
  rw [Family.width_ofTy]
  dsimp only
  omega

theorem keeps_store {slot : Nat} (h : slot + Frame.width t ≤ n) :
    Keeps env d n (edit (·.store t slot)) := by
  refine keeps_use (Instr.local?_store t slot) (by simp) ?_
  rw [Family.width_ofTy]
  dsimp only
  omega

theorem keeps_inc {slot : Nat} (h : slot + 1 ≤ n) (by_ : Int) :
    Keeps env d n (edit (·.inc slot by_)) := by
  refine keeps_use (Instr.local?_inc slot by_) (by simp) ?_
  change (slot : Int) + (1 : Nat) ≤ n
  omega

/-! ### Scopes -/

/-- Taking slots of the frame. -/
theorem next_alloc (hf : b.scopes.frame = some f)
    (hf' : b'.scopes.frame = some (f.alloc t).2) :
    f.next = b.next ∧ b'.next = b.next + Frame.width t ∧ b'.room = max b.room b'.next := by
  rw [Body.next, Body.next, Body.room, Body.room, hf, hf']
  exact ⟨rfl, rfl, rfl⟩

theorem alloc_eq (hf : b.scopes.frame = some f) (t : Ty) :
    alloc t b = .ok (b.next, { b with scopes := { b.scopes with frame := some (f.alloc t).2 } }) := by
  have halloc : b.scopes.alloc? t = some (f.next, { b.scopes with frame := some (f.alloc t).2 }) := by
    rw [Scopes.alloc?, hf]
    rfl
  have hnext : b.next = f.next := by rw [Body.next, hf]; rfl
  rw [alloc, modifyGet_eq, halloc, hnext]

theorem keeps_alloc (t : Ty) : Keeps env d n (alloc t) fun slot => slot + Frame.width t := by
  intro b _ _ hb
  have hle := hb.next
  obtain ⟨f, hf⟩ := Option.isSome_iff_exists.1 hb.frame
  let b' : Body := { b with scopes := { b.scopes with frame := some (f.alloc t).2 } }
  have hf' : b'.scopes.frame = some (f.alloc t).2 := rfl
  obtain ⟨hnext, hnext', hroom⟩ := next_alloc hf hf'
  have hrun : alloc t b = .ok (b.next, b') := alloc_eq hf t
  refine .of_eq hrun ⟨?_, ⟨by omega, (Grows.refl b).vars⟩, by dsimp only; omega⟩
  exact {
    frame := rfl
    next := by omega
    self := fun hself => by have := hb.self hself; omega
    vars := fun hv => by have := hb.vars hv; omega
    apart := hb.apart
    code := fun hi hu => by have := hb.code hi hu; omega
    fields := hb.fields }

/-- A declaration puts a variable into the innermost scope: a local, which gets the next free slots,
or, if that is the outermost scope of top level code, a field. -/
inductive Declared (env : Env) (b : Body) (name : Text) (t : Ty) (isConst : Bool) (v : Var)
    (b' : Body) : Prop
  | local (hvars : b.scopes.vars = vs :: outer) (hframe : b.scopes.frame = some f)
    (houter : env.topLevel = true → outer ≠ []) (hkind : v.kind = .local) (hname : v.name = name)
    (htype : v.type = t) (hslot : v.slot = f.next)
    (hvars' : b'.scopes.vars = (v :: vs) :: outer) (hframe' : b'.scopes.frame = some (f.alloc t).2)
    (hcode : b'.code = b.code) (hglobals : b'.globals = b.globals) (hnew : ∀ w ∈ vs, w.name ≠ name)
  | global (hvars : b.scopes.vars = [vs]) (htop : env.topLevel = true)
    (hnew : ∀ w ∈ vs, w.name ≠ name) (hkind : v.kind = .global) (hname : v.name = name)
    (htype : v.type = t) (hvars' : b'.scopes.vars = [v :: vs])
    (hframe' : b'.scopes.frame = b.scopes.frame) (hcode : b'.code = b.code)
    (hglobals : b'.globals = b.globals.push
      ⟨if isConst then Access.static ||| Access.final else Access.static, name, t.descriptor⟩)
    (hconst : v.const = isConst) (howner : v.owner = env.mainClass)

theorem after_declare (tok : Token) (name : Text) (t : Ty) (isConst : Bool) :
    After (declare env tok name t isConst) b (Declared env b name t isConst) := by
  refine .bind (.of_eq rfl ?_)
  cases hglobal : env.topLevel && b.scopes.isGlobal with
  | false =>
    dsimp only
    split
    · exact .of_error rfl
    · exact .of_error rfl
    · next v s hd =>
      obtain ⟨vs, outer, f, hvars, hframe, hnew, rfl, rfl⟩ := Scopes.declare_local rfl hd
      refine .of_eq rfl
        (.local hvars hframe (fun htop houter => ?_) rfl rfl rfl rfl rfl rfl rfl rfl hnew)
      rw [htop, Scopes.isGlobal, hvars, houter] at hglobal
      cases hglobal
  | true =>
    obtain ⟨htop, hscope⟩ := Bool.and_eq_true_iff.1 hglobal
    dsimp only
    split
    · exact .of_error rfl
    · exact .of_error rfl
    · next v s hd =>
      obtain ⟨vs, outer, hvars, hnew, rfl, rfl⟩ := Scopes.declare_other (by simp) hd
      rw [Scopes.isGlobal, hvars, beq_iff_eq, List.length_cons, Nat.add_eq_right,
        List.length_eq_zero_iff] at hscope
      subst hscope
      exact .of_eq rfl (.global hvars htop hnew rfl rfl rfl rfl rfl rfl rfl rfl rfl)

section
variable {name : Text} {t : Ty} {isConst : Bool} {v : Var} (h : Declared env b name t isConst v b')
include h

theorem Declared.type_eq : v.type = t := by
  cases h with
  | «local» _ _ _ _ _ htype => exact htype
  | global _ _ _ _ _ htype => exact htype

/-- Inside a scope, a variable is a local. -/
theorem Declared.kind (hd : 2 ≤ b.scopes.vars.length) : v.kind = .local := by
  cases h with
  | «local» _ _ _ hkind => exact hkind
  | global hvars =>
    rw [hvars, List.length_singleton] at hd
    omega

/-- A variable inside a scope gets the next free slots. -/
theorem Declared.slot (hd : 2 ≤ b.scopes.vars.length) :
    v.slot = b.next ∧ b'.next = b.next + Frame.width t := by
  cases h with
  | «local» hvars hframe _ _ _ _ hslot _ hframe' =>
    obtain ⟨hnext, hnext', -⟩ := next_alloc hframe hframe'
    exact ⟨hslot.trans hnext, hnext'⟩
  | global hvars =>
    rw [hvars, List.length_singleton] at hd
    omega

theorem Declared.vars : b'.scopes.vars = b.scopes.vars.modifyHead (v :: ·) := by
  cases h with
  | «local» hvars _ _ _ _ _ _ hvars' => rw [hvars, hvars']; rfl
  | global hvars _ _ _ _ _ hvars' => rw [hvars, hvars']; rfl

/-- A variable is new in its scope. -/
theorem Declared.new : ∃ vs outer, b.scopes.vars = vs :: outer ∧
    b'.scopes.vars = (v :: vs) :: outer ∧ ∀ w ∈ vs, w.name ≠ name := by
  cases h with
  | «local» hvars _ _ _ _ _ _ hvars' _ _ _ hnew => exact ⟨_, _, hvars, hvars', hnew⟩
  | global hvars _ hnew _ _ _ hvars' => exact ⟨_, _, hvars, hvars', hnew⟩

theorem Declared.name_eq : v.name = name := by
  cases h with
  | «local» _ _ _ _ hname => exact hname
  | global _ _ _ _ hname => exact hname

theorem Declared.grows : Grows b b' ∧ v.reach ≤ b'.next := by
  cases h with
  | «local» hvars hframe houter hkind hname htype hslot hvars' hframe' =>
    obtain ⟨hnext, hnext', -⟩ := next_alloc hframe hframe'
    refine ⟨⟨by omega, [v], by rw [hvars, hvars']; rfl, ?_⟩, ?_⟩
    · rintro w hw -
      cases List.mem_singleton.1 hw
      omega
    · rw [Var.reach, if_pos hkind, htype]
      omega
  | global hvars htop hnew hkind hname htype hvars' hframe' =>
    have hnext : b'.next = b.next := by rw [Body.next, Body.next, hframe']
    refine ⟨⟨Nat.le_of_eq hnext.symm, [v], by rw [hvars, hvars']; rfl, ?_⟩, ?_⟩
    · intro w hw hlocal
      cases List.mem_singleton.1 hw
      cases hkind.symm.trans hlocal
    · rw [Var.reach, hkind]
      exact Nat.zero_le _

theorem Declared.inScope_eq : b'.inScope = v :: b.inScope := by
  rw [Body.inScope, Body.inScope]
  cases h with
  | «local» hvars _ _ _ _ _ _ hvars' => rw [hvars, hvars']; rfl
  | global hvars _ _ _ _ _ hvars' => rw [hvars, hvars']; rfl

/-- The outermost scope has got a variable with a field, or is what it was. -/
theorem Declared.fields (hb : Held env b) (htop : env.topLevel = true) :
    ∃ inner vs, b'.scopes.vars = inner ++ [vs] ∧ Listed vs b'.globals := by
  obtain ⟨inner, ws, hws, hlisted⟩ := hb.fields htop
  cases h with
  | @«local» vs _ _ hvars _ houter _ _ _ _ hvars' _ _ hglobals =>
    rw [hvars] at hws
    cases inner with
    | nil =>
      cases hws
      exact absurd rfl (houter htop)
    | cons _ inner =>
      cases hws
      exact ⟨(v :: vs) :: inner, ws, hvars', hglobals ▸ hlisted⟩
  | @global vs hvars _ hnew hkind hname _ hvars' _ _ hglobals =>
    obtain rfl : vs = ws := by
      have := congrArg List.getLast? (hvars.symm.trans hws)
      rw [List.getLast?_singleton, List.getLast?_concat] at this
      exact Option.some.inj this
    refine ⟨[], v :: vs, hvars', ?_, ?_, List.forall_mem_cons.2 ⟨hkind, hlisted.kinds⟩⟩
    · rw [List.map_cons, hlisted.names, hname, hglobals, Array.toList_push, List.map_append,
        List.reverse_append, List.map_singleton]
      rfl
    · rw [List.map_cons, List.nodup_cons, hname]
      refine ⟨fun hmem => ?_, hlisted.nodup⟩
      obtain ⟨w, hw, hwname⟩ := List.mem_map.1 hmem
      exact hnew w hw hwname

theorem Declared.held (hb : Held env b) : Held env b' := by
  obtain ⟨hgrows, hreach⟩ := h.grows
  have hnext := hb.next
  have hslots : b'.scopes.frame.isSome = true ∧ b'.next ≤ b'.room ∧ b.room ≤ b'.room ∧
      (v.kind = .local → b.next ≤ v.slot) ∧ b'.code = b.code := by
    cases h with
    | «local» _ hframe _ _ _ _ hslot _ hframe' hcode =>
      obtain ⟨hslot', hnext', hroom⟩ := next_alloc hframe hframe'
      exact ⟨hframe' ▸ rfl, by omega, by omega, fun _ => by omega, hcode⟩
    | global _ _ _ hkind _ _ _ hframe' hcode =>
      rw [Body.next, Body.room, hframe', hkind]
      exact ⟨hb.frame, hb.next, Nat.le_refl _, nofun, hcode⟩
  obtain ⟨hframe, hnext', hroom, hslot, hcode⟩ := hslots
  exact {
    frame := hframe
    next := hnext'
    self := fun hself => Nat.le_trans (hb.self hself) hroom
    vars := fun hw => by
      rw [h.inScope_eq] at hw
      rcases List.mem_cons.1 hw with rfl | hw
      · exact hreach
      · exact Nat.le_trans (hb.vars hw) hgrows.next
    apart := by
      rw [h.inScope_eq, List.pairwise_cons]
      exact ⟨fun w hw hlocal => Nat.le_trans (hb.vars hw) (hslot hlocal), hb.apart⟩
    code := fun hi hu => by
      rw [hcode] at hi
      have := hb.code hi hu
      omega
    fields := h.fields hb }

end

theorem keeps_declare (tok : Token) (name : Text) (t : Ty) (isConst : Bool) :
    Keeps env d n (declare env tok name t isConst) Var.reach :=
  fun _ _ _ hb => (after_declare tok name t isConst).mono fun _ _ h =>
    ⟨h.held hb, h.grows.1, h.grows.2⟩

/-- Inside a scope, the slots of a new variable are those of a local. -/
theorem keeps_declareLocal (hd : 2 ≤ d) (tok : Token) (name : Text) (t : Ty) (isConst : Bool) :
    Keeps env d n (declare env tok name t isConst) fun v => v.slot + Frame.width t := by
  intro b hd' _ hb
  refine (after_declare tok name t isConst).mono fun v b' h => ⟨h.held hb, h.grows.1, ?_⟩
  have := h.grows.2
  rwa [Var.reach, if_pos (h.kind (Nat.le_trans hd hd')), h.type_eq] at this

/-! ### Scopes of their own -/

theorem Held.push (h : Held env b) : Held env { b with scopes := b.scopes.push } where
  frame := h.frame
  next := h.next
  self := h.self
  vars := h.vars
  apart := h.apart
  code := h.code
  fields htop := by
    obtain ⟨inner, vs, hvars, hnames⟩ := h.fields htop
    exact ⟨[] :: inner, vs, congrArg ([] :: ·) hvars, hnames⟩

/-- Leaving a scope brings back the variables from before it, and frees slots of its own only. -/
theorem Held.pop (h : Held env b') (hb : Held env b)
    (hgrows : Grows { b with scopes := b.scopes.push } b') :
    Held env { b' with scopes := b'.scopes.pop } ∧ Grows b { b' with scopes := b'.scopes.pop } := by
  obtain ⟨new, hvars, hnew⟩ := hgrows.vars
  obtain ⟨f, hf⟩ := Option.isSome_iff_exists.1 h.frame
  have hvars : b'.scopes.vars = new :: b.scopes.vars := by
    rw [hvars]
    exact congrArg (· :: _) (List.append_nil new)
  have hpop : b'.scopes.pop = ⟨b.scopes.vars, some (Scopes.releaseAll f new)⟩ := by
    rw [Scopes.pop, hvars, hf]
    rfl
  have hnext : b'.next = f.next := by rw [Body.next, hf]; rfl
  have hroom : b'.room = f.max := by rw [Body.room, hf]; rfl
  have hscope : b'.inScope = new ++ b.inScope := by rw [Body.inScope, hvars]; rfl
  -- What is still in scope ends below the slots that are freed.
  obtain ⟨hle, hle', hmax⟩ := Scopes.le_next_releaseAll (hnext ▸ hgrows.next) hnew
  have hbelow : ∀ v ∈ b.inScope, v.reach ≤ (Scopes.releaseAll f new).next :=
    fun v hv => Nat.le_trans (hb.vars hv) hle
  rw [hpop]
  refine ⟨?_, hle, [], by cases b.scopes.vars <;> rfl, fun _ hv => absurd hv List.not_mem_nil⟩
  exact {
    frame := rfl
    next := by
      have := h.next
      change (Scopes.releaseAll f new).next ≤ (Scopes.releaseAll f new).max
      omega
    self := fun hself => by
      have := h.self hself
      change 1 ≤ (Scopes.releaseAll f new).max
      omega
    vars := fun hv => hbelow _ hv
    apart := hb.apart
    code := fun hi hu => by
      have := h.code hi hu
      rwa [hroom, ← hmax] at this
    fields := fun htop => by
      obtain ⟨inner, vs, hws, hnames⟩ := h.fields htop
      obtain ⟨inner', vs', hws', -⟩ := hb.fields htop
      obtain rfl : vs = vs' := by
        have := congrArg List.getLast? (hvars.symm.trans hws)
        rw [hws', ← List.cons_append, List.getLast?_concat, List.getLast?_concat] at this
        exact (Option.some.inj this).symm
      exact ⟨inner', vs, hws', hnames⟩ }

theorem Keeps.inScope (h : Keeps env (d + 1) n m) :
    Keeps env d n (Gen.inScope m) := by
  intro b hd hn hb
  refine .bind (.of_eq rfl (.bind ?_))
  refine (h { b with scopes := b.scopes.push } (Nat.succ_le_succ hd) hn hb.push).mono fun a b' h' => ?_
  refine .bind (.of_eq rfl (.of_eq rfl ?_))
  obtain ⟨hheld, hgrows⟩ := h'.1.pop hb h'.2.1
  exact ⟨hheld, hgrows, Nat.zero_le _⟩

end Gen

end Classwright
