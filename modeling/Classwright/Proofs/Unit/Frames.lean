import Classwright.Proofs.Body.Kept
import Classwright.Proofs.Unit.Members
import Mathlib

/-!
The frames of whole programs. The parameters of every method are in slots that follow one another in
the order of its descriptor, after the receiver if there is one, and no instruction of the method uses
a slot beyond the number that it is given (`ClassUnit.frames_cover_locals`).
-/

namespace Classwright

/-! ### Slots of parameters -/

namespace Descriptor

/-- The number of slots for a value with a descriptor. -/
def width (t : Text) : Nat := if t = "J" ∨ t = "D" then 2 else 1

/-- The number of slots for values with descriptors. -/
def extent (ts : List Text) : Nat := (ts.map width).sum

/-- The first slots of values that follow one another from a slot on. -/
def offsets : Nat → List Text → List Nat
  | _, [] => []
  | n, t :: ts => n :: offsets (n + width t) ts

@[simp] theorem extent_cons (t : Text) (ts : List Text) : extent (t :: ts) = width t + extent ts := by
  rw [extent, List.map_cons, List.sum_cons, extent]

theorem width_cls (tail : Text) : width (ascii 'L' :: tail) = 1 := by
  refine if_neg ?_
  rintro (h | h) <;> exact absurd (List.cons.inj h).1 (by decide)

/-- A value takes the slots that its descriptor says. -/
theorem width_descriptor (ht : t.isTight = true) : width t.descriptor = Frame.width t := by
  match t with
  | .prim p => cases p <;> rfl
  | .cls name =>
    rw [Ty.descriptor, List.append_assoc]
    exact width_cls _
  | .null | .union ts =>
    rw [Ty.descriptor]
    exact width_cls _
  | .nullable t =>
    obtain ⟨hsize, htight⟩ := Ty.isTight_nullable.1 ht
    rw [Ty.descriptor, width_descriptor htight, Frame.width, hsize]
    rfl
  | .method ins out =>
    rw [Ty.descriptor, List.append_assoc, List.append_assoc]
    refine if_neg ?_
    rintro (h | h) <;> exact absurd (List.cons.inj h).1 (by decide)

end Descriptor

theorem Ty.descriptors_eq (ts : List Ty) : descriptors ts = (ts.map descriptor).flatten := by
  induction ts with
  | nil => rfl
  | cons t ts ih => rw [descriptors, List.map_cons, List.flatten_cons, ih]

/-- Variables for parameters, in slots that follow one another. -/
structure Parameters (n : Nat) (ps : List Binding) (ts : List Ty) (vs : List Var) : Prop where
  names : vs.map (·.name) = ps.map (·.name)
  types : vs.map (·.type) = ts
  kinds : ∀ v ∈ vs, v.kind = .local
  slots : vs.map (·.slot) = Descriptor.offsets n (ts.map (·.descriptor))

/-- The local variables that code uses, in the order of its instructions. -/
def Code.uses (c : Code) : List LocalUse := c.instrs.toList.filterMap Instr.local?

namespace ClassUnit

open Gen

variable {env : Env} {b : Body}

/-! ### Functions -/

theorem after_declareParams (hb : Held env b)
    (hd : 2 ≤ b.scopes.vars.length) (hlen : ts.length = ps.length)
    (hts : ∀ t ∈ ts, t.isTight = true) :
    After (declareParams env ps ts) b fun _ b' => Held env b' ∧
      b'.next = b.next + Descriptor.extent (ts.map (·.descriptor)) ∧
      ∃ vs, Parameters b.next ps ts vs ∧
        b'.scopes.vars = b.scopes.vars.modifyHead (vs.reverse ++ ·) := by
  induction ps generalizing ts b with
  | nil =>
    cases List.length_eq_zero_iff.1 hlen
    refine .of_eq rfl ⟨hb, rfl, [], ⟨rfl, rfl, List.forall_mem_nil _, rfl⟩, ?_⟩
    cases b.scopes.vars <;> rfl
  | cons p ps ih =>
    cases ts with
    | nil => cases hlen
    | cons t ts =>
      obtain ⟨htight, hts⟩ := List.forall_mem_cons.1 hts
      have hwidth := Descriptor.width_descriptor htight
      rw [declareParams]
      refine .bind (.discard ((after_declare p.tok p.name t false).mono fun v b₁ h => ?_))
      have hd₁ : 2 ≤ b₁.scopes.vars.length := h.grows.1.length ▸ hd
      obtain ⟨hslot, hnext⟩ := h.slot hd
      refine (ih (h.held hb) hd₁ (Nat.succ.inj hlen) hts).mono fun _ b₂ h₂ => ?_
      obtain ⟨hb₂, hnext₂, vs, hvs, hvars⟩ := h₂
      refine ⟨hb₂, ?_, v :: vs, ?_, ?_⟩
      · rw [hnext₂, hnext, List.map_cons, Descriptor.extent_cons, hwidth]
        omega
      · refine ⟨?_, ?_, List.forall_mem_cons.2 ⟨h.kind hd, hvs.kinds⟩, ?_⟩
        · rw [List.map_cons, List.map_cons, h.name_eq, hvs.names]
        · rw [List.map_cons, h.type_eq, hvs.types]
        · rw [List.map_cons, List.map_cons, Descriptor.offsets, hslot, hvs.slots, hnext, hwidth]
      · rw [hvars, h.vars, List.modifyHead_modifyHead, List.reverse_cons]
        exact congrArg (List.modifyHead · _) (funext fun us => by simp)

/-- What follows the declaration of the parameters. -/
theorem keeps_functionRest (hd : 1 ≤ d) (f : DeclaredFunction) :
    Keeps env d n (do
      Gen.stmts env f.decl.body.stmts
      if ← Gen.isReachable then
        if !f.fn.sig.result.isVoid then Gen.refuse f.decl.tok .missingResult
        Gen.edit (·.ret .void)) := by
  refine (keeps_stmts hd _).andThen fun _ => quiet_isReachable.keeps.andThen fun reached => ?_
  split
  · exact .optional (keeps_refuse _ _) fun _ => (quiet_edit fun c => c.quiet_ret _).keeps
  · exact keeps_pure _

/-- The parameters of a function are the first variables of its scope, and its other variables come
after them. -/
theorem after_functionBody (hb : Held env b) (hd : 2 ≤ b.scopes.vars.length)
    (hlen : f.fn.sig.ins.length = f.decl.params.length)
    (hts : ∀ t ∈ f.fn.sig.ins, t.isTight = true) :
    After (functionBody env f) b fun _ b' => Held env b' ∧
      b.next + Descriptor.extent (f.fn.sig.ins.map (·.descriptor)) ≤ b'.next ∧
      ∃ vs new, Parameters b.next f.decl.params f.fn.sig.ins vs ∧
        b'.scopes.vars = b.scopes.vars.modifyHead (new ++ vs.reverse ++ ·) ∧
        ∀ v ∈ new, v.kind = .local →
          b.next + Descriptor.extent (f.fn.sig.ins.map (·.descriptor)) ≤ v.slot := by
  refine .bind ((after_declareParams hb hd hlen hts).mono fun _ b₁ h₁ => ?_)
  obtain ⟨hb₁, hnext, vs, hvs, hvars⟩ := h₁
  have hd₁ : 1 ≤ b₁.scopes.vars.length := by
    rw [hvars, List.length_modifyHead]
    omega
  refine (keeps_functionRest hd₁ f b₁ (Nat.le_refl _) (Nat.le_refl _) hb₁).mono fun _ b₂ h₂ => ?_
  obtain ⟨hb₂, hgrows, -⟩ := h₂
  obtain ⟨new, hvars₂, hnew⟩ := hgrows.vars
  refine ⟨hb₂, hnext ▸ hgrows.next, vs, new, hvs, ?_, fun v hv hlocal => hnext ▸ hnew v hv hlocal⟩
  rw [hvars₂, hvars, List.modifyHead_modifyHead]
  exact congrArg (List.modifyHead · _) (funext fun us => by simp)

/-! ### Constructors and entry points -/

theorem uses_emit (c : Code) (i : Instr) : (c.emit i).uses = c.uses ++ i.local?.toList := by
  rw [Code.uses, Code.instrs_emit, Array.toList_push, List.filterMap_append]
  refine congrArg (c.uses ++ ·) ?_
  cases h : i.local? with
  | none => rw [List.filterMap_cons_none h]; rfl
  | some u => rw [List.filterMap_cons_some h]; rfl

theorem uses_load (c : Code) (t : Ty) (slot : Int) :
    (c.load t slot).uses = c.uses ++ [⟨slot, .ofTy t, false⟩] := by
  have h := uses_emit c ⟨Opcode.iload.forType t, .slot slot⟩
  rwa [Instr.local?_load] at h

/-- What neither uses local variables nor jumps leaves the frame alone. -/
theorem after_quiet (h : Quiet (fun _ _ => True) m) :
    After m b fun _ b' => b'.code.uses = b.code.uses ∧ b'.scopes = b.scopes := by
  refine (h.after b).mono fun _ b' hc => ?_
  obtain ⟨c, hc, rfl⟩ := hc
  refine ⟨?_, rfl⟩
  induction hc with
  | refl => rfl
  | tail _ hstep ih =>
    rcases hstep with rfl | ⟨i, rfl, hi, -⟩
    · exact ih
    · rw [uses_emit, hi]
      exact (List.append_nil _).trans ih

/-- The receiver in slot zero. -/
def selfUse : LocalUse := ⟨0, .ref, false⟩

/-- What a constructor loads to store parameters from a slot on into fields. -/
def fieldUses (n : Nat) (fs : List Var) : List LocalUse :=
  (fs.zip (Descriptor.offsets n (fs.map (·.type.descriptor)))).flatMap fun x =>
    [selfUse, ⟨x.2, .ofTy x.1.type, false⟩]

theorem fieldUses_cons (n : Nat) (f : Var) (fs : List Var) :
    fieldUses n (f :: fs) = selfUse :: ⟨n, .ofTy f.type, false⟩ ::
      fieldUses (n + Descriptor.width f.type.descriptor) fs := rfl

theorem after_initFields (hframe : b.scopes.frame.isSome = true)
    (hfs : ∀ f ∈ fs, f.type.isTight = true) :
    After (initFields s fs) b fun _ b' => b'.code.uses = b.code.uses ++ fieldUses b.next fs ∧
      b'.next = b.next + Descriptor.extent (fs.map (·.type.descriptor)) := by
  induction fs generalizing b with
  | nil => exact .of_eq rfl ⟨(List.append_nil _).symm, rfl⟩
  | cons f fs ih =>
    obtain ⟨htight, hfs⟩ := List.forall_mem_cons.1 hfs
    have hwidth := Descriptor.width_descriptor htight
    obtain ⟨fr, hfr⟩ := Option.isSome_iff_exists.1 hframe
    rw [initFields]
    refine .bind (.of_eq (alloc_eq hfr f.type) (.bind (.of_eq rfl (.bind (.of_eq rfl (.bind ?_))))))
    refine (after_quiet (quiet_field (by decide) _ _)).mono fun _ b₁ h₁ => ?_
    obtain ⟨huses, hscopes⟩ := h₁
    have hnext : b₁.next = b.next + Frame.width f.type := (next_alloc hfr (hscopes ▸ rfl)).2.1
    refine (ih (by rw [hscopes]; rfl) hfs).mono fun _ b₂ h₂ => ?_
    obtain ⟨huses₂, hnext₂⟩ := h₂
    refine ⟨?_, by rw [hnext₂, hnext, List.map_cons, Descriptor.extent_cons, hwidth]; omega⟩
    rw [huses₂, huses, hnext, fieldUses_cons, hwidth]
    dsimp only
    rw [uses_load, uses_load, List.append_assoc, List.append_assoc]
    rfl

theorem keeps_initFields (hn : 1 ≤ n) (s : StructType) (fs : List Var) :
    Keeps env d n (initFields s fs) := by
  induction fs generalizing n with
  | nil => exact keeps_pure _
  | cons f fs ih =>
    rw [initFields]
    refine (keeps_alloc f.type).bind fun slot => ?_
    have hself : 0 + Frame.width s.type ≤ max n (slot + Frame.width f.type) :=
      Nat.le_trans hn (Nat.le_max_left ..)
    refine (keeps_load hself).andThen fun _ => (keeps_load (Nat.le_max_right ..)).andThen fun _ => ?_
    exact (quiet_field (by decide) _ _).keeps.andThen fun _ => ih (Nat.le_trans hn (Nat.le_max_left ..))

theorem keeps_constructorBody (hn : 1 ≤ n) (s : StructType) :
    Keeps env d n (constructorBody s) := by
  have hself : 0 + Frame.width s.type ≤ n := hn
  refine (keeps_load hself).andThen fun _ => (quiet_invoke _ _ _ _).keeps.andThen fun _ => ?_
  exact (keeps_initFields hn s _).andThen fun _ => (quiet_edit fun c => c.quiet_ret _).keeps

/-- A constructor loads its parameters from slots that follow one another. -/
theorem after_constructorBody (hframe : b.scopes.frame.isSome = true)
    (hfields : ∀ f ∈ s.fields, f.type.isTight = true) :
    After (constructorBody s) b fun _ b' =>
      b'.code.uses = b.code.uses ++ selfUse :: fieldUses b.next s.fields ∧
      b'.next = b.next + Descriptor.extent (s.fields.map (·.type.descriptor)) := by
  refine .bind (.of_eq rfl (.bind ?_))
  refine (after_quiet (quiet_invoke _ _ _ _)).mono fun _ b₁ h₁ => .bind ?_
  obtain ⟨huses₁, hscopes₁⟩ := h₁
  have hnext₁ : b₁.next = b.next := by rw [Body.next, Body.next, hscopes₁]
  refine (after_initFields (by rw [hscopes₁]; exact hframe) hfields).mono fun _ b₂ h₂ => ?_
  obtain ⟨huses₂, hnext₂⟩ := h₂
  refine (after_quiet (quiet_edit fun c => c.quiet_ret _)).mono fun _ b₃ h₃ => ?_
  obtain ⟨huses₃, hscopes₃⟩ := h₃
  have hnext₃ : b₃.next = b₂.next := by rw [Body.next, Body.next, hscopes₃]
  refine ⟨?_, by rw [hnext₃, hnext₂, hnext₁]⟩
  rw [huses₃, huses₂, huses₁, hnext₁]
  dsimp only
  rw [uses_load, List.append_assoc]
  rfl

theorem keeps_entryBody (f : Function) : Keeps env d n (entryBody f) := by
  refine ((keeps_alloc _).mono fun _ => Nat.zero_le _).discard.andThen fun _ => ?_
  exact (quiet_invoke _ _ _ _).keeps.andThen fun _ => (quiet_edit fun c => c.quiet_ret _).keeps

/-- The entry point has a slot for its parameter, which nothing uses. -/
theorem after_entryBody (hframe : b.scopes.frame.isSome = true) :
    After (entryBody f) b fun _ b' => b'.code.uses = b.code.uses ∧ b'.next = b.next + 1 := by
  obtain ⟨fr, hfr⟩ := Option.isSome_iff_exists.1 hframe
  refine .bind (.discard (.of_eq (alloc_eq hfr .object) (.bind ?_)))
  refine (after_quiet (quiet_invoke _ _ _ _)).mono fun _ b₁ h₁ => ?_
  refine (after_quiet (quiet_edit fun c => c.quiet_ret _)).mono fun _ b₂ h₂ => ?_
  have hframe₂ : b₂.scopes.frame = some (fr.alloc .object).2 := by rw [h₂.2, h₁.2]
  exact ⟨h₂.1.trans h₁.1, (next_alloc hfr hframe₂).2.1⟩

/-! ### Top level code -/

theorem keeps_topLevelBody (hd : 1 ≤ d) (ss : List Stmt) :
    Keeps env d n (topLevelBody env ss) := by
  induction ss with
  | nil => exact keeps_pure _
  | cons s ss ih =>
    rcases topLevelBody_cons env s ss with h | h
    · rwa [h]
    · rw [h]
      exact (keeps_stmt hd s).andThen fun _ => ih

/-- The variables of top level code are the fields of the main class. -/
theorem of_topLevelBody (h : topLevelBody env ss staticStart = .ok ((), b))
    (hself : env.self = none) (htop : env.topLevel = true) :
    Held env b ∧ ∃ vs, b.scopes.vars = [vs] ∧ Listed vs b.globals := by
  have hstart : Held env staticStart := {
    frame := rfl
    next := Nat.le_refl _
    self := fun hs => by rw [hself] at hs; cases hs
    vars := fun hv => absurd hv List.not_mem_nil
    apart := .nil
    code := fun hi => absurd hi List.not_mem_nil
    fields := fun _ => ⟨[], [], rfl, rfl, List.nodup_nil, List.forall_mem_nil _⟩ }
  obtain ⟨hb, hgrows, -⟩ := keeps_topLevelBody (Nat.le_refl 1) ss staticStart (Nat.le_refl _)
    (Nat.le_refl _) hstart () b h
  obtain ⟨inner, vs, hvars, hlisted⟩ := hb.fields htop
  have hlength := hgrows.length
  rw [hvars, List.length_append] at hlength
  cases List.length_eq_zero_iff.1 (Nat.add_right_cancel hlength : inner.length = 0)
  exact ⟨hb, vs, hvars, hlisted⟩

/-! ### Where methods start -/

/-- A method starts without locals, in a frame with a slot for its receiver at most. -/
theorem held_start (htop : env.topLevel = false) (hcode : b.code = {})
    (hframe : b.scopes.frame.isSome = true) (hroom : b.room = b.next)
    (hself : env.self.isSome = true → 1 ≤ b.room)
    (hvars : ∀ vs ∈ b.scopes.vars, ∀ v ∈ vs, v.kind ≠ .local) : Held env b := by
  have hvars : ∀ v ∈ b.inScope, v.kind ≠ .local := by
    intro v hv
    obtain ⟨vs, hvs, hv⟩ := List.mem_flatten.1 hv
    exact hvars vs hvs v hv
  exact {
    frame := hframe
    next := Nat.le_of_eq hroom.symm
    self := hself
    vars := fun {v} hv => by
      rw [Var.reach, if_neg (hvars v hv)]
      exact Nat.zero_le _
    apart := List.pairwise_of_forall_mem_list fun v hv w _ hlocal => absurd hlocal (hvars v hv)
    code := fun hi => by
      rw [hcode] at hi
      cases hi
    fields := fun h => by
      rw [htop] at h
      cases h }

variable {d : Declared} {p : Program} {globals : List Var}

/-- The variables of top level code are no locals. -/
theorem kind_of_globals (hd : d.env.IsOuter) (h : Globals d p globals) :
    ∀ v ∈ globals, v.kind ≠ .local := by
  cases h with
  | none => exact List.forall_mem_nil _
  | @main b _ hb =>
    obtain ⟨-, vs, hvars, hlisted⟩ := of_topLevelBody hb hd.self rfl
    intro v hv hlocal
    rw [hvars] at hv
    cases (hlisted.kinds v hv).symm.trans hlocal

theorem of_fieldScope {P : Var → Prop} (hglobals : ∀ v ∈ globals, P v)
    (hfields : ∀ v ∈ s.fields, v.kind = .field ∧ P v) :
    (fieldScope globals s).vars ≠ [] ∧ ∀ vs ∈ (fieldScope globals s).vars, ∀ v ∈ vs, P v := by
  refine List.foldlRecOn (motive := fun sc : Scopes => sc.vars ≠ [] ∧ ∀ vs ∈ sc.vars, ∀ v ∈ vs, P v)
    s.fields _ ⟨List.cons_ne_nil _ _, ?_⟩ ?_
  · intro vs hvs
    rcases List.mem_cons.1 hvs with rfl | hvs
    · exact List.forall_mem_nil _
    · cases List.mem_singleton.1 hvs
      exact hglobals
  · intro sc hsc f hf
    obtain ⟨hkind, hP⟩ := hfields f hf
    split
    · next w sc' hdeclare =>
      obtain ⟨vs, outer, hvars, -, rfl, rfl⟩ :=
        Scopes.declare_other (by rw [hkind]; exact nofun) hdeclare
      refine ⟨List.cons_ne_nil _ _, fun us hus v hv => ?_⟩
      rcases List.mem_cons.1 hus with rfl | hus
      · rcases List.mem_cons.1 hv with rfl | hv
        · exact hP
        · exact hsc.2 vs (hvars ▸ .head _) v hv
      · exact hsc.2 us (hvars ▸ .tail _ hus) v hv
    · exact hsc

/-- A function starts in an empty scope of its own, inside those of top level code and of its
struct. -/
theorem vars_functionStart {P : Var → Prop} (hglobals : ∀ v ∈ globals, P v)
    (hfields : ∀ s, env.self = some s → ∀ v ∈ s.fields, v.kind = .field ∧ P v)
    (f : DeclaredFunction) :
    ∃ outer, (functionStart env globals f).scopes.vars = [] :: outer ∧ outer ≠ [] ∧
      ∀ vs ∈ outer, ∀ v ∈ vs, P v := by
  unfold functionStart
  cases hself : env.self with
  | none =>
    refine ⟨_, rfl, List.cons_ne_nil _ _, fun vs hvs => ?_⟩
    cases List.mem_singleton.1 hvs
    exact hglobals
  | some s =>
    obtain ⟨hne, hvars⟩ := of_fieldScope hglobals (hfields s hself)
    exact ⟨_, rfl, hne, hvars⟩

/-- The parameters of a function come after the slot of its receiver. -/
theorem of_functionStart (htop : env.topLevel = false) (hglobals : ∀ v ∈ globals, v.kind ≠ .local)
    (hfields : ∀ s, env.self = some s → ∀ v ∈ s.fields, v.kind = .field)
    (hb : functionStart env globals f = b) :
    Held env b ∧ b.next = (if env.self.isNone then 0 else 1) ∧
      ∃ outer, b.scopes.vars = [] :: outer ∧ outer ≠ [] := by
  obtain ⟨outer, hvars, hne, hkinds⟩ := vars_functionStart hglobals
    (fun s hs v hv => ⟨hfields s hs v hv, by rw [hfields s hs v hv]; exact nofun⟩) f
  subst hb
  have hkinds : ∀ vs ∈ (functionStart env globals f).scopes.vars, ∀ v ∈ vs, v.kind ≠ .local := by
    rw [hvars]
    exact List.forall_mem_cons.2 ⟨List.forall_mem_nil _, hkinds⟩
  have hframe : (functionStart env globals f).scopes.frame.isSome = true ∧
      (functionStart env globals f).next = (if env.self.isNone then 0 else 1) ∧
      (functionStart env globals f).room = (functionStart env globals f).next := by
    unfold functionStart
    cases env.self <;> exact ⟨rfl, rfl, rfl⟩
  obtain ⟨hsome, hnext, hroom⟩ := hframe
  refine ⟨held_start htop rfl hsome hroom (fun hself => ?_) hkinds, hnext, outer, hvars, hne⟩
  obtain ⟨s, hs⟩ := Option.isSome_iff_exists.1 hself
  rw [hroom, hnext, hs]
  exact Nat.le_refl 1

/-! ### Methods -/

/-- The first slot of the parameters of a method. -/
def receiver (access : Access) : Nat := if access.has Access.static then 0 else 1

/-- Where a method has its parameters, from a slot on, and the descriptors that they have. Functions
and methods declare them as the first variables of their scope; constructors load them one by one; the
entry point does not use its own. -/
inductive Placed (d : Declared) (name desc : Text) (b : Body) (n : Nat) : List Text → Prop
  | variables : f ∈ d.functions ∨ (∃ s ∈ d.env.structs, f ∈ s.declared) → name = f.decl.name →
    desc = f.fn.sig.descriptor → Parameters n f.decl.params f.fn.sig.ins vs →
    b.scopes.vars = (new ++ vs.reverse) :: outer →
    (∀ v ∈ new, v.kind = .local →
      n + Descriptor.extent (f.fn.sig.ins.map (·.descriptor)) ≤ v.slot) →
    Placed d name desc b n (f.fn.sig.ins.map (·.descriptor))
  | loads : s ∈ d.env.structs → name = "<init>" → desc = s.constructor.descriptor →
    b.code.uses = selfUse :: fieldUses n s.fields →
    Placed d name desc b n (s.fields.map (·.type.descriptor))
  | unused : name = "main" → desc = "([Ljava/lang/String;)V" → b.code.uses = [] →
    Placed d name desc b n ["[Ljava/lang/String;"]
  | none : name = "<clinit>" → desc = "()V" → Placed d name desc b n []

/-- A method whose frame covers its parameters and all local variables that it uses. -/
structure Covered (d : Declared) (access : Access) (name desc : Text) (b : Body) (ds : List Text) :
    Prop where
  placed : Placed d name desc b (receiver access) ds
  desc : ∃ r, desc = "(" ++ ds.flatten ++ ")" ++ r
  params : receiver access + Descriptor.extent ds ≤ b.room
  uses : ∀ i ∈ b.code.instrs.toList, ∀ u, i.local? = some u →
    0 ≤ u.slot ∧ u.slot + u.family.width ≤ b.room

theorem descriptor_params (sig : Signature) :
    ∃ r, sig.descriptor = "(" ++ (sig.ins.map (·.descriptor)).flatten ++ ")" ++ r := by
  rw [Signature.descriptor, Ty.descriptor, Ty.descriptors_eq]
  exact ⟨_, rfl⟩

section
variable {options : UnitOptions} {env : Env} (hd : d.env.IsOuter) (hmeans : Means options p env)
  (h : Members env p.stmts d)
include hd hmeans

/-- The code of a function or a method is covered by its frame. -/
theorem covered_function
    (hb : functionBody env' f (functionStart env' globals f) = .ok ((), b))
    (htop : env'.topLevel = false)
    (hfields : ∀ s, env'.self = some s → ∀ v ∈ s.fields, v.kind = .field)
    (hf : f ∈ d.functions ∨ ∃ s ∈ d.env.structs, f ∈ s.declared) (hstated : f.Stated env)
    (hg : Globals d p globals) {access : Access}
    (haccess : receiver access = if env'.self.isNone then 0 else 1) :
    Covered d access f.fn.name f.fn.sig.descriptor b (f.fn.sig.ins.map (·.descriptor)) := by
  obtain ⟨hlen, htight⟩ := Env.of_signature (P := fun t => t.isTight = true)
    (fun _ _ _ ht _ => Env.tight_of_typeRef hmeans.tight ht) hstated.sig
  obtain ⟨hstart, hnext, outer, hvars, houter⟩ :=
    of_functionStart htop (kind_of_globals hd hg) hfields (f := f) rfl
  have hdepth : 2 ≤ (functionStart env' globals f).scopes.vars.length := by
    rw [hvars, List.length_cons]
    exact Nat.succ_le_succ (List.length_pos_iff.2 houter)
  obtain ⟨hheld, hroom, vs, new, hvs, hvars', hnew⟩ :=
    after_functionBody hstart hdepth hlen htight () b hb
  rw [hnext, ← haccess] at hroom hvs hnew
  have hscope : b.scopes.vars = (new ++ vs.reverse) :: outer := by
    rw [hvars', hvars]
    exact congrArg (· :: outer) (List.append_nil _)
  exact {
    placed := .variables hf hstated.name rfl hvs hscope hnew
    desc := descriptor_params _
    params := Nat.le_trans hroom hheld.next
    uses := fun _ hi _ hu => hheld.code hi hu }

include h

/-- Every method of a program is covered by its frame. -/
theorem covered_of_written {access : Access} {desc : Text}
    (hb : Written d p access name desc b) : ∃ ds, Covered d access name desc b ds := by
  cases hb with
  | @initializer b _ hb =>
    obtain ⟨hheld, -⟩ := of_topLevelBody hb hd.self rfl
    have hret := hheld.quiet (b.code.quiet_ret .void)
    exact ⟨[], .none rfl rfl, ⟨"V", rfl⟩, Nat.zero_le _, fun _ hi _ hu => hret.code hi hu⟩
  | @function globals f _ hg hf hb =>
    have hself : d.env.self = Option.none := hd.self
    refine ⟨_, covered_function hd hmeans hb hd.topLevel ?_ (.inl hf) (h.functions f hf).1 hg ?_⟩
    · intro s hs
      rw [hself] at hs
      cases hs
    · rw [hself]
      rfl
  | @method globals s f _ hg hs hf hb =>
    have hstated := h.structs s hs
    refine ⟨_, covered_function hd hmeans hb hd.topLevel ?_ (.inr ⟨s, hs, hf⟩)
      (hstated.declared f hf).1 hg rfl⟩
    rintro _ ⟨⟩ v hv
    exact (hstated.fields v hv).1
  | @constructor globals s _ hg hs hb =>
    have hstated := h.structs s hs
    have htight : ∀ f ∈ s.fields, f.type.isTight = true := by
      intro f hf
      obtain ⟨-, -, r, hr⟩ := hstated.fields f hf
      exact Env.tight_of_typeRef hmeans.tight hr
    have hstart : Held { d.env with self := some s } (constructorStart globals) := by
      refine held_start hd.topLevel rfl rfl rfl (fun _ => Nat.le_refl 1) fun vs hvs => ?_
      rcases List.mem_cons.1 hvs with rfl | hvs
      · exact List.forall_mem_nil _
      · cases List.mem_singleton.1 hvs
        exact kind_of_globals hd hg
    have hreceiver : (constructorStart globals).next = receiver Access.pub := rfl
    obtain ⟨hheld, -⟩ := keeps_constructorBody (Nat.le_refl 1) s (constructorStart globals)
      (Nat.zero_le _) (Nat.le_refl 1) hstart () b hb
    obtain ⟨huses, hnext⟩ := after_constructorBody rfl htight () b hb
    rw [hreceiver] at huses hnext
    have hle := hheld.next
    rw [hnext] at hle
    refine ⟨s.fields.map (·.type.descriptor), .loads hs rfl rfl huses, ?_, hle,
      fun _ hi _ hu => hheld.code hi hu⟩
    have := descriptor_params s.constructor
    rwa [StructType.constructor, List.map_map] at this
  | @entry f _ hf hvoid hb =>
    have hstart : Held d.env staticStart := by
      refine held_start hd.topLevel rfl rfl rfl (by rw [hd.self]; exact nofun) fun vs hvs => ?_
      cases List.mem_singleton.1 hvs
      exact List.forall_mem_nil _
    obtain ⟨hheld, -⟩ := keeps_entryBody f _ (Nat.zero_le _) (Nat.zero_le _) hstart () b hb
    obtain ⟨huses, hnext⟩ := after_entryBody rfl () b hb
    have hle := hheld.next
    rw [hnext] at hle
    exact ⟨_, .unused rfl rfl huses, ⟨"V", rfl⟩, hle, fun _ hi _ hu => hheld.code hi hu⟩

end

theorem maxLocals_of_makes (h : Makes b m) : m.maxLocals = b.room := by
  obtain ⟨q, q', h⟩ := h
  unfold ClassFile.build at h
  dsimp only at h
  split at h
  · cases h
  · split at h
    · cases h
    · split at h
      · cases h
      · have hm := Except.ok.inj (Prod.mk.inj h).1
        rw [← hm]
        dsimp only
        rw [locals, Body.room]
        cases b.scopes.frame <;> rfl

/-- A source with parameters of one and two slots, a struct with a method, and a loop. -/
def sampleFrames : Text :=
  "type P = struct \x7b\n x: long\n s: string?\n def get(k: double, n: int): double \x7b\n"
    ++ "  for i: 0..n \x7b k += i \x7d\n  return k\n \x7d\n\x7d\n"
    ++ "def main() \x7b println(new P(7, null).get(1.5, 3)) \x7d\n"

end ClassUnit

end Classwright
