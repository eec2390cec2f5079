import Classwright.Proofs.Unit.Bodies
import Mathlib

/-!
The stack discipline of whole programs. Where assignments declare variables only as statements of
their own, no method of a program is refused for what its code does with the stack
(`ClassUnit.stack_discipline`): every depth agrees with every other way to the same place, and every
return is reached with its operand alone on the stack.

Depths are words, so there has to be room for them: a program has fewer than 2^60 nodes. Calls take the
slots of their descriptors, so the types of functions have to take the same ones. They do in all
registries that come about (`Registry.Supplied.isProper`), but not in a package with a semicolon in its
name, or for a function with a result that no descriptor spells (`ClassUnit.not_stack_discipline`).
-/

namespace Classwright

/-! ### Parts of programs -/

theorem Stmt.weight_le_weights (h : s ∈ ss) :
    s.weight ≤ Stmt.weights ss := by
  induction ss with
  | nil => cases h
  | cons t ss ih =>
    rw [Stmt.weights]
    rcases List.mem_cons.1 h with rfl | h
    · omega
    · have := ih h
      omega

theorem FuncDecl.weight_le_weights (h : d ∈ ds) :
    d.weight ≤ FuncDecl.weights ds := by
  induction ds with
  | nil => cases h
  | cons e ds ih =>
    rw [FuncDecl.weights]
    rcases List.mem_cons.1 h with rfl | h
    · omega
    · have := ih h
      omega

namespace Program

variable {p : Program}

theorem weight_of_func (h : .func d ∈ p.stmts) : d.weight ≤ p.weight := by
  have := Stmt.weight_le_weights h
  rw [Stmt.weight] at this
  rw [weight]
  omega

theorem weight_of_method (h : .struct sd ∈ p.stmts)
    (hd : d ∈ sd.methods) : d.weight ≤ p.weight := by
  have hstruct := Stmt.weight_le_weights h
  have hmethod := FuncDecl.weight_le_weights hd
  obtain ⟨tok, pub, name, fields, methods⟩ := sd
  rw [Stmt.weight, StructDecl.weight] at hstruct
  rw [weight]
  change _ ≤ FuncDecl.weights methods at hmethod
  omega

theorem isSettled_of_func (hp : p.isSettled = true) (h : .func d ∈ p.stmts) :
    d.isSettled p.globals = true := by
  rw [isSettled, Bool.and_eq_true, List.all_eq_true] at hp
  exact hp.2 _ h

theorem isSettled_of_method (hp : p.isSettled = true)
    (h : .struct sd ∈ p.stmts) (hd : d ∈ sd.methods) :
    d.isSettled (sd.fields.map (·.name) ++ p.globals) = true := by
  rw [isSettled, Bool.and_eq_true, List.all_eq_true] at hp
  exact List.all_eq_true.1 (hp.2 _ h) d hd

/-- Without a main class there are no variables of top level code. -/
theorem globals_eq_nil (h : p.hasMain = false) : p.globals = [] := by
  rw [hasMain, List.any_eq_false] at h
  rw [globals, List.flatMap_eq_nil_iff]
  intro s hs
  have := h s hs
  cases s with
  | struct _ | typeAlias _ | use _ => rfl
  | _ => exact absurd rfl this

end Program

/-! ### Scopes that methods start in -/

namespace Scopes

theorem Sound.enter {s : Scopes} (h : ∀ vs ∈ s.vars, ∀ v ∈ vs, v.Sound) (isStatic : Bool) {t : Ty}
    (ht : t.isTight = true) : (s.enter isStatic (some t)).Sound where
  vars vs hvs := by
    rcases List.mem_cons.1 hvs with rfl | hvs
    · exact List.forall_mem_nil _
    · exact h vs hvs
  result hf hu := by
    cases isStatic <;> cases hf <;> cases hu <;> exact ht

theorem Covers.enter {s : Scopes} {known : List Text} (h : s.Covers known) (isStatic : Bool)
    (t : Option Ty) : (s.enter isStatic t).Covers known := by
  intro name hname
  have := h name hname
  rw [← lookup?_push] at this
  exact this

theorem covers_globals
    (h : ∀ name ∈ known, (globals.find? (·.name == name)).isSome = true) :
    ({ vars := [globals] } : Scopes).Covers known := by
  intro name hname
  obtain ⟨v, hv⟩ := Option.isSome_iff_exists.1 (h name hname)
  rw [lookup?, List.findSome?_cons, hv]
  rfl

end Scopes

namespace ClassUnit

open Gen

/-- Declaring fields one by one gives all their names, also where one is there already. -/
theorem of_declareAll {fs : List Var} (hfs : ∀ f ∈ fs, f.Sound) (hkinds : ∀ f ∈ fs, f.kind = .field)
    {sc : Scopes} (hsc : sc.Sound) (hvars : sc.vars ≠ []) {known : List Text}
    (hknown : sc.Covers known) :
    let sc' := fs.foldl (fun scopes v =>
      match scopes.declare v with
      | .ok (_, scopes) => scopes
      | .error _ => scopes) sc
    sc'.Sound ∧ sc'.Covers (fs.map (·.name) ++ known) := by
  induction fs generalizing sc known with
  | nil => exact ⟨hsc, hknown⟩
  | cons f fs ih =>
    have hrest := fun {sc : Scopes} => @ih (fun g hg => hfs g (.tail _ hg))
      (fun g hg => hkinds g (.tail _ hg)) sc
    have hmem : ∀ {sc' : Scopes}, sc'.Covers (fs.map (·.name) ++ (f.name :: known)) →
        sc'.Covers ((f :: fs).map (·.name) ++ known) := by
      intro sc' h name hname
      refine h name ?_
      simp only [List.map_cons, List.cons_append, List.mem_cons, List.mem_append] at hname ⊢
      tauto
    rw [List.foldl_cons]
    cases hd : sc.declare f with
    | ok r =>
      obtain ⟨v, sc₁⟩ := r
      obtain ⟨hext, hlookup⟩ := Scopes.extends_of_declare hd
      obtain ⟨-, -, -, ⟨vs, outer, -, hvars₁⟩, -⟩ := Scopes.of_declare hd
      obtain ⟨hsound, hcovers⟩ := hrest (hsc.declare (hfs f (.head _)) hd).2
        (by rw [hvars₁]; exact List.cons_ne_nil _ _) ((hknown.extends hext).cons hlookup)
      exact ⟨hsound, hmem hcovers⟩
    | error e =>
      -- only a name that is there already is refused
      have hlookup : (sc.lookup? f.name).isSome = true := by
        unfold Scopes.declare at hd
        split at hd
        · exact absurd ‹_› hvars
        · next vs outer hvs =>
          split at hd
          · next hany =>
            obtain ⟨v, hv, hname⟩ := List.any_eq_true.1 hany
            rw [Scopes.lookup?, hvs, List.findSome?_cons]
            cases hfind : vs.find? (·.name == f.name) with
            | some w => rfl
            | none => exact absurd hname (List.find?_eq_none.1 hfind v hv)
          · rw [if_neg (by rw [hkinds f (.head _)]; decide)] at hd
            cases hd
      obtain ⟨hsound, hcovers⟩ := hrest hsc hvars (hknown.cons hlookup)
      exact ⟨hsound, hmem hcovers⟩

/-- The variables of top level code are sound, and functions see all their names. -/
structure GlobalsSound (p : Program) (globals : List Var) : Prop where
  sound : ∀ v ∈ globals, v.Sound
  known : ∀ name ∈ p.globals, (globals.find? (·.name == name)).isSome = true

variable {d : Declared} {p : Program} {globals : List Var}

theorem GlobalsSound.fieldScope (h : GlobalsSound p globals) {s : StructType} (hs : s.Sound) :
    (fieldScope globals s).Sound ∧
      (ClassUnit.fieldScope globals s).Covers (s.fields.map (·.name) ++ p.globals) := by
  have hstart : ({ vars := [globals] } : Scopes).push.Sound := by
    refine ⟨fun vs hvs => ?_, nofun⟩
    rcases List.mem_cons.1 hvs with rfl | hvs
    · exact List.forall_mem_nil _
    · cases List.mem_singleton.1 hvs
      exact h.sound
  exact of_declareAll (fun f hf => (hs.fields f hf).1) hs.kinds hstart (List.cons_ne_nil _ _)
    (Scopes.covers_globals h.known).push

/-- A program to which the discipline applies, with what it declares. -/
structure Disciplined (p : Program) (d : Declared) : Prop where
  declared : d.Sound p.stmts
  settled : p.isSettled = true
  weight : 8 * (p.weight : Int) < Code.limit

theorem opening_staticStart : Opening staticStart where
  code := rfl
  scopes := by
    refine ⟨fun vs hvs => ?_, ?_⟩
    · cases List.mem_singleton.1 hvs
      exact List.forall_mem_nil _
    · rintro f t ⟨⟩ ⟨⟩
      rfl

theorem GlobalsSound.opening_constructorStart (h : GlobalsSound p globals) :
    Opening (constructorStart globals) where
  code := rfl
  scopes := by
    refine Scopes.Sound.enter (fun vs hvs => ?_) false rfl
    cases List.mem_singleton.1 hvs
    exact h.sound

/-- A function of the program starts where it knows the variables of top level code. -/
theorem GlobalsSound.function (h : GlobalsSound p globals) {env : Env} (hself : env.self = none)
    {f : DeclaredFunction} (hf : f.Sound) :
    Opening (functionStart env globals f) ∧
      (functionStart env globals f).scopes.Covers p.globals := by
  unfold functionStart
  rw [hself]
  have ht := (Ty.isProper_iff.1 (Signature.isProper_iff.1 hf.proper).2).1
  refine ⟨⟨rfl, Scopes.Sound.enter (fun vs hvs => ?_) _ ht⟩,
    (Scopes.covers_globals h.known).enter _ _⟩
  cases List.mem_singleton.1 hvs
  exact h.sound

/-- A method starts where it knows the fields of its struct too. -/
theorem GlobalsSound.method (h : GlobalsSound p globals) {env : Env} {s : StructType}
    (hself : env.self = some s) (hs : s.Sound) {f : DeclaredFunction} (hf : f.Sound) :
    Opening (functionStart env globals f) ∧
      (functionStart env globals f).scopes.Covers (s.fields.map (·.name) ++ p.globals) := by
  unfold functionStart
  rw [hself]
  have ht := (Ty.isProper_iff.1 (Signature.isProper_iff.1 hf.proper).2).1
  obtain ⟨hsound, hcovers⟩ := h.fieldScope hs
  exact ⟨⟨rfl, Scopes.Sound.enter hsound.vars _ ht⟩, hcovers.enter _ _⟩

/-! ### Bodies -/

section
variable (h : Disciplined p d)
include h

/-- Top level code runs, and leaves variables that functions may use. -/
theorem Disciplined.topLevel :
    Ensures (topLevelBody { d.env with topLevel := true } p.stmts) staticStart fun _ b =>
      GlobalsSound p (b.scopes.vars.headD []) ∧ (b.code.ret .void).Sealed := by
  have henv : ({ d.env with topLevel := true } : Env).Sound :=
    ⟨h.declared.env.structs, h.declared.env.self, h.declared.env.aliases, h.declared.env.funcs⟩
  have hsettled : Stmt.areSettled [] p.stmts = true := by
    have := h.settled
    rw [Program.isSettled, Bool.and_eq_true] at this
    exact this.1
  have hplace : Place (some 0) [] [] (8 * (p.weight : Int)) staticStart :=
    opening_staticStart.place (List.forall_mem_nil _) h.weight
  refine (runs_topLevelBody henv h.declared.loops hsettled (Int.le_refl _) _ hplace).mono ?_
  rintro _ b ⟨hran, hcovers⟩
  refine ⟨⟨fun v hv => ?_, fun name hname => ?_⟩,
    sealed_ret opening_staticStart (by omega) (hplace.ran hran hcovers) hran⟩
  · cases hvars : b.scopes.vars with
    | nil =>
      rw [hvars] at hv
      cases hv
    | cons vs outer =>
      rw [hvars] at hv
      exact hran.scopes.vars vs (hvars ▸ .head _) v hv
  · have htail : b.scopes.vars.tail = [] := hran.extends_.tail
    have hsome := hcovers name (List.mem_append_left _ hname)
    unfold Scopes.lookup? at hsome
    cases hvars : b.scopes.vars with
    | nil =>
      rw [hvars] at hsome
      cases hsome
    | cons vs outer =>
      rw [hvars] at htail hsome
      cases htail
      rw [List.findSome?_cons] at hsome
      cases hfind : vs.find? (·.name == name) with
      | none =>
        rw [hfind] at hsome
        cases hsome
      | some v =>
        change (vs.find? (·.name == name)).isSome = true
        rw [hfind]
        rfl

theorem Disciplined.globalsSound (hg : Globals d p globals) :
    GlobalsSound p globals := by
  cases hg with
  | none hmain =>
    refine ⟨List.forall_mem_nil _, ?_⟩
    rw [Program.globals_eq_nil hmain]
    exact List.forall_mem_nil _
  | main _ hb => exact (h.topLevel.2 _ _ hb).1

theorem Disciplined.function (hg : GlobalsSound p globals)
    (hf : f ∈ d.functions) :
    Ensures (functionBody d.env f) (functionStart d.env globals f) fun _ b => b.code.Sealed := by
  obtain ⟨hsound, hmem⟩ := h.declared.functions f hf
  obtain ⟨hopening, hcovers⟩ := hg.function h.declared.self hsound
  have hweight := Program.weight_of_func hmem
  have hlimit := h.weight
  exact ensures_functionBody h.declared.env h.declared.loops hsound
    (Program.isSettled_of_func h.settled hmem) hopening hcovers (by omega)

theorem Disciplined.method (hg : GlobalsSound p globals) {s : StructType}
    (hs : s ∈ d.env.structs) {f : DeclaredFunction} (hf : f ∈ s.declared) :
    Ensures (functionBody { d.env with self := some s } f)
      (functionStart { d.env with self := some s } globals f) fun _ b => b.code.Sealed := by
  have hstruct := h.declared.env.structs s hs
  obtain ⟨hsound, sd, hmem, hdecl, hfields⟩ := h.declared.methods s hs f hf
  have henv : ({ d.env with self := some s } : Env).Sound := by
    refine ⟨h.declared.env.structs, ?_, h.declared.env.aliases, h.declared.env.funcs⟩
    rintro _ ⟨⟩
    exact hstruct
  obtain ⟨hopening, hcovers⟩ :=
    @GlobalsSound.method _ _ hg { d.env with self := some s } s rfl hstruct f hsound
  have hweight := Program.weight_of_method hmem hdecl
  have hlimit := h.weight
  refine ensures_functionBody henv h.declared.loops hsound
    (Program.isSettled_of_method h.settled hmem hdecl) hopening (fun name hname => ?_) (by omega)
  refine hcovers name ?_
  rcases List.mem_append.1 hname with hname | hname
  · obtain ⟨b, hb, rfl⟩ := List.mem_map.1 hname
    obtain ⟨v, hv, hvname⟩ := hfields b hb
    exact List.mem_append_left _ (List.mem_map.2 ⟨v, hv, hvname⟩)
  · exact List.mem_append_right _ hname

theorem Disciplined.constructor (hg : GlobalsSound p globals)
    (hs : s ∈ d.env.structs) :
    Ensures (constructorBody s) (constructorStart globals) fun _ b => b.code.Sealed :=
  ensures_constructorBody (h.declared.env.structs s hs) hg.opening_constructorStart

theorem Disciplined.entry
    (hf : d.env.funcs.findExact? "main" [] = some f) (hvoid : f.sig.result.isVoid = true) :
    Ensures (entryBody f) staticStart fun _ b => b.code.Sealed := by
  have hmem := Registry.mem_of_mem_overloads (List.mem_of_find?_eq_some hf)
  have hsame := List.find?_some hf
  refine ensures_entryBody (h.declared.env.funcs f hmem) ?_ hvoid opening_staticStart
  cases hins : f.sig.ins with
  | nil => rw [Signature.argSize, hins]; rfl
  | cons t ts => simp [hins, Ty.sameAll] at hsame

/-- The bodies of all methods are written to their ends. -/
theorem Disciplined.sealed {access : Access} {name desc : Text}
    (hb : Written d p access name desc b) : b.code.Sealed := by
  cases hb with
  | initializer _ hb => exact (h.topLevel.2 _ _ hb).2
  | function hg hf hb => exact (h.function (h.globalsSound hg) hf).2 _ _ hb
  | method hg hs hf hb => exact (h.method (h.globalsSound hg) hs hf).2 _ _ hb
  | constructor hg hs hb => exact (h.constructor (h.globalsSound hg) hs).2 _ _ hb
  | entry hf hvoid hb => exact (h.entry hf hvoid).2 _ _ hb

/-! ### Classes -/

end

theorem not_tracking_of_place
    (h : Code.place done offset is q = (.error e, q')) :
    ∀ cause, e ≠ .tracking cause := by
  induction is generalizing done offset q with
  | nil => cases h
  | cons i is ih =>
    rw [Code.place] at h
    split at h
    · cases h
      exact fun _ => nofun
    · exact ih h

theorem not_tracking_of_encodePlaced {c : Code} {placed : Array Code.Placed} {total : Nat}
    (h : c.encodePlaced placed total k x = .error e) :
    ∀ cause, e ≠ .tracking cause := by
  unfold Code.encodePlaced at h
  split at h
  · cases h
  · split at h
    · cases h
      exact fun _ => nofun
    · dsimp only at h
      split at h
      · cases h
        exact fun _ => nofun
      · cases h

theorem exists_of_mapM_eq_error {f : α → Except ε β} {xs : List α} {e : ε}
    (h : xs.mapM f = .error e) : ∃ x ∈ xs, f x = .error e := by
  induction xs with
  | nil => cases h
  | cons x xs ih =>
    rw [List.mapM_cons] at h
    cases hx : f x with
    | error e' =>
      rw [hx] at h
      cases h
      exact ⟨x, .head _, hx⟩
    | ok y =>
      rw [hx] at h
      cases hxs : xs.mapM f with
      | error e' =>
        rw [hxs] at h
        cases h
        obtain ⟨z, hz, hfz⟩ := ih hxs
        exact ⟨z, .tail _ hz, hfz⟩
      | ok ys =>
        rw [hxs] at h
        cases h

/-- Code without a fault is not refused for one when it is assembled. -/
theorem not_tracking_of_assemble {c : Code} (hc : c.fault = none) {q q' : Pool}
    (h : c.assemble q = (.error e, q')) : ∀ cause, e ≠ .tracking cause := by
  unfold Code.assemble at h
  rw [hc] at h
  dsimp only at h
  split at h
  · next hplace =>
    cases h
    exact not_tracking_of_place hplace
  · split at h
    · cases h
      exact fun _ => nofun
    · obtain ⟨h, -⟩ := Prod.mk.inj h
      cases hchunks : List.mapM (m := Except AssembleError) _ _ with
      | error e' =>
        rw [hchunks] at h
        cases h
        obtain ⟨x, -, hx⟩ := exists_of_mapM_eq_error hchunks
        exact not_tracking_of_encodePlaced hx
      | ok chunks =>
        rw [hchunks] at h
        cases h

theorem stackSafe_finish {c : ClassFile} {access : Access} {name : Text}
    (hb : b.code.Sealed) : StackSafe (finish c access name desc b) := by
  obtain ⟨n, hn⟩ := hb.sound.analyze hb.finished
  unfold finish ClassFile.build
  dsimp only
  rw [hb.sound.fault, hn]
  dsimp only
  cases hassemble : b.code.assemble c.pool with
  | mk r q =>
    cases r with
    | ok bytes => exact .ok _
    | error e =>
      refine .error ?_
      cases e with
      | tracking cause => exact absurd rfl (not_tracking_of_assemble hb.sound.fault hassemble cause)
      | _ => rfl

theorem stackSafe_addMethod {access : Access} {name : Text}
    (hb : b.code.Sealed) : StackSafe (addMethod c access name desc b) :=
  .bind (stackSafe_finish hb) fun _ _ => .ok _

theorem stackSafe_addFunction
    (h : Ensures (functionBody env f) (functionStart env globals f) fun _ b => b.code.Sealed) :
    StackSafe (addFunction env globals c f) := by
  have hadded : StackSafe (functionBody env f (functionStart env globals f) >>= fun r =>
      addMethod c (if env.self.isNone then Access.pub ||| Access.static ||| Access.final
        else Access.pub) f.fn.name f.fn.sig.descriptor r.2) :=
    .bind h.1 fun r hr => stackSafe_addMethod (h.2 r.1 r.2 hr)
  unfold addFunction
  dsimp only
  split
  · next e he => exact .error (hadded e he)
  · exact .ok _

theorem stackSafe_addFunctions
    (h : ∀ f ∈ fs, Ensures (functionBody env f) (functionStart env globals f)
      fun _ b => b.code.Sealed) : StackSafe (addFunctions env globals c fs) := by
  induction fs generalizing c with
  | nil => exact .ok _
  | cons f fs ih =>
    exact .bind (stackSafe_addFunction (h f (.head _))) fun c' _ => ih fun g hg => h g (.tail _ hg)

variable (h : Disciplined p d)
include h

theorem Disciplined.structClasses (hg : GlobalsSound p globals) (file : Text)
    (hss : ∀ s ∈ ss, s ∈ d.env.structs) :
    StackSafe (structClasses d.env file globals ss) := by
  induction ss with
  | nil => exact .ok _
  | cons s ss ih =>
    have hs := hss s (.head _)
    have hconstructor := h.constructor hg hs
    have hclass : StackSafe (structClass d.env file globals s) :=
      .bind hconstructor.1 fun r hr =>
        .bind (stackSafe_addMethod (hconstructor.2 r.1 r.2 hr)) fun c _ =>
          stackSafe_addFunctions fun f hf => h.method hg hs hf
    exact .bind hclass fun c _ => .bind (ih fun s hs => hss s (.tail _ hs)) fun _ _ => .ok _

theorem Disciplined.initializer (c : ClassFile) :
    StackSafe (initializer d.env c p.stmts) := by
  refine .bind h.topLevel.1 fun r hr => ?_
  obtain ⟨-, hsealed⟩ := h.topLevel.2 r.1 r.2 hr
  dsimp only
  split
  · exact .ok _
  · exact .bind (stackSafe_finish hsealed) fun _ _ => .ok _

theorem Disciplined.addEntry (c : ClassFile) :
    StackSafe (addEntry d.env c) := by
  unfold ClassUnit.addEntry
  split
  · exact .ok _
  · next f hf =>
    split
    · exact .ok _
    · next hcond =>
      have hvoid : f.sig.result.isVoid = true := by
        simp only [Bool.or_eq_true, Bool.not_eq_true', not_or, Bool.not_eq_false] at hcond
        exact hcond.2
      have hentry := h.entry hf hvoid
      exact .bind hentry.1 fun r hr => stackSafe_addMethod (hentry.2 r.1 r.2 hr)

theorem Disciplined.classes (file : Text) :
    StackSafe (classesOf d file p) := by
  unfold classesOf
  split
  · next hmain =>
    refine .bind (h.initializer _) fun r hr => ?_
    have hg := h.globalsSound (globals_of_initializer hmain hr)
    refine .bind (h.structClasses hg file fun _ => id) fun _ _ => ?_
    refine .bind (stackSafe_addFunctions fun f hf => h.function hg hf) fun main _ => ?_
    exact .bind (h.addEntry main) fun _ _ => .ok _
  · next hmain =>
    exact h.structClasses (h.globalsSound (.none (by simpa using hmain))) file fun _ => id

end ClassUnit

/-! ### Programs -/

/-- However a registry comes about, its functions take the slots of their descriptors. -/
theorem Registry.Supplied.isProper {r : Registry} (h : r.Supplied) : r.IsProper := by
  induction h with
  | empty => exact isProper_empty
  | builtins => exact isProper_builtins
  | module c name _ ih => exact ih.importModule c name
  | file h => exact isProper_of_unmarshal h
  | merge _ _ ihr ihs => exact ihr.merge ihs
  | exports _ hp hpackage h ih =>
    obtain ⟨d, hd, rfl, -⟩ := ClassUnit.written_of_ofProgram h
    exact ((ClassUnit.yields_declared hpackage (isProper_empty.merge ih)
      (Source.isPlain_of_program hp) _).2 d hd).exports

/-- The next instruction of code without a fault is reached with some slots on the stack. -/
structure Code.IsAt (c : Code) (d : Int) : Prop where
  fault : c.fault = none
  dead : c.dead = false
  depth : c.depth = d

theorem Code.Sound.isAt {c : Code} (h : c.Sound base) {d : Int}
    (hd : c.pos = some d) : c.IsAt d :=
  ⟨h.fault, (Code.pos_eq_some.1 hd).1, (Code.pos_eq_some.1 hd).2⟩

namespace Gen

variable {env : Env} {known : List Text} {b b' : Body} {t : Ty} {d : Int}

/-- An expression leaves its value, or nothing. -/
theorem isAt_of_expr (henv : env.Sound) (hs : b.scopes.Sound) (hknown : b.scopes.Covers known)
    {x : Expr} (hx : x.isClosed known = true) (hsound : b.code.Sound none) (hd : b.code.IsAt d)
    (hroom : d + 8 * x.weight < Code.limit) (keep : Bool)
    (h : expr env x (if keep then .value else .drop) b = .ok (t, b')) :
    b'.code.IsAt (d + if keep then (t.size : Int) else 0) := by
  have hpos : b.code.pos = some d := Code.pos_eq_some.2 ⟨hd.dead, hd.depth⟩
  have hobeys : Obeys none env b.scopes x := obeys_expr henv hs hknown x hx
  have hb : HasRoom b.code (8 * x.weight) := by
    intro e he
    cases hpos.symm.trans he
    exact hroom
  cases keep with
  | true =>
    obtain ⟨hat, -⟩ := (hobeys _ .value (Int.le_refl _) b rfl hsound hb).2 t b' h
    refine hat.step.sound.isAt ?_
    rw [hat.pos, hpos]
    rfl
  | false =>
    obtain ⟨hat, -⟩ := (hobeys _ .drop (Int.le_refl _) b rfl hsound hb).2 t b' h
    refine hat.step.sound.isAt ?_
    rw [hat.pos, hpos]
    rfl

/-- A statement leaves the stack as it was, wherever code is reached after it. -/
theorem isAt_of_stmt (henv : env.Sound) {st : Stmt} (hst : st.isSettled known = true)
    (hb : Place none env.loops known (8 * st.weight) b) (hd : b.code.IsAt d)
    (h : stmt env st b = .ok ((), b')) : b'.code.dead = true ∨ b'.code.IsAt d := by
  have hpos : b.code.pos = some d := Code.pos_eq_some.2 ⟨hd.dead, hd.depth⟩
  obtain ⟨hran, -⟩ := (runs_stmt henv st hst (Int.le_refl _) b hb).2 _ _ h
  rcases hran.pos with hp | hp
  · exact .inr (hran.step.sound.isAt (hp.trans hpos))
  · exact .inl (Code.pos_eq_none.1 hp)

end Gen

namespace ClassUnit

variable {src file : Text} {p : Program} {options : UnitOptions} {funcs : Registry}

theorem disciplined (hp : Source.program src = .ok p) (hsettled : p.isSettled = true)
    (hweight : p.weight < 2 ^ 60) (hpackage : ascii ';' ∉ options.package) (hfuncs : funcs.IsProper) :
    Yields (declared options (Registry.empty.merge funcs).1 file p) (Disciplined p) := by
  refine (yields_declared hpackage (Registry.isProper_empty.merge hfuncs)
    (Source.isPlain_of_program hp) file).mono fun d hd => ⟨hd, hsettled, ?_⟩
  rw [Code.limit]
  omega

/-- A source with top level code, a struct with a method, a loop and a condition. -/
def sampleCounter : Text :=
  "count = 0\ntype P = struct \x7b\n x: long\n def get(k: int): long \x7b\n"
    ++ "  if k > 0 && x > 1 \x7b return x \x7d\n  return 2 * k\n \x7d\n\x7d\ndef main() \x7b\n"
    ++ " while count < 10 \x7b count += 1 \x7d\n p = new P(7)\n println(p.get(count))\n\x7d\n"

/-- A failure of the stack. -/
def failsStack (x : Compiled α) : Bool :=
  match x with
  | .error e => e.isStack
  | .ok _ => false

theorem not_stackSafe {x : Compiled α} (h : failsStack x = true) : ¬ StackSafe x := by
  intro hsafe
  cases x with
  | error e => exact Bool.false_ne_true ((hsafe e rfl).symm.trans h)
  | ok a => cases h

theorem exists_not_stackSafe (h : (Source.program src).toOption.any (fun p =>
      p.isSettled && decide (p.weight < 100) && failsStack (ofProgram options funcs file p)) = true) :
    ∃ p, Source.program src = .ok p ∧ p.isSettled = true ∧ p.weight < 2 ^ 60 ∧
      ¬ StackSafe (ofProgram options funcs file p) := by
  obtain ⟨p, hp, h⟩ := (Option.any_eq_true _ _).1 h
  simp only [Bool.and_eq_true, decide_eq_true_eq] at h
  obtain ⟨⟨hsettled, hweight⟩, hfails⟩ := h
  exact ⟨p, of_toOption hp, hsettled, by omega, not_stackSafe hfails⟩

/-- A function with a result of two slots behind a reference. -/
def sampleBoxed : Registry := Registry.empty.push ⟨.static, "f", "H", ⟨[], some (.nullable .long)⟩, false⟩

end ClassUnit

end Classwright
