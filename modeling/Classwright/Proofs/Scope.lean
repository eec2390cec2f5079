import Classwright.Proofs.Body.Frames

/-!
Slots of a method. Whatever is declared and taken while scopes are opened and left, all that belongs to
an open scope has slots of its own (`Scopes.slots_apart`).

Leaving a scope frees the slots from its lowest local on, and the slots without a name are kept nowhere.
What carries the proof is that all that the outer scopes have ends before the locals of an inner one
start (`Scopes.Ordered.above`).
-/

namespace Classwright.Scopes

/-- Some slots of a frame. -/
structure Span where
  start : Nat
  width : Nat

def Span.stop (a : Span) : Nat := a.start + a.width

def Span.Disjoint (a b : Span) : Prop := a.stop ≤ b.start ∨ b.stop ≤ a.start

/-- What is done to the scopes of a method. -/
inductive Action where
  | push
  | pop
  | declare (v : Var)
  /-- Takes slots without a name. -/
  | alloc (t : Ty)

/-- The scopes from when a method is entered until it is left. -/
structure Activation where
  scopes : Scopes
  /-- The slots without a name that were taken in each of its open scopes, the innermost first. -/
  unnamed : List (List Span)

/-- The slots of a scope, given those without a name. -/
def taken (scope : List Var × List Span) : List Span :=
  (scope.1.filter (·.kind = .local)).map (fun v => ⟨v.slot, Frame.width v.type⟩) ++ scope.2

namespace Activation

def start (s : Scopes) (isStatic : Bool) (result : Option Ty) : Activation :=
  ⟨s.enter isStatic result, [[]]⟩

/-- The open scopes of the method, with the slots without a name. -/
def opened (a : Activation) : List (List Var × List Span) := a.scopes.vars.zip a.unnamed

/-- All slots that are taken in open scopes. -/
def spans (a : Activation) : List Span := a.opened.flatMap taken

/-- One action. A scope is left only if it was opened in the method, and a declaration that fails
is as if it was never made. -/
def act (a : Activation) : Action → Option Activation
  | .push => some ⟨a.scopes.push, [] :: a.unnamed⟩
  | .pop => if 2 ≤ a.unnamed.length then some ⟨a.scopes.pop, a.unnamed.tail⟩ else none
  | .declare v =>
    match a.scopes.declare v with
    | .ok (_, scopes) => some ⟨scopes, a.unnamed⟩
    | .error _ => some a
  | .alloc t => (a.scopes.alloc? t).map fun (slot, scopes) =>
    ⟨scopes, a.unnamed.modifyHead (⟨slot, Frame.width t⟩ :: ·)⟩

end Activation

/-! ### One action -/

/-- Slots from `low` on that are taken in some scopes. -/
structure Ordered (low : Nat) (f : Frame) (scopes : List (List Var × List Span)) : Prop where
  le_next : low ≤ f.next
  le_max : f.next ≤ f.max
  within : a ∈ scopes.flatMap taken → low ≤ a.start ∧ a.stop ≤ f.next
  apart : (scopes.flatMap taken).Pairwise Span.Disjoint
  above : scopes.Pairwise fun inner outer =>
    ∀ v ∈ inner.1, v.kind = .local → ∀ a ∈ taken outer, a.stop ≤ v.slot

section
variable {low : Nat} {f : Frame} {scopes : List (List Var × List Span)} {vs : List Var} {us : List Span}

theorem mem_taken (hv : v ∈ vs) (hlocal : v.kind = .local) :
    ⟨v.slot, Frame.width v.type⟩ ∈ taken (vs, us) :=
  List.mem_append_left _ (List.mem_map_of_mem (List.mem_filter.2 ⟨hv, by simpa using hlocal⟩))

theorem Ordered.push (h : Ordered low f scopes) : Ordered low f (([], []) :: scopes) where
  le_next := h.le_next
  le_max := h.le_max
  within := h.within
  apart := h.apart
  above := .cons (fun _ _ _ hv => nomatch hv) h.above

theorem Ordered.pop (h : Ordered low f ((vs, us) :: scopes)) : Ordered low (releaseAll f vs) scopes := by
  obtain ⟨habove, hrest⟩ := List.pairwise_cons.1 h.above
  have hwithin {a : Span} (ha : a ∈ scopes.flatMap taken) :=
    h.within (List.mem_append_right (taken (vs, us)) ha)
  have hlocals : ∀ v ∈ vs, v.kind = .local → low ≤ v.slot := fun v hv hlocal =>
    (h.within (List.mem_append_left _ (mem_taken hv hlocal))).1
  obtain ⟨hlow, hnext, hmax⟩ := le_next_releaseAll h.le_next hlocals
  refine ⟨hlow, hmax ▸ Nat.le_trans hnext h.le_max, fun ha => ⟨(hwithin ha).1, ?_⟩, ?_, hrest⟩
  · obtain ⟨outer, houter, ha'⟩ := List.mem_flatMap.1 ha
    exact (le_next_releaseAll (hwithin ha).2 fun v hv hlocal => habove outer houter v hv hlocal _ ha').1
  · exact (List.pairwise_append.1 h.apart).2.1

/-- A new local or new slots without a name start where all others have ended. -/
theorem Ordered.alloc (h : Ordered low f ((vs, us) :: scopes))
    (hnew : (taken (vs', us')).Perm (⟨f.next, Frame.width t⟩ :: taken (vs, us)))
    (hvs : ∀ v ∈ vs', v.kind = .local → v ∈ vs ∨ v.slot = f.next) :
    Ordered low (f.alloc t).2 ((vs', us') :: scopes) := by
  have hperm : (((vs', us') :: scopes).flatMap taken).Perm
      (⟨f.next, Frame.width t⟩ :: ((vs, us) :: scopes).flatMap taken) := hnew.append_right _
  have hnext : (f.alloc t).2.next = f.next + Frame.width t := rfl
  obtain ⟨habove, hrest⟩ := List.pairwise_cons.1 h.above
  refine ⟨Nat.le_add_right_of_le h.le_next, Nat.le_max_right .., fun ha => ?_, ?_, ?_⟩
  · rcases List.mem_cons.1 (hperm.mem_iff.1 ha) with rfl | ha
    · exact ⟨h.le_next, Nat.le_refl _⟩
    · exact ⟨(h.within ha).1, Nat.le_add_right_of_le (h.within ha).2⟩
  · refine (hperm.pairwise_iff Or.symm).2 (.cons (fun a ha => .inr (h.within ha).2) h.apart)
  · refine .cons (fun outer houter v hv hlocal a ha => ?_) hrest
    rcases hvs v hv hlocal with hv | hslot
    · exact habove outer houter v hv hlocal a ha
    · rw [hslot]
      exact (h.within (List.mem_append_right _ (List.mem_flatMap.2 ⟨outer, houter, ha⟩))).2

theorem Ordered.declareLocal (h : Ordered low f ((vs, us) :: scopes)) (hv : v.kind = .local)
    (hslot : v.slot = f.next) : Ordered low (f.alloc v.type).2 ((v :: vs, us) :: scopes) := by
  refine h.alloc ?_ fun w hw _ => ?_
  · simp [taken, hv, hslot]
  · rcases List.mem_cons.1 hw with rfl | hw
    · exact .inr hslot
    · exact .inl hw

theorem Ordered.declareOther (h : Ordered low f ((vs, us) :: scopes)) (hv : v.kind ≠ .local) :
    Ordered low f ((v :: vs, us) :: scopes) := by
  have htaken : taken (v :: vs, us) = taken (vs, us) := by simp [taken, hv]
  obtain ⟨habove, hrest⟩ := List.pairwise_cons.1 h.above
  refine ⟨h.le_next, h.le_max, ?_, ?_, .cons (fun outer houter w hw hlocal => ?_) hrest⟩
  · simpa [htaken] using @h.within
  · simpa [htaken] using h.apart
  · rcases List.mem_cons.1 hw with rfl | hw
    · exact absurd hlocal hv
    · exact habove outer houter w hw hlocal

end

/-- What holds between actions: slots from `low` on are taken, and all slots without a name belong to
an open scope. -/
structure Kept (low : Nat) (a : Activation) (f : Frame) : Prop where
  frame : a.scopes.frame = some f
  inside : 0 < a.unnamed.length
  length : a.unnamed.length ≤ a.scopes.vars.length
  ordered : Ordered low f a.opened

section
variable {low : Nat} {a a' : Activation} {f : Frame}

theorem kept_start (s : Scopes) (isStatic : Bool) (result : Option Ty) :
    ∃ f, Kept (if isStatic then 0 else 1) (.start s isStatic result) f := by
  refine ⟨_, rfl, Nat.one_pos, Nat.succ_le_succ (Nat.zero_le _), ?_⟩
  have hopened : (Activation.start s isStatic result).opened = [([], [])] := by
    simp [Activation.opened, Activation.start, enter, Scopes.push]
  rw [hopened]
  refine Ordered.push ⟨?_, ?_, nofun, .nil, .nil⟩ <;> cases isStatic <;> exact Nat.le_refl _

/-- What one action keeps. -/
theorem Kept.act (h : Kept low a f) (hact : a.act action = some a') :
    ∃ f', Kept low a' f' ∧ f.max ≤ f'.max := by
  obtain ⟨⟨vars, frame⟩, unnamed⟩ := a
  obtain ⟨hframe, hinside, hlength, hordered⟩ := h
  obtain ⟨us, unnamed, rfl⟩ := List.exists_cons_of_length_pos hinside
  obtain ⟨vs, vars, rfl⟩ := List.exists_cons_of_length_pos (Nat.lt_of_lt_of_le hinside hlength)
  cases hframe
  cases action with
  | push =>
    cases hact
    exact ⟨f, ⟨rfl, Nat.succ_pos _, Nat.succ_le_succ hlength, hordered.push⟩, Nat.le_refl _⟩
  | pop =>
    obtain ⟨hopen, ⟨⟩⟩ := Option.ite_none_right_eq_some.1 hact
    have hmax := (le_next_releaseAll (Nat.zero_le f.next) fun v (_ : v ∈ vs) _ => Nat.zero_le v.slot).2.2
    exact ⟨_, ⟨rfl, Nat.le_of_succ_le_succ hopen, Nat.le_of_succ_le_succ hlength, hordered.pop⟩,
      Nat.le_of_eq hmax.symm⟩
  | declare v =>
    rw [Activation.act] at hact
    split at hact
    · next w scopes hdeclare =>
      cases hact
      by_cases hlocal : v.kind = .local
      · obtain ⟨_, _, _, ⟨⟩, ⟨⟩, -, rfl, rfl⟩ := declare_local hlocal hdeclare
        exact ⟨_, ⟨rfl, hinside, hlength, hordered.declareLocal (v := { v with slot := f.next }) hlocal rfl⟩,
          Nat.le_max_left ..⟩
      · obtain ⟨_, _, ⟨⟩, -, rfl, rfl⟩ := declare_other hlocal hdeclare
        exact ⟨_, ⟨rfl, hinside, hlength, hordered.declareOther hlocal⟩, Nat.le_refl _⟩
    · cases hact
      exact ⟨f, ⟨rfl, hinside, hlength, hordered⟩, Nat.le_refl _⟩
  | alloc t =>
    cases hact
    refine ⟨_, ⟨rfl, hinside, hlength, hordered.alloc ?_ fun v hv _ => .inl hv⟩, Nat.le_max_left ..⟩
    exact List.perm_middle

/-- What a whole run keeps. -/
theorem Kept.run (h : Kept low a f) {actions : List Action}
    (hrun : actions.foldlM Activation.act a = some a') : ∃ f', Kept low a' f' := by
  induction actions generalizing a f with
  | nil =>
    cases hrun
    exact ⟨f, h⟩
  | cons action actions ih =>
    obtain ⟨a₁, hact, hrun⟩ := Option.bind_eq_some_iff.1 hrun
    obtain ⟨f₁, h₁, -⟩ := h.act hact
    exact ih h₁ hrun

/-- A declaration fails if the innermost scope has the name already, and only then. -/
theorem Kept.declare (h : Kept low a f) (v : Var) : ∃ vs outer, a.scopes.vars = vs :: outer ∧
    ((∃ u ∈ vs, u.name = v.name) ∧ a.scopes.declare v = .error .redefined ∨
      (∀ u ∈ vs, u.name ≠ v.name) ∧
        ∃ w s, a.scopes.declare v = .ok (w, s) ∧ s.vars = (w :: vs) :: outer) := by
  have hlength := Nat.lt_of_lt_of_le h.inside h.length
  unfold Scopes.declare
  rw [h.frame]
  cases hvars : a.scopes.vars with
  | nil =>
    rw [hvars] at hlength
    cases hlength
  | cons vs outer =>
    refine ⟨vs, outer, rfl, ?_⟩
    cases hany : vs.any (·.name == v.name) with
    | true => exact .inl ⟨by simpa using hany, by simp [hany]⟩
    | false =>
      refine .inr ⟨by simpa using hany, ?_⟩
      by_cases hlocal : v.kind = .local <;> simp [hany, hlocal]

end

/-- Between entering a method and leaving it, after any declarations and scopes opened and left, the
slots of all that is in open scopes are apart from each other and from the receiver, and are slots that
the frame has. The number of these never goes down. A declaration fails for a name that the innermost
scope has, and all stays as it is then; else the variable is put into that scope. -/
theorem slots_apart (s : Scopes) (isStatic : Bool) (result : Option Ty) {actions : List Action}
    {a : Activation} (hrun : actions.foldlM Activation.act (.start s isStatic result) = some a) :
    ∃ f, a.scopes.frame = some f ∧ a.unnamed.length ≤ a.scopes.vars.length ∧
      a.spans.Pairwise Span.Disjoint ∧
      (∀ span ∈ a.spans, (isStatic = false → 1 ≤ span.start) ∧ span.stop ≤ f.max) ∧
      (∀ action a', a.act action = some a' → ∃ f', a'.scopes.frame = some f' ∧ f.max ≤ f'.max) ∧
      ∀ v, ∃ vs outer, a.scopes.vars = vs :: outer ∧
        ((∃ u ∈ vs, u.name = v.name) ∧ a.scopes.declare v = .error .redefined ∧
            a.act (.declare v) = some a ∨
          (∀ u ∈ vs, u.name ≠ v.name) ∧
            ∃ w s', a.scopes.declare v = .ok (w, s') ∧ s'.vars = (w :: vs) :: outer) := by
  obtain ⟨_, hstart⟩ := kept_start s isStatic result
  obtain ⟨f, h⟩ := hstart.run hrun
  refine ⟨f, h.frame, h.length, h.ordered.apart, fun span hspan => ⟨?_, ?_⟩, ?_, ?_⟩
  · rintro rfl
    exact (h.ordered.within hspan).1
  · exact Nat.le_trans (h.ordered.within hspan).2 h.ordered.le_max
  · intro action a' hact
    obtain ⟨f', h', hmax⟩ := h.act hact
    exact ⟨f', h'.frame, hmax⟩
  · intro v
    obtain ⟨vs, outer, hvars, ⟨hname, hdeclare⟩ | hdeclare⟩ := h.declare v
    · exact ⟨vs, outer, hvars, .inl ⟨hname, hdeclare, by rw [Activation.act, hdeclare]⟩⟩
    · exact ⟨vs, outer, hvars, .inr hdeclare⟩

/-- A long, an object without a name and a number in an inner scope, and one more after it is left. -/
def sampleActions : List Action :=
  [.declare { name := "a", kind := .local, type := .long }, .alloc .object, .push,
    .declare { name := "b", kind := .local, type := .int }, .pop, .alloc .double]

/-- The slot of the variable that is gone is taken again. -/
theorem slots_apart_sampleActions :
    ∃ a, sampleActions.foldlM Activation.act (.start {} false none) = some a ∧
      a.spans = [⟨1, 2⟩, ⟨4, 2⟩, ⟨3, 1⟩] ∧ a.spans.Pairwise Span.Disjoint := by
  have hspans : (sampleActions.foldlM Activation.act (.start {} false none)).map Activation.spans =
      some [⟨1, 2⟩, ⟨4, 2⟩, ⟨3, 1⟩] := by rfl
  obtain ⟨a, hrun, hspans⟩ := Option.map_eq_some_iff.1 hspans
  obtain ⟨f, -, -, happart, -⟩ := slots_apart _ _ _ hrun
  exact ⟨a, hrun, hspans, happart⟩

end Classwright.Scopes
