import Classwright.BitSet
import Classwright.Proofs.Code.Tracking
import Mathlib.Order.Bounds.Basic

/-!
What the search through control flow finds is what all ways through the code show. A way
(`Code.Path`) starts at the first instruction, follows jumps and goes on after instructions that are
not terminal, as often as it likes, and adds up what they push and pop. The search looks at each
instruction once, and yet it fails just where some way runs past the end, takes more than there is,
or gets to an instruction with another depth than some other way (`Code.Coherent`); otherwise it ends
with the greatest depth on any way.

Nothing of this depends on the order in which pending instructions are taken: `Flow.Drains` takes any
of them. Ways through sound code, once it is finished, are coherent, so the search through it succeeds
(`Code.Sound.analyze`).
-/

namespace Classwright

namespace Code

/-- Code that is written by placing labels and appending instructions, each with the operand of the
shape of its opcode. -/
inductive Built : Code → Prop
  | empty : Built .empty
  | newLabel : Built c → Built c.newLabel.2
  | bind (l : Label) : Built c → Built (c.bind l)
  | emit (op : Opcode) (p : Instr.Parts) : Built c → Built (c.emit (.ofParts op p))

/-- Control may get to an instruction with a depth of the stack. -/
inductive Reaches (c : Code) : Nat → Int → Prop
  | start : Reaches c 0 0
  | jump : Reaches c k d → c.instrs[k]? = some i → i.target? = some l → c.labelIndex? l = some n →
    Reaches c n (i.after d)
  | fall : Reaches c k d → c.instrs[k]? = some i → i.op.isTerminal = false →
    Reaches c (k + 1) (i.after d)

/-- Every jump leads to a label that is bound. -/
def JumpsBound (c : Code) : Prop :=
  ∀ i ∈ c.instrs.toList, ∀ l, i.target? = some l → (c.labelIndex? l).isSome = true

/-- Every jump that control gets to leads to a label that is bound. -/
def Leads (c : Code) : Prop :=
  ∀ k d i l, c.Reaches k d → c.instrs[k]? = some i → i.target? = some l →
    (c.labelIndex? l).isSome = true

/-- Code that is complete: control does not get to its end, and all labels are bound. -/
structure Finished (c : Code) : Prop where
  dead : c.dead = true
  bound : ∀ l, ¬ c.IsOpen l

/-- Ways through the code from its first instruction to some place, with the sum of what the
instructions on the way push and pop. -/
inductive Path (c : Code) : Nat → Int → Prop
  | start : Path c 0 0
  | jump : Path c k d → c.instrs[k]? = some i → i.target? = some l → c.labelIndex? l = some n →
    Path c n (d + (i.push - i.pop))
  | fall : Path c k d → c.instrs[k]? = some i → i.op.isTerminal = false →
    Path c (k + 1) (d + (i.push - i.pop))

/-- All ways stay inside the code, find what their instructions take, and agree on the depth at each
instruction. A depth is a word of the machine. -/
structure Coherent (c : Code) : Prop where
  inside : c.Path k d → k < c.instrs.size
  pop : c.Path k d → c.instrs[k]? = some i → i.pop ≤ Word.wrap d
  same : c.Path k d → c.Path k e → Word.wrap d = Word.wrap e

/-- The depths that instructions leave, on all ways. -/
def depthsAfter (c : Code) : Set Int :=
  {x | ∃ k d i, c.Path k d ∧ c.instrs[k]? = some i ∧ x = Word.wrap (d + (i.push - i.pop))}

/-! ### Ways and depths -/

theorem after_wrap (i : Instr) (d : Int) :
    i.after (Word.wrap d) = Word.wrap (d + (i.push - i.pop)) := by
  unfold Instr.after Word.wrap
  rw [Int.add_sub_assoc, Int.bmod_add_bmod]

variable {c : Code} {i : Instr} {k n l : Nat} {d e : Int}

theorem Path.reaches (h : c.Path k d) : c.Reaches k (Word.wrap d) := by
  induction h with
  | start => exact .start
  | jump _ hi ht hn ih => exact after_wrap _ _ ▸ ih.jump hi ht hn
  | fall _ hi ht ih => exact after_wrap _ _ ▸ ih.fall hi ht

theorem Reaches.exists_path (h : c.Reaches k d) : ∃ e, c.Path k e ∧ Word.wrap e = d := by
  induction h with
  | start => exact ⟨0, .start, rfl⟩
  | jump _ hi ht hn ih =>
    obtain ⟨e, he, rfl⟩ := ih
    exact ⟨_, he.jump hi ht hn, (after_wrap _ e).symm⟩
  | fall _ hi ht ih =>
    obtain ⟨e, he, rfl⟩ := ih
    exact ⟨_, he.fall hi ht, (after_wrap _ e).symm⟩

theorem Reaches.mem_depthsAfter (h : c.Reaches k d) (hi : c.instrs[k]? = some i) :
    i.after d ∈ c.depthsAfter := by
  obtain ⟨e, he, rfl⟩ := h.exists_path
  exact ⟨k, e, i, he, hi, after_wrap i e⟩

theorem Coherent.inside_of_reaches (h : c.Coherent) (hr : c.Reaches k d) : k < c.instrs.size := by
  obtain ⟨e, he, -⟩ := hr.exists_path
  exact h.inside he

theorem Coherent.pop_of_reaches (h : c.Coherent) (hr : c.Reaches k d)
    (hi : c.instrs[k]? = some i) : i.pop ≤ d := by
  obtain ⟨e, he, rfl⟩ := hr.exists_path
  exact h.pop he hi

theorem Coherent.same_of_reaches (h : c.Coherent) (hd : c.Reaches k d) (he : c.Reaches k e) :
    d = e := by
  obtain ⟨d', hd', rfl⟩ := hd.exists_path
  obtain ⟨e', he', rfl⟩ := he.exists_path
  exact h.same hd' he'

theorem JumpsBound.leads (h : c.JumpsBound) : c.Leads :=
  fun _ _ i l _ hi ht => h i (Array.mem_toList_iff.2 (Array.mem_of_getElem? hi)) l ht

/-! ### Depths that are followed -/

section
variable {entry : Nat → Option Int} {lost : List Label}

/-- The depths of all ways are those that were followed, if no jump leads to a label that is lost. -/
theorem Flows.depthAt_of_reaches (h : c.Flows lost entry) (hlost : ∀ {k d i l}, entry k = some d →
    c.instrs[k]? = some i → i.target? = some l → l ∉ lost) (hr : c.Reaches k d) :
    c.depthAt entry k = some d := by
  have hentry {k d i} (hk : c.depthAt entry k = some d) (hi : c.instrs[k]? = some i) :
      entry k = some d := by
    rwa [depthAt_of_lt (Array.getElem?_eq_some_iff.1 hi).1] at hk
  induction hr with
  | start => exact h.start
  | jump _ hi ht hn ih =>
    have hd := hentry ih hi
    obtain ⟨m, hm, hn⟩ := Option.bind_eq_some_iff.1 hn
    exact h.label hm hn (hlost hd hi ht) (h.jump hi hd ht)
  | fall _ hi ht ih => exact h.fall hi (hentry ih hi) ht

theorem entry_of_depthAt (hdead : c.dead = true) (h : c.depthAt entry k = some d) :
    k < c.instrs.size ∧ entry k = some d := by
  rcases depthAt_eq_some h with h | ⟨-, hd⟩
  · exact h
  · cases (pos_eq_none.2 hdead).symm.trans hd

theorem Flows.coherent (h : c.Flows lost entry)
    (hall : ∀ {k d}, c.Reaches k d → c.depthAt entry k = some d) (hdead : c.dead = true) :
    c.Coherent := by
  have hentry {k d} (hk : c.Path k d) := entry_of_depthAt hdead (hall hk.reaches)
  exact ⟨fun hk => (hentry hk).1, fun hk hi => h.pop hi (hentry hk).2,
    fun hd he => Option.some.inj ((hentry hd).2.symm.trans (hentry he).2)⟩

variable {base : Int}

theorem Tracks.depthAt_of_reaches (h : c.Tracks base entry) (hr : c.Reaches k d) :
    c.depthAt entry k = some d :=
  h.toFlows.depthAt_of_reaches (fun _ _ _ => List.not_mem_nil) hr

/-- No instruction of sound code takes more than there is, and a return takes all but `base`
slots. -/
theorem Sound.of_reaches (h : c.Sound (some base)) (hc : c.Finished) (hr : c.Reaches k d)
    (hi : c.instrs[k]? = some i) : i.pop ≤ d ∧ (i.op.isReturn = true → d = base + i.pop) := by
  obtain ⟨entry, htracks⟩ := h.tracks rfl
  have hd := (entry_of_depthAt hc.dead (htracks.depthAt_of_reaches hr)).2
  exact ⟨htracks.pop hi hd, htracks.ret hi hd⟩

theorem Sound.coherent (h : c.Sound (some base)) (hc : c.Finished) : c.Coherent := by
  obtain ⟨entry, htracks⟩ := h.tracks rfl
  exact htracks.toFlows.coherent htracks.depthAt_of_reaches hc.dead

theorem Sound.leads (h : c.Sound (some base)) (hc : c.Finished) : c.Leads := by
  obtain ⟨entry, htracks⟩ := h.tracks rfl
  intro k d i l hr hi ht
  have hd := (entry_of_depthAt hc.dead (htracks.depthAt_of_reaches hr)).2
  obtain ⟨m, hm, -⟩ := mark?_eq_some.1 (htracks.jump hi hd ht)
  rw [labelIndex?, hm, Option.isSome_iff_ne_none]
  exact fun hindex => hc.bound l ⟨m, hm, hindex⟩

end

/-! ### Code as it is written -/

/-- A label that some depth is expected at and that is not bound has a jump to it. -/
theorem Built.target_of_mark (h : c.Built) (hm : c.marks[l]? = some m)
    (hindex : m.index = none) (hdepth : m.depth ≠ -1) :
    ∃ i ∈ c.instrs.toList, i.target? = some l := by
  induction h generalizing l m with
  | empty => cases hm
  | @newLabel c _ ih =>
    rw [marks_newLabel] at hm
    split at hm
    · cases hm
      exact absurd rfl hdepth
    · exact ih hm hindex hdepth
  | @bind c k _ ih =>
    rw [instrs_bind]
    refine ih ?_ hindex hdepth
    by_cases hopen : ∃ m, c.marks[k]? = some m ∧ m.index = none
    · obtain ⟨m₀, hm₀, hopen⟩ := hopen
      rw [(bind_of_open hm₀ hopen).1, Array.getElem?_setIfInBounds] at hm
      split at hm
      · split at hm
        · cases hm
          cases hindex
        · cases hm
      · exact hm
    · rwa [(bind_of_not_open fun m hm hindex => hopen ⟨m, hm, hindex⟩).1] at hm
  | @emit c op p _ ih =>
    rw [instrs_emit, Array.toList_push]
    rw [marks_emit] at hm
    obtain ⟨m₀, hm₀, rfl⟩ := Option.map_eq_some_iff.1 hm
    -- a jump gives a depth to the label that it leads to
    by_cases hcond : c.dead = false ∧ (Instr.ofParts op p).target? = some l ∧ m₀.depth < 0
    · exact ⟨_, List.mem_append_right _ (.head _), hcond.2.1⟩
    · rw [if_neg hcond] at hindex hdepth
      obtain ⟨j, hj, ht⟩ := ih hm₀ hindex hdepth
      exact ⟨j, List.mem_append_left _ hj, ht⟩

theorem Built.unboundLabel?_eq_none (h : c.Built) (hb : c.JumpsBound) : c.unboundLabel? = none := by
  rw [unboundLabel?, Array.findIdx?_eq_none_iff]
  intro m hm
  obtain ⟨l, hl, rfl⟩ := Array.mem_iff_getElem.1 hm
  have hmark := Array.getElem?_eq_getElem hl
  by_contra hbad
  simp only [Bool.not_eq_false, Bool.and_eq_true, Option.isNone_iff_eq_none, bne_iff_ne] at hbad
  obtain ⟨i, hi, ht⟩ := h.target_of_mark hmark hbad.1 hbad.2
  have := hb i hi l ht
  rw [labelIndex?, hmark] at this
  simp [hbad.1] at this

theorem terminal_effect (op : Opcode) :
    op.isTerminal = true → op.shape ≠ .member ∧ op.effect.2 = 0 :=
  Opcode.forall_of_lt (P := fun op => op.isTerminal = true → op.shape ≠ .member ∧ op.effect.2 = 0)
    (by decide +kernel) op

/-- An instruction after which control does not go on takes a fixed number of slots and leaves none. -/
theorem Built.terminal (h : c.Built) (hi : i ∈ c.instrs.toList) (ht : i.op.isTerminal = true) :
    0 ≤ i.pop ∧ i.push = 0 := by
  induction h with
  | empty => cases hi
  | newLabel _ ih => exact ih hi
  | bind l _ ih =>
    rw [instrs_bind] at hi
    exact ih hi
  | emit op p _ ih =>
    rw [instrs_emit, Array.toList_push] at hi
    rcases List.mem_append.1 hi with hi | hi
    · exact ih hi
    · cases List.mem_singleton.1 hi
      obtain ⟨hshape, heffect⟩ := terminal_effect op ht
      unfold Instr.ofParts Instr.pop Instr.push
      dsimp only
      cases hs : op.shape <;> first | exact absurd hs hshape | exact ⟨by simp, by simp [heffect]⟩

/-- Going on from the first instruction leads to one after which control does not. -/
theorem Coherent.exists_terminal (h : c.Coherent) :
    ∃ k d i, c.Reaches k d ∧ c.instrs[k]? = some i ∧ i.op.isTerminal = true := by
  by_contra hno
  have hreach : ∀ k, ∃ d, c.Reaches k d := by
    intro k
    induction k with
    | zero => exact ⟨0, .start⟩
    | succ k ih =>
      obtain ⟨d, hd⟩ := ih
      obtain ⟨i, hi⟩ : ∃ i, c.instrs[k]? = some i :=
        ⟨_, Array.getElem?_eq_getElem (h.inside_of_reaches hd)⟩
      cases ht : i.op.isTerminal with
      | true => exact absurd ⟨k, d, i, hd, hi, ht⟩ hno
      | false => exact ⟨_, hd.fall hi ht⟩
  obtain ⟨d, hd⟩ := hreach c.instrs.size
  exact Nat.lt_irrefl _ (h.inside_of_reaches hd)

/-- Some instruction leaves a depth that is not negative. -/
theorem Coherent.exists_nonneg (h : c.Coherent) (hc : c.Built) : ∃ x ∈ c.depthsAfter, 0 ≤ x := by
  obtain ⟨k, d, i, hr, hi, ht⟩ := h.exists_terminal
  refine ⟨_, hr.mem_depthsAfter hi, ?_⟩
  obtain ⟨hpop, hpush⟩ := hc.terminal (Array.mem_toList_iff.2 (Array.mem_of_getElem? hi)) ht
  have hle := h.pop_of_reaches hr hi
  obtain ⟨e, -, rfl⟩ := hr.exists_path
  have hlt : Word.wrap e < 0x8000000000000000 := Int.bmod_lt (by decide)
  unfold Instr.after
  rw [Word.wrap_eq_self (by omega) (by omega)]
  omega

end Code

/-! ### The search -/

namespace Flow

open Code

theorem mem_insertSorted : n ∈ insertSorted k js ↔ n = k ∨ n ∈ js := by
  induction js with
  | nil => simp [insertSorted]
  | cons j js ih =>
    unfold insertSorted
    split <;> simp [ih, or_left_comm]

theorem length_insertSorted (k : Nat) (js : List Nat) : (insertSorted k js).length = js.length + 1 := by
  induction js with
  | nil => rfl
  | cons j js ih =>
    unfold insertSorted
    split <;> simp [ih]

/-- The search before its first step. -/
def start (c : Code) : Flow :=
  ⟨(Array.replicate c.instrs.size none).setIfInBounds 0 (some 0), [0], 0⟩

/-- The search goes on by instructions that `takes` picks until none is pending, or to a fault. -/
inductive DrainsBy (c : Code) (takes : Flow → Nat → Prop) : Flow → Except FlowError Flow → Prop
  | done : f.pending = [] → DrainsBy c takes f (.ok f)
  | fail : takes f k → c.instrs[k]? = some i → f.depths[k]? = some (some d) →
    leave c { f with pending := f.pending.erase k } k i d = .error e → DrainsBy c takes f (.error e)
  | next : takes f k → c.instrs[k]? = some i → f.depths[k]? = some (some d) →
    leave c { f with pending := f.pending.erase k } k i d = .ok f' → DrainsBy c takes f' r →
    DrainsBy c takes f r

/-- The search goes on by any of its pending instructions. -/
abbrev Drains (c : Code) : Flow → Except FlowError Flow → Prop := DrainsBy c fun f k => k ∈ f.pending

/-- The first of all pending instructions. -/
def Least (f : Flow) (k : Nat) : Prop := k ∈ f.pending ∧ ∀ n ∈ f.pending, k ≤ n

/-- The instructions that are picked are the first of all that are pending. -/
def LeastFirst (takes : Flow → Nat → Prop) : Prop := ∀ f k, takes f k → f.Least k

/-- How many instructions the search may still take. -/
def rest (f : Flow) : Nat := f.pending.length + f.depths.count none

/-- A search that has gone on. -/
structure Extends (f f' : Flow) : Prop where
  depths {k : Nat} {d : Int} : f.depths[k]? = some (some d) → f'.depths[k]? = some (some d)
  max : f.maxDepth ≤ f'.maxDepth

/-- The search has gone on from an instruction: all that follow it have the depth that it leaves. -/
structure Left (c : Code) (f : Flow) (k : Nat) (i : Instr) (d : Int) : Prop where
  pop : i.pop ≤ d
  max : i.after d ≤ f.maxDepth
  jump : i.target? = some l → c.labelIndex? l = some n → f.depths[n]? = some (some (i.after d))
  fall : i.op.isTerminal = false → f.depths[k + 1]? = some (some (i.after d))

/-- What holds all along the search: the depths that it has found are those of ways, and it has gone
on from each instruction that it has found but those that are pending, or busy. -/
structure Inv (c : Code) (busy : Nat → Prop) (f : Flow) : Prop where
  size : f.depths.size = c.instrs.size
  start : f.depths[0]? = some (some 0)
  found {k : Nat} {d : Int} : f.depths[k]? = some (some d) → c.Reaches k d
  pending : k ∈ f.pending → ∃ d, f.depths[k]? = some (some d)
  left {k : Nat} {d : Int} {i : Instr} : f.depths[k]? = some (some d) → k ∉ f.pending → ¬ busy k →
    c.instrs[k]? = some i →
    Left c f k i d
  max : f.maxDepth = 0 ∨ f.maxDepth ∈ c.depthsAfter
  nonneg : 0 ≤ f.maxDepth

variable {c : Code} {f f' : Flow} {i : Instr} {k n l : Nat} {d e : Int} {busy : Nat → Prop}
  {r : Except FlowError Flow}

theorem Extends.refl (f : Flow) : f.Extends f := ⟨id, Int.le_refl _⟩

theorem Left.extends (h : Left c f k i d) (hf : f.Extends f') : Left c f' k i d where
  pop := h.pop
  max := Int.le_trans h.max hf.max
  jump ht hn := hf.depths (h.jump ht hn)
  fall ht := hf.depths (h.fall ht)

theorem visit_eq_ok (h : f.visit k d = .ok f') :
    f.depths[k]? = some (some d) ∧ f' = f ∨
    f.depths[k]? = some none ∧ f' = { f with
      depths := f.depths.setIfInBounds k (some d), pending := insertSorted k f.pending } := by
  unfold visit at h
  split at h
  · cases h
  · split at h
    · next he hd =>
      cases h
      exact .inl ⟨hd ▸ he, rfl⟩
    · cases h
  · cases h
    exact .inr ⟨‹_›, rfl⟩

/-- Finding an instruction that some way leads to. -/
theorem Inv.visit (h : Inv c busy f) (hr : c.Reaches n e) (hv : f.visit n e = .ok f') :
    Inv c busy f' ∧ f.Extends f' ∧ f'.depths[n]? = some (some e) ∧ f'.rest = f.rest := by
  obtain ⟨hd, rfl⟩ | ⟨hnone, rfl⟩ := visit_eq_ok hv
  · exact ⟨h, .refl _, hd, rfl⟩
  obtain ⟨hlt, hn⟩ := Array.getElem?_eq_some_iff.1 hnone
  have hget : ∀ k, (f.depths.setIfInBounds n (some e))[k]? =
      if n = k then some (some e) else f.depths[k]? := by
    intro k
    rw [Array.getElem?_setIfInBounds]
    by_cases hk : n = k
    · rw [if_pos hk, if_pos hk, if_pos hlt]
    · rw [if_neg hk, if_neg hk]
  have hext : f.Extends { f with
      depths := f.depths.setIfInBounds n (some e), pending := insertSorted n f.pending } := by
    refine ⟨fun {k d} hk => ?_, Int.le_refl _⟩
    dsimp only
    rw [hget, if_neg (fun he => by rw [← he, hnone] at hk; cases hk), hk]
  refine ⟨⟨?_, hext.depths h.start, ?_, ?_, ?_, h.max, h.nonneg⟩, hext, ?_, ?_⟩
  · simpa using h.size
  · intro k d hk
    dsimp only at hk
    rw [hget] at hk
    split at hk
    · next hkn =>
      cases hk
      exact hkn ▸ hr
    · exact h.found hk
  · intro k hk
    rcases mem_insertSorted.1 hk with rfl | hk
    · exact ⟨e, by dsimp only; rw [hget, if_pos rfl]⟩
    · obtain ⟨d, hd⟩ := h.pending hk
      exact ⟨d, hext.depths hd⟩
  · intro k d i hk hpend hbusy hi
    have hnk : n ≠ k := fun he => hpend (mem_insertSorted.2 (.inl he.symm))
    dsimp only at hk
    rw [hget, if_neg hnk] at hk
    exact (h.left hk (fun hm => hpend (mem_insertSorted.2 (.inr hm))) hbusy hi).extends hext
  · dsimp only
    rw [hget, if_pos rfl]
  · -- one instruction less without a depth, one more pending
    have hpos : 0 < f.depths.count none := Array.count_pos_iff.2 (hn ▸ Array.getElem_mem hlt)
    unfold rest
    dsimp only
    rw [length_insertSorted, Array.setIfInBounds, dif_pos hlt, Array.count_set hlt, hn]
    simp only [beq_self_eq_true, if_true, reduceCtorEq, beq_iff_eq, if_false]
    omega

theorem Inv.visitTarget (h : Inv c busy f) (hr : c.Reaches k d) (hi : c.instrs[k]? = some i)
    (hv : visitTarget c f i (i.after d) = .ok f') :
    Inv c busy f' ∧ f.Extends f' ∧ f'.rest = f.rest ∧ ∀ l n, i.target? = some l →
      c.labelIndex? l = some n → f'.depths[n]? = some (some (i.after d)) := by
  unfold Flow.visitTarget at hv
  split at hv
  · next hnone =>
    cases hv
    exact ⟨h, .refl _, rfl, fun l n ht => by cases hnone.symm.trans ht⟩
  · next l ht =>
    split at hv
    · cases hv
    · next n hn =>
      obtain ⟨hinv, hext, hat, hrest⟩ := h.visit (hr.jump hi ht hn) hv
      refine ⟨hinv, hext, hrest, fun l' n' ht' hn' => ?_⟩
      cases ht.symm.trans ht'
      cases hn.symm.trans hn'
      exact hat

/-- The search without an instruction that it takes to go on from. -/
theorem Inv.take (h : Inv c (fun _ => False) f) (hi : c.instrs[k]? = some i)
    (hd : f.depths[k]? = some (some d)) :
    Inv c (· = k)
      { f with pending := f.pending.erase k, maxDepth := Max.max f.maxDepth (i.after d) } := by
  refine ⟨h.size, h.start, h.found, fun hm => h.pending (List.mem_of_mem_erase hm), ?_, ?_, ?_⟩
  · intro n e j hn hpend hbusy hj
    have hext : f.Extends
        { f with pending := f.pending.erase k, maxDepth := Max.max f.maxDepth (i.after d) } :=
      ⟨id, Int.le_max_left _ _⟩
    exact (h.left hn (fun hm => hpend ((List.mem_erase_of_ne hbusy).2 hm)) id hj).extends hext
  · dsimp only
    rcases Int.le_total (i.after d) f.maxDepth with hle | hle
    · rw [Int.max_eq_left hle]
      exact h.max
    · rw [Int.max_eq_right hle]
      exact .inr ((h.found hd).mem_depthsAfter hi)
  · exact Int.le_trans h.nonneg (Int.le_max_left _ _)

/-- One step of the search: it goes on from a pending instruction. -/
theorem Inv.leave (h : Inv c (fun _ => False) f) (hk : k ∈ f.pending) (hi : c.instrs[k]? = some i)
    (hd : f.depths[k]? = some (some d))
    (hl : leave c { f with pending := f.pending.erase k } k i d = .ok f') :
    Inv c (fun _ => False) f' ∧ f'.rest + 1 = f.rest := by
  have hr := h.found hd
  unfold Flow.leave at hl
  split at hl
  · cases hl
  next hpop =>
  dsimp only at hl
  rw [show Word.wrap (d + i.push - i.pop) = i.after d from rfl] at hl
  split at hl
  · cases hl
  next f₁ hf₁ =>
  obtain ⟨h₁, hext₁, hrest₁, hjump₁⟩ := (h.take hi hd).visitTarget hr hi hf₁
  have hlen : (f.pending.erase k).length + 1 = f.pending.length := by
    rw [List.length_erase_of_mem hk]
    have := List.length_pos_of_mem hk
    omega
  have hmax₁ : i.after d ≤ f₁.maxDepth := Int.le_trans (Int.le_max_right _ _) hext₁.max
  -- the instruction is left as soon as what follows it has its depth
  have hleft : ∀ f₂ : Flow, Inv c (· = k) f₂ → f₁.Extends f₂ → f₂.rest = f₁.rest →
      (i.op.isTerminal = false → f₂.depths[k + 1]? = some (some (i.after d))) →
      Inv c (fun _ => False) f₂ ∧ f₂.rest + 1 = f.rest := by
    intro f₂ h₂ hext₂ hrest₂ hfall
    refine ⟨⟨h₂.size, h₂.start, h₂.found, h₂.pending, ?_, h₂.max, h₂.nonneg⟩, ?_⟩
    · intro n e j hn hpend _ hj
      by_cases hnk : n = k
      · subst hnk
        cases hi.symm.trans hj
        cases (hext₂.depths (hext₁.depths hd)).symm.trans hn
        exact ⟨by omega, Int.le_trans hmax₁ hext₂.max,
          fun ht hn => hext₂.depths (hjump₁ _ _ ht hn), hfall⟩
      · exact h₂.left hn hpend hnk hj
    · rw [hrest₂, hrest₁]
      unfold rest
      dsimp only
      omega
  split at hl
  · next hterm =>
    cases hl
    exact hleft _ h₁ (.refl _) rfl (by rw [hterm]; exact nofun)
  · next hterm =>
    split at hl
    · cases hl
    · next f₂ hf₂ =>
      cases hl
      obtain ⟨h₂, hext₂, hat, hrest₂⟩ := h₁.visit (hr.fall hi (by simpa using hterm)) hf₂
      exact hleft _ h₂ hext₂ hrest₂ fun _ => hat

/-! ### Faults -/

theorem not_coherent_of_visit {fault : StepFault} (h : Inv c busy f) (hr : c.Reaches n e)
    (hv : f.visit n e = .error fault) : ¬ c.Coherent := by
  intro hc
  unfold Flow.visit at hv
  split at hv
  · next hnone =>
    have := hc.inside_of_reaches hr
    have := Array.getElem?_eq_none_iff.1 hnone
    have := h.size
    omega
  · next d hd =>
    split at hv
    · cases hv
    · next hne => exact hne (hc.same_of_reaches (h.found hd) hr)
  · cases hv

/-- Where the search fails, some ways disagree or go wrong. -/
theorem Inv.not_coherent {fault : FlowError} (h : Inv c (fun _ => False) f) (hb : c.Leads)
    (hi : c.instrs[k]? = some i) (hd : f.depths[k]? = some (some d))
    (hl : Flow.leave c { f with pending := f.pending.erase k } k i d = .error fault) :
    ¬ c.Coherent := by
  have hr := h.found hd
  unfold Flow.leave at hl
  split at hl
  · next hpop =>
    intro hc
    have := hc.pop_of_reaches hr hi
    omega
  dsimp only at hl
  rw [show Word.wrap (d + i.push - i.pop) = i.after d from rfl] at hl
  have htake := h.take hi hd
  split at hl
  · next fault' hv =>
    unfold Flow.visitTarget at hv
    split at hv
    · cases hv
    · next l ht =>
      have hbound := hb k d i l hr hi ht
      split at hv
      · next hnone =>
        rw [hnone] at hbound
        cases hbound
      · next n hn => exact not_coherent_of_visit htake (hr.jump hi ht hn) hv
  · next f₁ hf₁ =>
    obtain ⟨h₁, -⟩ := htake.visitTarget hr hi hf₁
    split at hl
    · cases hl
    · next hterm =>
      split at hl
      · next hv => exact not_coherent_of_visit h₁ (hr.fall hi (by simpa using hterm)) hv
      · cases hl

/-! ### Whole searches -/

theorem inv_start (h : c.instrs.size ≠ 0) : Inv c (fun _ => False) (start c) := by
  have hget : ∀ k, (start c).depths[k]? =
      if 0 = k then some (some 0) else if k < c.instrs.size then some none else none := by
    intro k
    unfold start
    dsimp only
    rw [Array.getElem?_setIfInBounds, Array.getElem?_replicate, Array.size_replicate]
    by_cases hk : 0 = k
    · rw [if_pos hk, if_pos hk, if_pos (by omega)]
    · rw [if_neg hk, if_neg hk]
  have hzero : ∀ {k d}, (start c).depths[k]? = some (some d) → k = 0 ∧ d = 0 := by
    intro k d hk
    rw [hget] at hk
    split at hk
    · cases hk
      exact ⟨.symm ‹_›, rfl⟩
    · split at hk <;> cases hk
  refine ⟨by simp [start], by rw [hget, if_pos rfl], ?_, ?_, ?_, .inl rfl, Int.le_refl _⟩
  · intro k d hk
    obtain ⟨rfl, rfl⟩ := hzero hk
    exact .start
  · intro k hk
    cases List.mem_singleton.1 hk
    exact ⟨0, by rw [hget, if_pos rfl]⟩
  · intro k d i hk hpend
    obtain ⟨rfl, -⟩ := hzero hk
    exact absurd (.head _) hpend

theorem rest_start (h : c.instrs.size ≠ 0) : (start c).rest = c.instrs.size := by
  have hpos : 0 < (Array.replicate c.instrs.size (none : Option Int)).size := by
    rw [Array.size_replicate]
    omega
  unfold rest start
  dsimp only
  rw [Array.setIfInBounds, dif_pos hpos, Array.count_set hpos]
  simp
  omega

/-! ### Sets of bits -/

/-- A set holds the instructions that have been found. -/
def Seen (f : Flow) (s : BitSet) : Prop := ∀ k, s.contains k = true ↔ ∃ d, f.depths[k]? = some (some d)

theorem seen_start (h : c.instrs.size ≠ 0) : (start c).Seen (BitSet.empty.insert 0) := by
  intro k
  rw [BitSet.contains_insert, BitSet.contains_empty, Bool.false_or, beq_iff_eq]
  simp only [start, Array.getElem?_setIfInBounds, Array.size_replicate, Array.getElem?_replicate]
  by_cases hk : 0 = k
  · simp [hk.symm, Nat.pos_of_ne_zero h]
  · by_cases hlt : k < c.instrs.size <;> simp [hk, hlt]

/-- The search may keep what it has found in a set of bits: it looks at an instruction that is in the set
for its depth only, and puts one that is not there into it. -/
theorem Seen.visit {s : BitSet} (h : f.Seen s) (hv : f.visit k d = .ok f') :
    f'.Seen (s.insert k) ∧ (s.contains k = true ↔ f' = f) := by
  obtain ⟨hd, rfl⟩ | ⟨hnone, rfl⟩ := visit_eq_ok hv
  · have hk : s.contains k = true := (h k).2 ⟨d, hd⟩
    refine ⟨fun n => ?_, iff_of_true hk rfl⟩
    rw [BitSet.contains_insert, Bool.or_eq_true, beq_iff_eq, h n, or_iff_left_iff_imp]
    rintro rfl
    exact ⟨d, hd⟩
  · obtain ⟨hlt, hget⟩ := Array.getElem?_eq_some_iff.1 hnone
    have hk : ¬ s.contains k = true := by simp [h k, hnone]
    refine ⟨fun n => ?_, iff_of_false hk fun hf => ?_⟩
    · rw [BitSet.contains_insert, Bool.or_eq_true, beq_iff_eq, h n, Array.getElem?_setIfInBounds]
      by_cases hn : k = n
      · subst hn
        simp [hlt]
      · simp [hn]
    · have := congrArg (fun f : Flow => f.depths[k]?) hf
      simp [hlt, hget] at this

/-! ### Orders -/

/-! The list of pending instructions is kept in ascending order. -/

theorem pairwise_insertSorted (h : js.Pairwise (· ≤ ·)) :
    (insertSorted k js).Pairwise (· ≤ ·) := by
  induction js with
  | nil => exact List.pairwise_singleton _ _
  | cons j js ih =>
    obtain ⟨hj, hjs⟩ := List.pairwise_cons.1 h
    unfold insertSorted
    split
    · next hlt =>
      refine List.pairwise_cons.2 ⟨fun n hn => ?_, h⟩
      rcases List.mem_cons.1 hn with rfl | hn
      · exact Nat.le_of_lt hlt
      · exact Nat.le_trans (Nat.le_of_lt hlt) (hj n hn)
    · next hle =>
      refine List.pairwise_cons.2 ⟨fun n hn => ?_, ih hjs⟩
      rcases mem_insertSorted.1 hn with rfl | hn
      · exact Nat.not_lt.1 hle
      · exact hj n hn

theorem pairwise_visit (hv : f.visit k d = .ok f') (h : f.pending.Pairwise (· ≤ ·)) :
    f'.pending.Pairwise (· ≤ ·) := by
  obtain ⟨-, rfl⟩ | ⟨-, rfl⟩ := visit_eq_ok hv
  · exact h
  · exact pairwise_insertSorted h

theorem pairwise_leave (hl : leave c f k i d = .ok f') (h : f.pending.Pairwise (· ≤ ·)) :
    f'.pending.Pairwise (· ≤ ·) := by
  unfold leave at hl
  split at hl
  · cases hl
  dsimp only at hl
  split at hl
  · cases hl
  next f₁ hf₁ =>
  have h₁ : f₁.pending.Pairwise (· ≤ ·) := by
    unfold visitTarget at hf₁
    split at hf₁
    · cases hf₁
      exact h
    · split at hf₁
      · cases hf₁
      · exact pairwise_visit hf₁ h
  split at hl
  · cases hl
    exact h₁
  · split at hl
    · cases hl
    · next hv =>
      cases hl
      exact pairwise_visit hv h₁

/-- The search in any order ends with a search that has gone on from all that it has found, or in a
fault that some ways show. -/
theorem Inv.drains (h : Inv c (fun _ => False) f) (hb : c.Leads) (hd : Drains c f r) :
    (∀ f', r = .ok f' → Inv c (fun _ => False) f' ∧ f'.pending = []) ∧
      ∀ fault, r = .error fault → ¬ c.Coherent := by
  induction hd with
  | done hnil =>
    refine ⟨?_, nofun⟩
    rintro _ ⟨⟩
    exact ⟨h, hnil⟩
  | fail _ hi hd hl => exact ⟨nofun, fun _ _ => h.not_coherent hb hi hd hl⟩
  | next hk hi hd hl _ ih => exact ih (h.leave hk hi hd hl).1

theorem DrainsBy.drains {takes : Flow → Nat → Prop} (h : DrainsBy c takes f r)
    (htakes : ∀ f k, takes f k → k ∈ f.pending) : Drains c f r := by
  induction h with
  | done hnil => exact .done hnil
  | fail hk hi hd hl => exact .fail (htakes _ _ hk) hi hd hl
  | next hk hi hd hl _ ih => exact .next (htakes _ _ hk) hi hd hl ih

/-- Taking the first pending instruction again and again is one such order, and ends within as many
steps as there may be instructions to take. -/
theorem Inv.run (h : Inv c (fun _ => False) f) (hsorted : f.pending.Pairwise (· ≤ ·))
    (hfuel : f.rest ≤ fuel) : DrainsBy c Least f (run c fuel f) := by
  induction fuel generalizing f with
  | zero =>
    refine .done (List.eq_nil_of_length_eq_zero ?_)
    unfold rest at hfuel
    omega
  | succ fuel ih =>
    unfold Flow.run
    cases hp : f.pending with
    | nil => exact .done hp
    | cons k ks =>
      have hk : k ∈ f.pending := hp ▸ .head _
      obtain ⟨d, hd⟩ := h.pending hk
      obtain ⟨hlt, -⟩ := Array.getElem?_eq_some_iff.1 hd
      have hi := Array.getElem?_eq_getElem (h.size ▸ hlt : k < c.instrs.size)
      have herase : ks = f.pending.erase k := by rw [hp, List.erase_cons_head]
      rw [hp] at hsorted
      obtain ⟨hle, hks⟩ := List.pairwise_cons.1 hsorted
      have hleast : Least f k := by
        refine ⟨hk, fun n hn => ?_⟩
        rw [hp] at hn
        rcases List.mem_cons.1 hn with rfl | hn
        · exact Nat.le_refl _
        · exact hle n hn
      dsimp only
      rw [hi, hd]
      dsimp only
      split
      · next hl => exact .fail hleast hi hd (herase ▸ hl)
      · next f' hl =>
        have hsorted' := pairwise_leave hl hks
        rw [herase] at hl
        obtain ⟨hinv, hrest⟩ := h.leave hk hi hd hl
        exact .next hleast hi hd hl (ih hinv hsorted' (by omega))

/-- The search of the analysis. -/
theorem drains_run (h : c.instrs.size ≠ 0) :
    DrainsBy c Least (start c) (Flow.run c c.instrs.size (start c)) :=
  (inv_start h).run (List.pairwise_singleton _ _) (Nat.le_of_eq (rest_start h))

section
variable (h : Inv c (fun _ => False) f) (hp : f.pending = [])
include h hp

theorem Inv.left_of_done (hk : f.depths[k]? = some (some d)) (hi : c.instrs[k]? = some i) :
    Left c f k i d :=
  h.left hk (by rw [hp]; exact List.not_mem_nil) id hi

/-- A search that has nothing left to do has found the depths of all ways. -/
theorem Inv.depth_of_reaches (hr : c.Reaches k d) : f.depths[k]? = some (some d) := by
  induction hr with
  | start => exact h.start
  | jump _ hi ht hn ih => exact (h.left_of_done hp ih hi).jump ht hn
  | fall _ hi ht ih => exact (h.left_of_done hp ih hi).fall ht

theorem Inv.coherent : c.Coherent where
  inside hk := by
    obtain ⟨hlt, -⟩ := Array.getElem?_eq_some_iff.1 (h.depth_of_reaches hp hk.reaches)
    exact h.size ▸ hlt
  pop hk hi := (h.left_of_done hp (h.depth_of_reaches hp hk.reaches) hi).pop
  same hd he := Option.some.inj (Option.some.inj
    ((h.depth_of_reaches hp hd.reaches).symm.trans (h.depth_of_reaches hp he.reaches)))

theorem Inv.isGreatest (hc : c.Built) : IsGreatest c.depthsAfter f.maxDepth := by
  have hupper : ∀ x ∈ c.depthsAfter, x ≤ f.maxDepth := by
    rintro x ⟨k, d, i, hk, hi, rfl⟩
    rw [← after_wrap]
    exact (h.left_of_done hp (h.depth_of_reaches hp hk.reaches) hi).max
  refine ⟨?_, hupper⟩
  rcases h.max with hzero | hmem
  · obtain ⟨x, hx, hpos⟩ := (h.coherent hp).exists_nonneg hc
    have hle := hupper x hx
    rwa [show f.maxDepth = x by omega]
  · exact hmem

end

/-- A search in any order succeeds where all ways are coherent, with the greatest depth on them. -/
theorem Drains.ok_iff (hd : Drains c (start c) r) (hc : c.Built) (hne : c.instrs.size ≠ 0)
    (hb : c.JumpsBound) (m : Int) :
    r.map (·.maxDepth) = .ok m ↔ c.Coherent ∧ IsGreatest c.depthsAfter m := by
  obtain ⟨hok, herror⟩ := (inv_start hne).drains hb.leads hd
  cases r with
  | error fault => exact ⟨nofun, fun h => absurd h.1 (herror fault rfl)⟩
  | ok f =>
    obtain ⟨h, hp⟩ := hok f rfl
    have hmax := h.isGreatest hp hc
    constructor
    · intro hm
      cases hm
      exact ⟨h.coherent hp, hmax⟩
    · rintro ⟨-, hm⟩
      exact congrArg Except.ok (hmax.unique hm)

end Flow

namespace Code

/-- The search through sound code that is finished ends without an error. -/
theorem Sound.analyze {c : Code} (h : c.Sound (some base)) (hc : c.Finished) :
    ∃ n, c.analyze = .ok n := by
  have hbound : c.unboundLabel? = none := by
    rw [unboundLabel?, Array.findIdx?_eq_none_iff]
    intro m hm
    obtain ⟨l, hl, rfl⟩ := Array.mem_iff_getElem.1 hm
    cases hindex : c.marks[l].index with
    | none => exact absurd ⟨_, Array.getElem?_eq_getElem hl, hindex⟩ (hc.bound l)
    | some n => rfl
  unfold Code.analyze
  split
  · exact ⟨0, rfl⟩
  · next hempty =>
    have hne : c.instrs.size ≠ 0 := by simpa [Array.isEmpty] using hempty
    have hdrains := (Flow.drains_run hne).drains fun _ _ => And.left
    obtain ⟨-, herror⟩ := (Flow.inv_start hne).drains (h.leads hc) hdrains
    rw [hbound]
    change ∃ n, (Flow.run c c.instrs.size (Flow.start c)).map (·.maxDepth) = .ok n
    cases hrun : Flow.run c c.instrs.size (Flow.start c) with
    | error fault => exact absurd (h.coherent hc) (herror fault hrun)
    | ok f => exact ⟨f.maxDepth, rfl⟩

/-- The search of the analysis takes pending instructions in one of all orders. -/
theorem Built.analyze_eq (hc : c.Built) (hne : c.instrs.size ≠ 0) (hb : c.JumpsBound) :
    ∃ r, Flow.Drains c (Flow.start c) r ∧ c.analyze = r.map (·.maxDepth) := by
  refine ⟨_, (Flow.drains_run hne).drains fun _ _ => And.left, ?_⟩
  unfold analyze
  rw [if_neg (by simpa [Array.isEmpty] using hne), hc.unboundLabel?_eq_none hb]
  rfl

/-- The analysis succeeds exactly where no way through the code runs past its end, takes more than
there is, or disagrees with another one on a depth; what it gives is then the greatest depth that an
instruction leaves on any way. Every order of taking pending instructions gives the same. -/
theorem analyze_iff_coherent {c : Code} (hc : c.Built) (hne : c.instrs.size ≠ 0)
    (hb : c.JumpsBound) :
    ((∃ m, c.analyze = .ok m) ↔ c.Coherent) ∧
    (∀ m, c.analyze = .ok m → IsGreatest c.depthsAfter m) ∧
    (∃ r, Flow.Drains c (Flow.start c) r) ∧
    ∀ r, Flow.Drains c (Flow.start c) r →
      ∀ m, r.map (·.maxDepth) = .ok m ↔ c.analyze = .ok m := by
  obtain ⟨r, hr, hanalyze⟩ := hc.analyze_eq hne hb
  have hiff : ∀ m, c.analyze = .ok m ↔ c.Coherent ∧ IsGreatest c.depthsAfter m := by
    rw [hanalyze]
    exact hr.ok_iff hc hne hb
  refine ⟨⟨?_, fun h => ?_⟩, fun m hm => ((hiff m).1 hm).2, ⟨r, hr⟩, fun r' hr' m => ?_⟩
  · rintro ⟨m, hm⟩
    exact ((hiff m).1 hm).1
  · obtain ⟨hok, herror⟩ := (Flow.inv_start hne).drains hb.leads hr
    cases r with
    | error fault => exact absurd h (herror fault rfl)
    | ok f => exact ⟨f.maxDepth, hanalyze⟩
  · rw [hr'.ok_iff hc hne hb m, hiff m]

/-- A loop that counts down to zero and returns. -/
def sampleCountdown : Code :=
  ((((((Code.empty.newLabel.2.newLabel.2.bind 0).load .int 0).jump .ifeq 1).inc 0 (-1)).jump .goto 0).bind
    1).ret .void

theorem built_sampleCountdown : sampleCountdown.Built :=
  .emit .returnVoid {} (.bind 1 (.emit .goto { label := 0 } (.emit .iinc { int := 0, inc := -1 }
    (.emit .ifeq { label := 1 } (.emit .iload { int := 0 } (.bind 0 (.newLabel (.newLabel .empty))))))))

theorem analyze_iff_coherent_sampleCountdown :
    sampleCountdown.Built ∧ sampleCountdown.instrs.size ≠ 0 ∧ sampleCountdown.JumpsBound ∧
      sampleCountdown.Coherent ∧ IsGreatest sampleCountdown.depthsAfter 1 := by
  have hb : sampleCountdown.JumpsBound := by
    have hinstrs : sampleCountdown.instrs.toList =
        [⟨.iload, .slot 0⟩, ⟨.ifeq, .label 1⟩, ⟨.iinc, .increment 0 (-1)⟩, ⟨.goto, .label 0⟩,
          ⟨.returnVoid, .plain⟩] := by decide
    intro i hi l ht
    rw [hinstrs] at hi
    simp only [List.mem_cons, List.not_mem_nil, or_false] at hi
    rcases hi with rfl | rfl | rfl | rfl | rfl <;> cases ht <;> rfl
  have hm : sampleCountdown.analyze = .ok 1 := by
    rw [analyze, built_sampleCountdown.unboundLabel?_eq_none hb]
    rfl
  obtain ⟨hiff, hmax, -⟩ := analyze_iff_coherent built_sampleCountdown (by decide) hb
  exact ⟨built_sampleCountdown, by decide, hb, hiff.1 ⟨1, hm⟩, hmax 1 hm⟩

end Code

end Classwright
