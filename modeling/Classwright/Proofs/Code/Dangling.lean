import Classwright.Proofs.Code.Agreement

/-!
Jumps to labels that are not bound. The analysis looks for such labels among those that a jump has
given a depth, and only instructions that can be reached when they are appended do that. The search
may yet come to others: to code that was appended where nothing led to and that a later jump leads
back to. This is the only way for the search to find a jump that leads nowhere.

The search takes the first pending instruction (`Flow.LeastFirst`), so it has gone on from all
instructions before it and has found those that could be reached with the depths that were followed
(`Code.Traced.depths_eq`), whatever the faults of the code.
-/

namespace Classwright

namespace Flow

open Code

variable {c : Code} {f f' : Flow} {i : Instr} {k n l : Nat} {d : Int}

/-- Going on from an instruction leads nowhere only if that is a jump to a label without a place. -/
theorem leave_nowhere (hl : leave c f k i d = .error (.jump n (.nowhere l))) :
    n = k ∧ i.pop ≤ d ∧ i.target? = some l ∧ c.labelIndex? l = none := by
  unfold leave at hl
  split at hl
  · cases hl
  next hpop =>
  dsimp only at hl
  split at hl
  · next hv =>
    cases hl
    unfold visitTarget at hv
    split at hv
    · cases hv
    · next ht =>
      split at hv
      · next hnone =>
        cases hv
        exact ⟨rfl, Int.not_lt.1 hpop, ht, hnone⟩
      · unfold visit at hv
        split at hv
        · cases hv
        · split at hv <;> cases hv
        · cases hv
  · split at hl
    · cases hl
    · split at hl <;> cases hl

/-- A search by the first pending instruction that finds a jump to nowhere has gone on from all
instructions before it. -/
theorem Inv.drains_nowhere (h : Inv c (fun _ => False) f) (hleast : LeastFirst takes)
    (hd : DrainsBy c takes f r) (hr : r = .error (.jump k (.nowhere l))) :
    ∃ f' i d, Inv c (fun _ => False) f' ∧ (∀ n ∈ f'.pending, k ≤ n) ∧
      f'.depths[k]? = some (some d) ∧ c.instrs[k]? = some i ∧ i.pop ≤ d ∧ i.target? = some l ∧
      c.labelIndex? l = none := by
  induction hd with
  | done => cases hr
  | fail hk hi hd hl =>
    cases hr
    obtain ⟨rfl, hnowhere⟩ := leave_nowhere hl
    exact ⟨_, _, _, h, (hleast _ _ hk).2, hd, hi, hnowhere⟩
  | next hk hi hd hl _ ih => exact ih (h.leave (hleast _ _ hk).1 hi hd hl).1 hr

end Flow

namespace Code

variable {c : Code} {entry : Nat → Option Int} {live : List Bool} {lost : List Label} {f : Flow}
  {k n l : Nat} {d : Int}

/-- A search that has gone on from all instructions before one has found it with the depth that was
followed. -/
theorem Traced.depths_eq (h : c.Traced entry) (hf : Flow.Inv c (fun _ => False) f)
    (hmin : ∀ n ∈ f.pending, k ≤ n) (hk : c.depthAt entry k = some d) (hlt : k < c.instrs.size) :
    f.depths[k]? = some (some d) := by
  induction k using Nat.strongRecOn generalizing d with
  | ind k ih =>
    rcases h.origin hk with ⟨rfl, rfl⟩ | ⟨j, i, hj, ⟨hi, hleft⟩, hto⟩
    · exact hf.start
    · obtain ⟨e, he, rfl⟩ := Option.map_eq_some_iff.1 hleft
      have hjlt := (Array.getElem?_eq_some_iff.1 hi).1
      have hd := ih j hj (fun n hn => Nat.le_trans (Nat.le_of_lt hj) (hmin n hn))
        ((depthAt_of_lt hjlt).trans he) hjlt
      have hgone := hf.left hd (fun hp => Nat.lt_irrefl _ (Nat.lt_of_lt_of_le hj (hmin j hp))) id hi
      rcases hto with ⟨rfl, ht⟩ | ⟨l, ht, hl⟩
      · exact hgone.fall ht
      · exact hgone.jump ht hl

/-- An instruction that could be reached when it was appended jumps to one that could not. -/
def JumpsBack (c : Code) (live : List Bool) : Prop :=
  ∃ (k n : Nat) (i : Instr) (l : Label), live[k]? = some true ∧ c.instrs[k]? = some i ∧
    i.target? = some l ∧ c.labelIndex? l = some n ∧ live[n]? = some false

theorem Followed.live_of_entry (h : c.Followed entry live) (hlt : k < c.instrs.size) :
    live[k]? = some (entry k).isSome := by
  obtain ⟨b, hb⟩ : ∃ b, live[k]? = some b := ⟨_, List.getElem?_eq_getElem (h.1 ▸ hlt)⟩
  rw [hb, Option.some_inj, Bool.eq_iff_iff, ← h.2 k hlt, hb, Option.some_inj]

/-- Ways lead to instructions that could not be reached only by a jump back. -/
theorem Traced.live_of_reaches (h : c.Traced entry) (hlive : c.Followed entry live)
    (hno : ¬ c.JumpsBack live) (hr : c.Reaches k d) (hlt : k < c.instrs.size) :
    live[k]? = some true := by
  have hentry {k d} (hk : c.depthAt entry k = some d) (hlt : k < c.instrs.size) :
      live[k]? = some true := by
    rw [depthAt_of_lt hlt] at hk
    rw [hlive.live_of_entry hlt, hk]
    rfl
  induction hr with
  | start => exact hentry h.start hlt
  | @jump k _ i l n _ hi ht hn ih =>
    have hk := ih (Array.getElem?_eq_some_iff.1 hi).1
    have hn' := hlive.live_of_entry hlt
    cases hsome : (entry n).isSome with
    | true => rw [hn', hsome]
    | false => exact absurd ⟨k, n, i, l, hk, hi, ht, hn, hsome ▸ hn'⟩ hno
  | @fall k _ i _ hi ht ih =>
    have hlt' := (Array.getElem?_eq_some_iff.1 hi).1
    obtain ⟨d, hd⟩ := Option.isSome_iff_exists.1 ((hlive.2 k hlt').1 (ih hlt'))
    exact hentry (h.fall hi hd ht) hlt

theorem Ran.drains_nowhere {takes : Flow → Nat → Prop} (h : c.Ran live lost)
    (hleast : Flow.LeastFirst takes) (hne : c.instrs.size ≠ 0) (hbound : c.unboundLabel? = none)
    (hdrains : Flow.DrainsBy c takes (Flow.start c) (.error (.jump k (.nowhere l)))) :
    live[k]? = some false ∧ c.JumpsBack live := by
  obtain ⟨entry, htraced, hlive, -⟩ := h.traced
  obtain ⟨f, i, d, hf, hmin, hd, hi, hpop, ht, hl⟩ :=
    (Flow.inv_start hne).drains_nowhere hleast hdrains rfl
  have hlt := (Array.getElem?_eq_some_iff.1 hi).1
  have hdead : live[k]? = some false := by
    rw [hlive.live_of_entry hlt]
    cases he : entry k with
    | none => rfl
    | some e =>
      -- the label has a depth, so the analysis would have stopped at it before
      cases hd.symm.trans (htraced.depths_eq hf hmin ((depthAt_of_lt hlt).trans he) hlt)
      obtain ⟨d, hd⟩ := htraced.marked hi he hpop ht hl
      obtain ⟨m, hm, rfl, hnonneg⟩ := mark?_eq_some.1 hd
      have := Array.findIdx?_eq_none_iff.1 hbound m (Array.mem_of_getElem? hm)
      rw [labelIndex?, hm] at hl
      simp [show m.index = none from hl, show m.depth ≠ -1 by omega] at this
  refine ⟨hdead, Classical.not_not.1 fun hno => ?_⟩
  have hk := htraced.live_of_reaches hlive hno (hf.found hd) hlt
  cases hk.symm.trans hdead

/-- The analysis of code that was written by any calls finds a jump to nowhere only at an instruction
that could not be reached when it was appended, and only if one that could be reached leads back to
such code. This holds of every search that takes the first of all pending instructions. -/
theorem Ran.analyze_nowhere (h : c.Ran live lost) :
    (∀ k l, c.analyze = .error (.jump k (.nowhere l)) → live[k]? = some false ∧ c.JumpsBack live) ∧
    ∀ takes, Flow.LeastFirst takes → c.instrs.size ≠ 0 → c.unboundLabel? = none → ∀ k l,
      Flow.DrainsBy c takes (Flow.start c) (.error (.jump k (.nowhere l))) →
      live[k]? = some false ∧ c.JumpsBack live := by
  refine ⟨fun k l ha => ?_, fun takes hleast hne hbound k l => h.drains_nowhere hleast hne hbound⟩
  unfold analyze at ha
  split at ha
  · cases ha
  next hempty =>
  have hne : c.instrs.size ≠ 0 := by simpa [Array.isEmpty] using hempty
  split at ha
  · cases ha
  next hbound =>
  have hdrains := Flow.drains_run hne
  change (Flow.run c c.instrs.size (Flow.start c)).map (·.maxDepth) = _ at ha
  cases hr : Flow.run c c.instrs.size (Flow.start c) with
  | error e =>
    rw [hr] at ha hdrains
    cases ha
    exact h.drains_nowhere (fun _ _ => id) hne hbound hdrains
  | ok f =>
    rw [hr] at ha
    cases ha

/-- A jump to nowhere in code that nothing led to, and a jump back to it. -/
def sampleDangling : Code :=
  ((((Code.empty.newLabel.2.newLabel.2.newLabel.2.jump .goto 0).bind 1).jump .goto 2).bind 0).jump .goto 1

theorem ran_sampleDangling : sampleDangling.Ran [true, false, true] [1] :=
  .emits (.bind (.emits (.bind (.emits (.newLabel (.newLabel (.newLabel .empty)))
    (.jump .goto 0 (by decide))) (by decide)) (.jump .goto 2 (by decide))) (by decide))
    (.jump .goto 1 (by decide))

theorem analyze_sampleDangling : sampleDangling.analyze = .error (.jump 1 (.nowhere 2)) := by
  decide +kernel

theorem Ran.analyze_nowhere_sampleDangling : sampleDangling.JumpsBack [true, false, true] :=
  ((Ran.analyze_nowhere ran_sampleDangling).1 1 2 analyze_sampleDangling).2

/-- There is code that has such a jump. -/
theorem Ran.exists_nowhere : ∃ (c : Code) (live : List Bool) (lost : List Label), c.Ran live lost ∧
    ∃ k l, c.analyze = .error (.jump k (.nowhere l)) :=
  ⟨_, _, _, ran_sampleDangling, 1, 2, analyze_sampleDangling⟩

end Code

end Classwright
