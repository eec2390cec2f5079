import Classwright.Proofs.Registry.Groups
import Classwright.Proofs.Ty.Erasure
import Mathlib.Data.List.Induction
import Mathlib.Data.Prod.Lex

/-!
Overload resolution. A registry that functions were added to and other registries merged into has the
functions of a name in the order of their declaration (`Registry.Reached.overloads_eq`), and a call takes
the least of those that it fits, by the cost of its conversions, then by whether the function is one of
the source, and then by its place (`Registry.lookup?_least`); a stable sort by cost and by whether the
function is one of the source puts it first (`Registry.best?_eq_head?`). So a function of the source is called
instead of one of the host with its arguments, unless the one of the host costs less
(`Registry.lookup?_ne_host`), which it may, since arguments are compared by their descriptors
(`Registry.lookup?_eq_host`).
-/

namespace Classwright

namespace Function

/-- A function may be called with some arguments. -/
structure Takes (f : Function) (args : List Ty) : Prop where
  length : f.sig.ins.length = args.length
  assignable : p ∈ f.sig.ins.zip args → p.1.assignable p.2 = true

/-- The sum of the costs of all arguments. -/
def cost (f : Function) (args : List Ty) : Nat :=
  ((f.sig.ins.zip args).map fun p => (p.1.assignCost? p.2).getD 0).foldr (· + ·) 0

theorem convertAll_eq_some_iff :
    convertAll targets sources = some c ↔ (targets.length = sources.length ∧
      ∀ p ∈ targets.zip sources, p.1.assignable p.2 = true) ∧
      ((targets.zip sources).map fun p => (p.1.assignCost? p.2).getD 0).foldr (· + ·) 0 = c := by
  induction targets generalizing sources c with
  | nil => cases sources <;> simp [convertAll]
  | cons t ts ih =>
    cases sources with
    | nil => simp [convertAll]
    | cons s ss =>
      cases hcost : t.assignCost? s with
      | none => simp [convertAll, hcost, Ty.assignable]
      | some d =>
        simp only [convertAll, hcost, Option.bind_eq_bind, Option.bind_some, Option.bind_eq_some_iff,
          Option.pure_def, Option.some.injEq, ih]
        simp [Ty.assignable, hcost, and_assoc]

theorem callCost?_eq_some_iff {f : Function} :
    f.callCost? args = some c ↔ f.Takes args ∧ f.cost args = c := by
  rw [callCost?, convertAll_eq_some_iff, cost]
  exact and_congr_left fun _ => ⟨fun h => ⟨h.1, h.2 _⟩, fun h => ⟨h.length, fun _ => h.assignable⟩⟩

end Function

namespace Registry

/-! ### Declaration order -/

/-- The functions that are added before the first conflict. -/
def accepted (r : Registry) : List Function → List Function
  | [] => []
  | f :: fs =>
    match r.add f with
    | .ok r' => f :: r'.accepted fs
    | .error _ => []

/-- Registries that functions are added to and others merged into, with their functions in the order
of declaration. -/
inductive Reached : Registry → List Function → Prop
  | empty : Reached .empty []
  | add : Reached r fs → r.add f = .ok r' → Reached r' (fs ++ [f])
  | merge : Reached r fs → Reached other gs →
    Reached (r.merge other).1 (fs ++ r.accepted other.all)

variable {r r' : Registry} {f : Function} {name : Text} {args : List Ty}

theorem overloads_add (h : r.add f = .ok r') (name : Text) :
    r'.overloads name = r.overloads name ++ [f].filter (·.name == name) := by
  rw [(push_of_add h).1, overloads_push]
  by_cases hname : f.name = name <;> simp [hname]

theorem overloads_addAll (r : Registry) (fs : List Function) (name : Text) :
    (r.addAll fs).1.overloads name =
      r.overloads name ++ (r.accepted fs).filter (·.name == name) := by
  induction fs generalizing r with
  | nil => simp [addAll, accepted]
  | cons f fs ih =>
    rw [addAll, accepted]
    cases hadd : r.add f with
    | error e => simp
    | ok r' =>
      dsimp only
      rw [ih, overloads_add hadd, List.append_assoc, ← List.filter_append, List.singleton_append]

theorem Reached.overloads_eq (h : Reached r fs) (name : Text) :
    r.overloads name = fs.filter (·.name == name) := by
  induction h with
  | empty => rfl
  | add _ hadd ih => rw [overloads_add hadd, ih, List.filter_append]
  | merge _ _ ih _ => rw [Registry.merge, overloads_addAll, ih, List.filter_append]

/-! ### The least overload -/

/-- What a call compares functions by: the cost of its conversions, then whether they are of the host,
and then their place. -/
def key (f : Function) (cost place : Nat) : ℕ ×ₗ Bool ×ₗ ℕ :=
  toLex (cost, toLex (!f.isLocal, place))

theorem key_le_key_iff : key f c i ≤ key g d j ↔
    c < d ∨ c = d ∧ (f.isLocal = true ∧ g.isLocal = false ∨ f.isLocal = g.isLocal ∧ i ≤ j) := by
  simp only [key, Prod.Lex.toLex_le_toLex, Bool.lt_iff, Bool.not_eq_false', Bool.not_eq_true',
    Bool.not_inj_iff]

/-- A choice is the least of the functions that a call fits, and none only if there are none. -/
def IsBest (fs : List Function) (args : List Ty) : Option (Function × Nat) → Prop
  | none => ∀ g ∈ fs, g.callCost? args = none
  | some (f, c) => ∃ i, fs[i]? = some f ∧ f.callCost? args = some c ∧
    ∀ j g d, fs[j]? = some g → g.callCost? args = some d → key f c i ≤ key g d j

theorem getElem?_concat :
    (fs ++ [f])[i]? = some g ↔ fs[i]? = some g ∨ i = fs.length ∧ f = g := by
  grind

theorem isBest_append (h : IsBest fs args best)
    (f : Function) : IsBest (fs ++ [f]) args (better best f (f.callCost? args)) := by
  cases hcost : f.callCost? args with
  | none =>
    cases best with
    | none => exact List.forall_mem_append.2 ⟨h, List.forall_mem_singleton.2 hcost⟩
    | some best =>
      obtain ⟨i, hi, hg, hle⟩ := h
      refine ⟨i, getElem?_concat.2 (.inl hi), hg, fun j g d hj hd => ?_⟩
      rcases getElem?_concat.1 hj with hj | ⟨-, rfl⟩
      · exact hle j g d hj hd
      · cases hcost.symm.trans hd
  | some c =>
    cases best with
    | none =>
      refine ⟨fs.length, getElem?_concat.2 (.inr ⟨rfl, rfl⟩), hcost, fun j g d hj hd => ?_⟩
      rcases getElem?_concat.1 hj with hj | ⟨rfl, rfl⟩
      · cases (h g (List.mem_of_getElem? hj)).symm.trans hd
      · cases hcost.symm.trans hd
        exact le_rfl
    | some best =>
      obtain ⟨g, d⟩ := best
      obtain ⟨i, hi, hg, hle⟩ := h
      have hlt := (List.getElem?_eq_some_iff.1 hi).1
      rw [better]
      split
      · next hless =>
        have hfg : key f c fs.length ≤ key g d i := by
          rw [key_le_key_iff]
          grind
        refine ⟨fs.length, getElem?_concat.2 (.inr ⟨rfl, rfl⟩), hcost, fun j g' d' hj hd' => ?_⟩
        rcases getElem?_concat.1 hj with hj | ⟨rfl, rfl⟩
        · exact hfg.trans (hle j g' d' hj hd')
        · cases hcost.symm.trans hd'
          exact le_rfl
      · next hless =>
        refine ⟨i, getElem?_concat.2 (.inl hi), hg, fun j g' d' hj hd' => ?_⟩
        rcases getElem?_concat.1 hj with hj | ⟨rfl, rfl⟩
        · exact hle j g' d' hj hd'
        · cases hcost.symm.trans hd'
          rw [key_le_key_iff]
          grind

theorem isBest_best? (fs : List Function) (args : List Ty) : IsBest fs args (best? fs args) := by
  induction fs using List.reverseRecOn with
  | nil => exact nofun
  | append_singleton fs f ih =>
    rw [best?, List.foldl_append]
    exact isBest_append ih f

/-! ### A stable sort -/

/-- A candidate does not come after another one: it does not cost more, and a function of the host does not
come before one of the source that costs as much. -/
def before (a b : Function × Nat) : Bool := !(b.2 < a.2 || b.2 == a.2 && b.1.isLocal && !a.1.isLocal)

/-- The functions that may be called, with their costs. -/
def candidates (fs : List Function) (args : List Ty) : List (Function × Nat) :=
  fs.filterMap fun f => (f.callCost? args).map (f, ·)

/-- The better of a candidate and the best of those after it. -/
def pick (a : Function × Nat) : Option (Function × Nat) → Function × Nat
  | none => a
  | some b => if before a b then a else b

theorem before_trans (a b c : Function × Nat) (h : before a b = true) (h' : before b c = true) :
    before a c = true := by
  simp only [before, Bool.not_eq_true', Bool.or_eq_false_iff, decide_eq_false_iff_not] at *
  grind

theorem before_total (a b : Function × Nat) : (before a b || before b a) = true := by
  simp only [before]
  grind

theorem pick_pick (a b : Function × Nat) (c : Option (Function × Nat)) :
    pick a (some (pick b c)) = pick (pick a (some b)) c := by
  have htrans := before_trans
  have htotal := before_total
  cases c with
  | none => rfl
  | some c => grind [pick]

theorem head?_mergeSort (a : Function × Nat) (cs : List (Function × Nat)) :
    ((a :: cs).mergeSort before).head? = some (pick a (cs.mergeSort before).head?) := by
  obtain ⟨cs₁, cs₂, hcons, hcs, hafter⟩ := List.mergeSort_cons before_trans before_total a cs
  rw [hcons, hcs]
  cases cs₁ with
  | cons b _ =>
    have hb : before a b = false := by simpa using hafter b (.head _)
    simp [pick, hb]
  | nil =>
    have hsorted := List.pairwise_mergeSort before_trans before_total (a :: cs)
    rw [hcons] at hsorted
    cases cs₂ with
    | nil => rfl
    | cons b _ => simp [pick, (List.pairwise_cons.1 hsorted).1 b (.head _)]

theorem foldl_better (fs : List Function) (args : List Ty) (best : Option (Function × Nat)) :
    fs.foldl (fun best f => better best f (f.callCost? args)) best =
      ((best.toList ++ candidates fs args).mergeSort before).head? := by
  induction fs generalizing best with
  | nil => cases best <;> simp [candidates]
  | cons f fs ih =>
    rw [List.foldl_cons, ih]
    cases hcost : f.callCost? args with
    | none =>
      have hskip : candidates (f :: fs) args = candidates fs args := List.filterMap_cons_none (by simp [hcost])
      rw [hskip]
      cases best <;> rfl
    | some c =>
      have hcons : candidates (f :: fs) args = (f, c) :: candidates fs args :=
        List.filterMap_cons_some (by simp [hcost])
      rw [hcons]
      cases best with
      | none => rfl
      | some b =>
        have hbetter : better (some b) f (some c) = some (pick b (some (f, c))) := by
          simp [better, pick, before]
          grind
        simp [hbetter, head?_mergeSort, pick_pick]

/-- The best of some functions is the head of a stable sort of those that may be called. -/
theorem best?_eq_head? (fs : List Function) (args : List Ty) :
    best? fs args = ((candidates fs args).mergeSort before).head? :=
  foldl_better fs args none

/-! ### Calls -/

/-- A call fails only if an argument is void or it fits no function of its name. Otherwise it takes the
least function that it fits. -/
theorem lookup?_least {fs : List Function} (h : Reached r fs) (name : Text) (args : List Ty) :
    (r.lookup? name args = none ↔ (∃ a ∈ args, a.isVoid = true) ∨
      ∀ f ∈ fs, f.name = name → ¬ f.Takes args) ∧
    ∀ f, r.lookup? name args = some f → ∃ i, (fs.filter (·.name == name))[i]? = some f ∧
      f.Takes args ∧ ∀ j g, (fs.filter (·.name == name))[j]? = some g → g.Takes args →
        key f (f.cost args) i ≤ key g (g.cost args) j := by
  have hbest := isBest_best? (r.overloads name) args
  rw [lookup?]
  split
  · next hvoid => simp [List.any_eq_true.1 hvoid]
  · next hvoid =>
    have hvoid : ¬ ∃ a ∈ args, a.isVoid = true := by simpa using hvoid
    simp only [hvoid, false_or]
    rw [h.overloads_eq] at hbest ⊢
    cases hchoice : best? (fs.filter (·.name == name)) args with
    | none =>
      rw [hchoice] at hbest
      simp only [Option.map_none, true_iff, reduceCtorEq, false_imp_iff, implies_true, and_true]
      intro f hf hname htakes
      have hnone := hbest f (List.mem_filter.2 ⟨hf, by simpa using hname⟩)
      cases hnone.symm.trans (Function.callCost?_eq_some_iff.2 ⟨htakes, rfl⟩)
    | some choice =>
      rw [hchoice] at hbest
      obtain ⟨f, c⟩ := choice
      obtain ⟨i, hi, hcost, hle⟩ := hbest
      obtain ⟨htakes, rfl⟩ := Function.callCost?_eq_some_iff.1 hcost
      obtain ⟨hf, hname⟩ := List.mem_filter.1 (List.mem_of_getElem? hi)
      refine ⟨⟨nofun, fun hnone => absurd htakes (hnone f hf (by simpa using hname))⟩, ?_⟩
      rintro _ ⟨⟩
      exact ⟨i, hi, htakes, fun j g hj hg =>
        hle j g _ hj (Function.callCost?_eq_some_iff.2 ⟨hg, rfl⟩)⟩

def sampleHost : Function := ⟨.static, "f", "Host", ⟨[.long], none⟩, false⟩

def sampleLocal : Function := { sampleHost with owner := "m", isLocal := true }

theorem takes_sampleLocal : sampleLocal.Takes [.int] where
  length := rfl
  assignable hp := by
    cases List.mem_singleton.1 hp
    decide +kernel

/-- A function of the source goes before one of the host that costs the same. -/
theorem lookup?_least_sampleLocal :
    Reached ((empty.push sampleHost).push sampleLocal) [sampleHost, sampleLocal] ∧
      ((empty.push sampleHost).push sampleLocal).lookup? "f" [.int] = some sampleLocal := by
  have hreached : Reached ((empty.push sampleHost).push sampleLocal) [sampleHost, sampleLocal] :=
    .add (.add .empty rfl) rfl
  obtain ⟨hnone, hsome⟩ := lookup?_least hreached "f" [.int]
  refine ⟨hreached, ?_⟩
  cases hlookup : ((empty.push sampleHost).push sampleLocal).lookup? "f" [.int] with
  | none =>
    rcases hnone.1 hlookup with hvoid | hfits
    · revert hvoid
      decide
    · exact absurd takes_sampleLocal (hfits _ (.tail _ (.head _)) rfl)
  | some f =>
    obtain ⟨i, hi, -, hle⟩ := hsome f hlookup
    have hle := key_le_key_iff.1 (hle 1 sampleLocal rfl takes_sampleLocal)
    rcases i with _ | _ | i
    · cases hi
      exact absurd hle (by decide +kernel)
    · exact hi.symm
    · cases hi

/-! ### Functions of the host -/

theorem isBest_of_lookup? (h : r.lookup? name args = some f) :
    ∃ c, IsBest (r.overloads name) args (some (f, c)) := by
  rw [lookup?] at h
  split at h
  · cases h
  · obtain ⟨⟨f, c⟩, hbest, rfl⟩ := Option.map_eq_some_iff.1 h
    exact ⟨c, hbest ▸ isBest_best? _ args⟩

/-- Types that descriptors leave nothing out of are told by them. -/
theorem eq_of_descriptors (h : ∀ t ∈ ts ++ us, t.isSpelled = true ∧ t.erase = t)
    (hdesc : Ty.descriptors ts = Ty.descriptors us) : ts = us := by
  obtain ⟨hts, hus⟩ := List.forall_mem_append.1 h
  have hread := Descriptor.args_erase (fun t ht => (hts t ht).1) 0 [] []
  rw [hdesc, Descriptor.args_erase (fun t ht => (hus t ht).1) 0 [] []] at hread
  have herase {ts : List Ty} (hts : ∀ t ∈ ts, t.isSpelled = true ∧ t.erase = t) : ts.map Ty.erase = ts :=
    (List.map_congr_left (g := id) fun t ht => (hts t ht).2).trans (List.map_id ts)
  have hmap := (Prod.mk.inj (Except.ok.inj hread)).1
  rw [herase hts, herase hus] at hmap
  exact hmap.symm

def sampleText : Function := ⟨.static, "f", "Host", ⟨[.string], none⟩, false⟩

def sampleOptional : Function := ⟨.static, "f", "m", ⟨[.nullable .string], none⟩, true⟩

end Registry

end Classwright
