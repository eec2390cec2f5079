import Classwright.Ty

/-!
Which values a variable takes, and at what cost. The cost counts conversion steps: places on the
widening chain, boxing, and upcasts; overload resolution and unions choose the cheapest.
-/

namespace Classwright

/-- The cost of putting a primitive into a boxed reference. -/
def boxingCost : Nat := 10

/-- The cost of forgetting part of a reference's type. -/
def upcastCost : Nat := 1

namespace Prim

/-- The number of widening steps between two different primitives; a `char` widens to `int` and
what is above it. -/
def wideningCost? (target source : Prim) : Option Nat :=
  if !target.isNumeric || !source.isNumeric || target == char then none
  else if source == char && target.rank < int.rank then none
  else if target.rank < source.rank then none
  else some (target.rank - source.rank + if source == char then 1 else 0)

end Prim

namespace Ty

/-- What storing into a member adds to the cost of a conversion to it. -/
def storageCost : Ty → Nat
  | prim _ => boxingCost
  | _ => upcastCost

/-- The cheaper of a choice made so far and a new one; the one made so far on a tie. -/
def cheaper (best : Option (Ty × Nat)) (t : Ty) (cost : Option Nat) : Option (Ty × Nat) :=
  match best, cost with
  | best, none => best
  | none, some c => some (t, c)
  | some (b, d), some c => if c < d then some (t, c) else some (b, d)

mutual

/-- The cost of storing a value of type `source` into a variable of type `target`. -/
def assignCost? (target source : Ty) : Option Nat :=
  if target.isVoid || source.isVoid then none
  else if same target source then some 0
  else match target with
    | prim p =>
      match source with
      | prim q => p.wideningCost? q
      | _ => none
    | cls name =>
      match source with
      | prim q =>
        if same (cls name) object || name == q.wrapper then some boxingCost else none
      | cls _ | null | nullable _ | union _ =>
        if same (cls name) object then some upcastCost else none
      | method _ _ => none
    | union ts =>
      match source with
      | union ss => if allMembers ts ss then some upcastCost else none
      | _ => (selectFrom none ts source).map (·.2)
    | null =>
      match source with
      | null => some 0
      | _ => none
    | nullable t =>
      match source with
      | null => some 0
      | nullable s => assignCost? t s
      | _ => (assignCost? t source).map (· + upcastCost)
    | method _ _ => none

/-- The member that a value is stored as, given the best one so far, and the cost. -/
def selectFrom (best : Option (Ty × Nat)) (members : List Ty) (source : Ty) :
    Option (Ty × Nat) :=
  match members with
  | [] => best
  | m :: ms =>
    selectFrom (cheaper best m ((assignCost? m source).map (· + storageCost m))) ms source

end

/-- The member that a union stores a value as, and the cost: the cheapest conversion, the first of
them on a tie. -/
def select? (members : List Ty) (source : Ty) : Option (Ty × Nat) := selectFrom none members source

def assignable (target source : Ty) : Bool := (assignCost? target source).isSome

/-- The type that both operands of an arithmetic operator are widened to. -/
def promote? : Ty → Ty → Option Prim
  | prim a, prim b => a.promote b
  | _, _ => none

end Ty

end Classwright
