import Classwright.Body

/-!
Conversions of the value on top of the stack: widening and narrowing of numbers, boxing, and storing
into unions.
-/

namespace Classwright

/-- The kinds of numbers that the machine computes with. -/
inductive NumberKind where
  | int | long | float | double
  deriving DecidableEq, Repr

def Prim.numberKind : Prim → NumberKind
  | .long => .long
  | .float => .float
  | .double => .double
  | _ => .int

/-- The instruction between two kinds of numbers. -/
def NumberKind.conversion? : NumberKind → NumberKind → Option Opcode
  | .int, .long => some .i2l
  | .int, .float => some .i2f
  | .int, .double => some .i2d
  | .long, .int => some .l2i
  | .long, .float => some .l2f
  | .long, .double => some .l2d
  | .float, .int => some .f2i
  | .float, .long => some .f2l
  | .float, .double => some .f2d
  | .double, .int => some .d2i
  | .double, .long => some .d2l
  | .double, .float => some .d2f
  | _, _ => none

/-- The instruction that cuts a whole number to a narrow type. -/
def Prim.narrowing? (source target : Prim) : Option Opcode :=
  match target with
  | .byte => some .i2b
  | .char => some .i2c
  | .short => if source = .byte then none else some .i2s
  | _ => none

namespace Ty

/-- The primitive that a class boxes. -/
def unboxed? (cls : Text) : Option Prim :=
  Prim.all.find? fun p => p != .void && p.wrapper == cls

/-- What a member is chosen from: the choice so far and the members after it. -/
theorem mem_of_selectFrom {best : Option (Ty × Nat)} {ms : List Ty} {source m : Ty} {c : Nat}
    (h : selectFrom best ms source = some (m, c)) : m ∈ ms ∨ ∃ d, best = some (m, d) := by
  induction ms generalizing best with
  | nil =>
    rw [selectFrom] at h
    exact .inr ⟨c, h⟩
  | cons n ns ih =>
    rw [selectFrom] at h
    rcases ih h with h | ⟨d, h⟩
    · exact .inl (.tail _ h)
    · unfold cheaper at h
      split at h
      · exact .inr ⟨d, h⟩
      · cases h
        exact .inl (.head _)
      · split at h
        · cases h
          exact .inl (.head _)
        · cases h
          exact .inr ⟨_, rfl⟩

theorem mem_of_select? {ms : List Ty} {source m : Ty} {c : Nat}
    (h : select? ms source = some (m, c)) : m ∈ ms := by
  rcases mem_of_selectFrom h with h | ⟨d, h⟩
  · exact h
  · cases h

/-- The descriptor of the argument that text is made from a value of a type through. -/
def textDescriptor (t : Ty) : Text :=
  match t with
  | .prim .byte | .prim .short | .prim .int => int.descriptor
  | .prim .void => object.descriptor
  | .prim p => p.descriptor
  | t => if t.isString then t.descriptor else object.descriptor

end Ty

namespace Gen

/-- Converts a number. -/
def convertPrim (source target : Prim) (narrow : Bool) : Gen Unit := do
  if source = target then return
  if let some op := source.numberKind.conversion? target.numberKind then Gen.op op
  if narrow && target.numberKind = .int then
    if let some op := source.narrowing? target then Gen.op op

/-- Puts a primitive into an object of its class. -/
def box (p : Prim) : Gen Unit :=
  invoke .invokestatic p.wrapper "valueOf"
    ("(" ++ p.descriptor ++ ")" ++ (Ty.cls p.wrapper).descriptor)

/-- Takes a primitive out of an object of its class. -/
def unbox (p : Prim) : Gen Unit :=
  let name : Text := if p = .bool then "booleanValue" else p.name ++ "Value"
  invoke .invokevirtual p.wrapper name ("()" ++ p.descriptor)

/-- Converts the value on top, which has to be one that the type takes. Numbers are narrowed too if
`narrow` is set. -/
def conv (source target : Ty) (narrow : Bool) : Gen Unit := do
  if source.same target || target.isVoid then return
  match target with
  | .prim p =>
    match source with
    | .prim q => convertPrim q p narrow
    | _ => throw (.convert source target)
  | .null => return
  | .nullable t => conv source t narrow
  | .cls name =>
    match source with
    | .prim q =>
      match Ty.unboxed? name with
      | some p =>
        convertPrim q p narrow
        box p
      | none => box q
    | _ => return
  | .union ts =>
    match source with
    | .union _ => return
    | _ =>
      match _h : Ty.select? ts source with
      | none => throw (.convert source target)
      | some (m, _) =>
        conv source m narrow
        match m with
        | .prim p => box p
        | _ => return
  | .method .. => throw (.convert source target)
  termination_by sizeOf target
  decreasing_by
  · simp_wf
  · simp_wf
    have := List.sizeOf_lt_of_mem (Ty.mem_of_select? _h)
    omega

def convert (source target : Ty) : Gen Unit := conv source target false

end Gen

end Classwright
