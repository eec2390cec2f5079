import Classwright.Proofs.Machine.Step

/-!
What operators mean. Whole numbers are words of 32 and 64 bits, and an operator on numbers is applied
at the wider of their widths. An operator has a meaning for two values exactly where it has a type for
theirs, and gives a value of that type unless it divides by zero (`BinaryOp.isTyped`).
-/

namespace Classwright

open Machine (Arith Order spelled)

/-- A value with its type. -/
inductive Datum where
  | int (i : Int32)
  | long (i : Int64)
  | char (c : UInt16)
  | bool (b : Bool)
  | text (units : List Nat)
  | null
  deriving DecidableEq, Repr

/-- What an operation gives. -/
inductive Result where
  | value (v : Datum)
  | zeroDivision
  deriving DecidableEq, Repr

/-- Two numbers of one width. -/
inductive Pair where
  | ints (i j : Int32)
  | longs (i j : Int64)

namespace Pair

def arith (op : Arith) : Pair → Result
  | ints i j => ((op.int? i j).map fun k => .value (.int k)).getD .zeroDivision
  | longs i j => ((op.long? i j).map fun k => .value (.long k)).getD .zeroDivision

def holds (o : Order) : Pair → Bool
  | ints i j => o.holds i.toInt j.toInt
  | longs i j => o.holds i.toInt j.toInt

end Pair

namespace Datum

def type : Datum → Ty
  | int _ => .int
  | long _ => .long
  | char _ => .char
  | bool _ => .bool
  | text _ => .string
  | null => .null

/-- The value as the machine has it. -/
def val : Datum → Val
  | int i => .int i
  | long i => .long i
  | char c => .int (Int32.ofNat c.toNat)
  | bool b => .int (if b then 1 else 0)
  | text u => .text u
  | null => .null

/-- The value as a number of 32 bits. -/
def int? : Datum → Option Int32
  | int i => some i
  | char c => some (Int32.ofNat c.toNat)
  | _ => none

/-- The value as a number of 64 bits. -/
def long? : Datum → Option Int64
  | long i => some i
  | d => d.int?.map (·.toInt64)

/-- Two numbers at the wider of their widths. -/
def pair? (a b : Datum) : Option Pair :=
  match a.int?, b.int? with
  | some i, some j => some (.ints i j)
  | _, _ =>
    match a.long?, b.long? with
    | some i, some j => some (.longs i j)
    | _, _ => none

def isText : Datum → Bool
  | text _ => true
  | _ => false

/-- The text of a value in a concatenation. -/
def units : Datum → List Nat
  | int i => spelled (Text.ofInt i.toInt)
  | long i => spelled (Text.ofInt i.toInt)
  | char c => [c.toNat]
  | bool b => spelled (if b then "true" else "false")
  | text u => u
  | null => spelled "null"

/-- Whether two values are equal, if they can be compared. -/
def equal? : Datum → Datum → Option Bool
  | bool x, bool y => some (x == y)
  | text u, text v => some (u == v)
  | null, null => some true
  | null, text _ | text _, null => some false
  | a, b => (a.pair? b).map (·.holds .eq)

end Datum

def UnaryOp.apply (op : UnaryOp) (a : Datum) : Option Datum :=
  match op, a with
  | .not, .bool x => some (.bool !x)
  | .plus, .int i => some (.int i)
  | .plus, .long i => some (.long i)
  | .plus, .char c => some (.int (Int32.ofNat c.toNat))
  | .minus, .int i => some (.int (-i))
  | .minus, .long i => some (.long (-i))
  | .minus, .char c => some (.int (-Int32.ofNat c.toNat))
  | _, _ => none

namespace BinaryOp

def arith? : BinaryOp → Option Arith
  | add => some .add
  | sub => some .sub
  | mul => some .mul
  | div => some .div
  | mod => some .rem
  | xor => some .xor
  | _ => none

def order? : BinaryOp → Option Order
  | eq => some .eq
  | ne => some .ne
  | lt => some .lt
  | ge => some .ge
  | gt => some .gt
  | le => some .le
  | _ => none

/-- An operator on numbers. -/
def onNumbers (op : BinaryOp) (a b : Datum) : Option Result := do
  let p ← a.pair? b
  match op.arith?, op.order? with
  | some op, _ => some (p.arith op)
  | none, some o => some (.value (.bool (p.holds o)))
  | none, none => none

def apply (op : BinaryOp) (a b : Datum) : Option Result :=
  match op, a, b with
  | and, .bool x, .bool y => some (.value (.bool (x && y)))
  | or, .bool x, .bool y => some (.value (.bool (x || y)))
  | xor, .bool x, .bool y => some (.value (.bool (x != y)))
  | eq, a, b => (a.equal? b).map fun e => .value (.bool e)
  | ne, a, b => (a.equal? b).map fun e => .value (.bool !e)
  | add, a, b =>
    if a.isText || b.isText then some (.value (.text (a.units ++ b.units))) else add.onNumbers a b
  | op, a, b => op.onNumbers a b

end BinaryOp

/-! ### Types -/

namespace Ty

@[simp] theorem isString_prim (p : Prim) : (prim p).isString = false := by
  rw [isString, string, same.eq_def]

@[simp] theorem isString_string : string.isString = true := by
  rw [isString, string, same.eq_def]
  exact beq_self_eq_true _

@[simp] theorem isString_null : null.isString = false := by
  rw [isString, string, same.eq_def]

end Ty

namespace Pair

def prim : Pair → Prim
  | ints _ _ => .int
  | longs _ _ => .long

end Pair

namespace Datum

/-- Numbers are widened as their types are. -/
theorem promote?_type (a b : Datum) : a.type.promote? b.type = (a.pair? b).map (·.prim) := by
  cases a <;> cases b <;> rfl

theorem isBool_type (a : Datum) : a.type.isBool = true ↔ ∃ x, a = bool x := by
  cases a <;> simp [type, Ty.isBool, Ty.int, Ty.long, Ty.char, Ty.bool, Ty.string]

theorem isString_type (a : Datum) : a.type.isString = a.isText := by
  cases a <;> simp [type, isText, Ty.int, Ty.long, Ty.char, Ty.bool]

theorem isVoid_type (a : Datum) : a.type.isVoid = false := by cases a <;> rfl

/-- Values can be compared where their types can. -/
theorem isSome_equal? (a b : Datum) : (a.equal? b).isSome =
    ((a.type.promote? b.type).isSome || a.type.isBool && b.type.isBool ||
      a.type.isReference && b.type.isReference) := by
  cases a <;> cases b <;> rfl

end Datum

theorem UnaryOp.type?_eq (op : UnaryOp) (a : Datum) : op.type? a.type = (op.apply a).map (·.type) := by
  cases op <;> cases a <;> rfl

/-- The value that an operation gives, unless it divides by zero. -/
def Result.value? : Result → Option Datum
  | value v => some v
  | zeroDivision => none

/-- Goes on with a value. -/
def Result.andThen (r : Option Result) (f : Datum → Option Result) : Option Result :=
  match r with
  | some (.value v) => f v
  | r => r

/-- A type that the values of an expression have, if it has any. -/
structure Result.Types (r : Option Result) (t : Ty) : Prop where
  exists_eq : ∃ v : Datum, v.type = t
  eq {v : Datum} : r = some (.value v) → v.type = t

theorem Pair.type_of_arith {p : Pair} (h : p.arith op = .value u) :
    u.type = .prim p.prim := by
  cases p with
  | ints i j =>
    rw [arith] at h
    cases hk : op.int? i j <;> rw [hk] at h <;> cases h
    rfl
  | longs i j =>
    rw [arith] at h
    cases hk : op.long? i j <;> rw [hk] at h <;> cases h
    rfl

namespace BinaryOp

section
variable {op : BinaryOp} {a b : Datum}

/-- An operator has a type for two values where it has a meaning for them, and it is that of what it
gives. -/
def IsTyped (op : BinaryOp) (a b : Datum) : Prop :=
  (op.apply a b = none ↔ op.type? a.type b.type = none) ∧
    ∀ u, op.apply a b = some (.value u) → op.type? a.type b.type = some u.type

theorem isTyped_arith {k : Arith} (hop : op.arith? = some k) (happly : op.apply a b = op.onNumbers a b)
    (htype : op.type? a.type b.type = (a.type.promote? b.type).map .prim) : op.IsTyped a b := by
  rw [IsTyped, happly, htype, onNumbers, Datum.promote?_type, hop]
  cases a.pair? b with
  | none => exact ⟨⟨fun _ => rfl, fun _ => rfl⟩, nofun⟩
  | some p =>
    refine ⟨⟨nofun, nofun⟩, fun u hu => ?_⟩
    exact congrArg some (Pair.type_of_arith (Option.some.inj hu)).symm

theorem isTyped_compare (hop : op.arith? = none) (hop' : op.order? = some o)
    (happly : op.apply a b = op.onNumbers a b)
    (htype : op.type? a.type b.type = (a.type.promote? b.type).map fun _ => .bool) :
    op.IsTyped a b := by
  rw [IsTyped, happly, htype, onNumbers, Datum.promote?_type, hop, hop']
  cases a.pair? b with
  | none => exact ⟨⟨fun _ => rfl, fun _ => rfl⟩, nofun⟩
  | some p =>
    refine ⟨⟨nofun, nofun⟩, ?_⟩
    rintro u ⟨⟩
    rfl

theorem isTyped_equal {f : Bool → Bool}
    (happly : op.apply a b = (a.equal? b).map fun e => .value (.bool (f e)))
    (htype : op.type? a.type b.type = if (a.equal? b).isSome then some .bool else none) :
    op.IsTyped a b := by
  rw [IsTyped, happly, htype]
  cases a.equal? b with
  | none => exact ⟨⟨fun _ => rfl, fun _ => rfl⟩, nofun⟩
  | some e =>
    refine ⟨⟨nofun, nofun⟩, ?_⟩
    rintro u ⟨⟩
    rfl

theorem isTyped (hop : op ≠ .pow) (a b : Datum) : op.IsTyped a b := by
  have hequal : (if (a.type.promote? b.type).isSome || a.type.isBool && b.type.isBool ||
      a.type.isReference && b.type.isReference then some Ty.bool else none) =
      if (a.equal? b).isSome then some Ty.bool else none := by rw [a.isSome_equal?]
  cases op with
  | pow => exact absurd rfl hop
  | sub | mul | div | mod => exact isTyped_arith rfl rfl rfl
  | lt | le | gt | ge => exact isTyped_compare rfl rfl rfl rfl
  | eq => exact isTyped_equal (f := id) rfl hequal
  | ne => exact isTyped_equal (f := not) rfl hequal
  | and | or | range =>
    cases a <;> cases b <;> first
      | exact ⟨⟨fun _ => rfl, fun _ => rfl⟩, nofun⟩
      | exact ⟨⟨nofun, nofun⟩, by rintro u ⟨⟩; rfl⟩
  | xor =>
    cases a <;> cases b <;> first
      | exact isTyped_arith rfl rfl rfl
      | exact ⟨⟨nofun, nofun⟩, by rintro u ⟨⟩; rfl⟩
  | add =>
    have htype : BinaryOp.type? .add a.type b.type = if a.isText || b.isText then some Ty.string
        else (a.type.promote? b.type).map .prim := by
      rw [type?, a.isVoid_type, b.isVoid_type, a.isString_type, b.isString_type]
      rfl
    have happly : BinaryOp.apply .add a b = if a.isText || b.isText then
        some (.value (.text (a.units ++ b.units))) else add.onNumbers a b := rfl
    cases htext : a.isText || b.isText with
    | true =>
      rw [IsTyped, htype, happly, htext]
      refine ⟨⟨nofun, nofun⟩, ?_⟩
      rintro u ⟨⟩
      rfl
    | false =>
      rw [htext] at htype happly
      exact isTyped_arith rfl happly htype

/-! #### Kinds of operands -/

/-- Arithmetic joins texts, combines conditions, or computes with numbers. -/
theorem arith_cases (hop : op.arith? = some k)
    (h : op.type? a.type b.type = some t) :
    (op = .add ∧ (a.isText || b.isText) = true ∧ t = .string) ∨
      (op = .xor ∧ (∃ x, a = .bool x) ∧ (∃ y, b = .bool y) ∧ t = .bool) ∨
      ∃ p, a.pair? b = some p ∧ t = .prim p.prim := by
  have hnumbers (h : (a.type.promote? b.type).map Ty.prim = some t) :
      ∃ p, a.pair? b = some p ∧ t = .prim p.prim := by
    rw [Datum.promote?_type, Option.map_map] at h
    obtain ⟨p, hp, rfl⟩ := Option.map_eq_some_iff.1 h
    exact ⟨p, hp, rfl⟩
  cases op with
  | sub | mul | div | mod => exact .inr (.inr (hnumbers h))
  | add =>
    rw [type?, a.isVoid_type, b.isVoid_type, a.isString_type, b.isString_type] at h
    cases htext : a.isText || b.isText with
    | true =>
      rw [htext] at h
      cases h
      exact .inl ⟨rfl, rfl, rfl⟩
    | false =>
      rw [htext] at h
      exact .inr (.inr (hnumbers h))
  | xor =>
    rw [type?] at h
    cases hbool : a.type.isBool && b.type.isBool with
    | true =>
      rw [hbool] at h
      cases h
      rw [Bool.and_eq_true, a.isBool_type, b.isBool_type] at hbool
      exact .inr (.inl ⟨rfl, hbool.1, hbool.2, rfl⟩)
    | false =>
      rw [hbool] at h
      obtain ⟨p, hp, rfl⟩ := Option.map_eq_some_iff.1 h
      exact .inr (.inr (hnumbers (by rw [(Option.filter_eq_some_iff.1 hp).1]; rfl)))
  | _ => cases hop

theorem apply_of_pair? (hop : op.arith? = some k) (hp : a.pair? b = some p) :
    op.apply a b = some (p.arith k) := by
  have hnumbers : op.onNumbers a b = some (p.arith k) := by
    rw [onNumbers, hp, hop]
    rfl
  cases op with
  | sub | mul | div | mod => exact hnumbers
  | add | xor =>
    rw [← hnumbers]
    cases a <;> cases b <;> cases hp <;> rfl
  | _ => cases hop

theorem order_cases (hop : op.order? = some o)
    (h : op.type? a.type b.type = some t) :
    (∃ p, a.pair? b = some p) ∨ a.pair? b = none ∧ (op = .eq ∨ op = .ne) ∧
      ((∃ x, a = .bool x) ∧ (∃ y, b = .bool y) ∨
        a.type.isReference = true ∧ b.type.isReference = true) := by
  cases hp : a.pair? b with
  | some p => exact .inl ⟨p, rfl⟩
  | none =>
    refine .inr ⟨rfl, ?_⟩
    have hequal (h : (if (a.type.promote? b.type).isSome || a.type.isBool && b.type.isBool ||
        a.type.isReference && b.type.isReference then some Ty.bool else none) = some t) :
        (∃ x, a = .bool x) ∧ (∃ y, b = .bool y) ∨
          a.type.isReference = true ∧ b.type.isReference = true := by
      rw [Datum.promote?_type, hp] at h
      split at h
      · next hcond => simpa [Datum.isBool_type] using hcond
      · cases h
    have hnone : a.type.promote? b.type = none := by rw [Datum.promote?_type, hp]; rfl
    cases op with
    | eq => exact ⟨.inl rfl, hequal h⟩
    | ne => exact ⟨.inr rfl, hequal h⟩
    | lt | le | gt | ge =>
      rw [type?, hnone] at h
      cases h
    | _ => cases hop

/-- Numbers are compared at the wider of their widths. -/
theorem apply_of_order? (hop : op.order? = some o) (hp : a.pair? b = some p) :
    op.apply a b = some (.value (.bool (p.holds o))) := by
  have hequal : a.equal? b = some (p.holds .eq) := by
    cases a <;> cases b <;> cases hp <;> rfl
  have hnumbers (harith : op.arith? = none) :
      op.onNumbers a b = some (.value (.bool (p.holds o))) := by
    rw [onNumbers, hp, harith, hop]
    rfl
  cases op with
  | eq =>
    cases hop
    change (a.equal? b).map _ = _
    rw [hequal]
    rfl
  | ne =>
    cases hop
    change (a.equal? b).map _ = _
    rw [hequal]
    cases p <;> rfl
  | lt | le | gt | ge => exact hnumbers rfl
  | _ => cases hop

end

end BinaryOp

end Classwright
