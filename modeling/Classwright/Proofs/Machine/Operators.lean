import Classwright.Proofs.Body.Conversion
import Classwright.Proofs.Machine.Turns
import Classwright.Proofs.Meaning.Folding
import Classwright.Proofs.Typing

/-!
What the code of operators does, given what that of their operands does.
-/

namespace Classwright

open Machine

namespace Machine.Yield

/-- What is left by code that goes on from a result. -/
def through (r : Option Result) (y : Datum → Yield) : Yield :=
  match r with
  | some (.value v) => y v
  | some .zeroDivision => .fails
  | none => .unknown

/-- What code leaves that pushes a result. -/
def ofResult (r : Option Result) : Yield := through r fun v => .leaves .next [v.val]

/-- Where code goes that jumps to a label if a condition has a given value. -/
def ofTest (l : Label) (jumpIf : Bool) (r : Option Result) : Yield :=
  through r fun
    | .bool x => .leaves (if x = jumpIf then .label l else .next) []
    | _ => .unknown

theorem through_congr
    (h : ∀ v, r = some (.value v) → y v = z v) : through r y = through r z := by
  rcases r with - | ⟨v⟩ | -
  · rfl
  · exact h v rfl
  · rfl

theorem ofResult_andThen (r : Option Result) (f : Datum → Option Result) :
    ofResult (Result.andThen r f) = through r fun v => ofResult (f v) := by
  rcases r with - | - | - <;> rfl

theorem ofTest_andThen (l : Label) (jumpIf : Bool) (r : Option Result) (f : Datum → Option Result) :
    ofTest l jumpIf (Result.andThen r f) = through r fun v => ofTest l jumpIf (f v) := by
  rcases r with - | - | - <;> rfl

end Machine.Yield

/-- The opposite order. -/
def Machine.Order.negate : Order → Order
  | eq => ne
  | ne => eq
  | lt => ge
  | ge => lt
  | gt => le
  | le => gt

theorem Machine.Order.holds_negate (o : Order) (i j : Int) : o.negate.holds i j = !o.holds i j := by
  cases o <;> simp [negate, holds, bne, ← decide_not]

/-! ### Constants -/

namespace Code

theorem turns_plain {op : Opcode} (hterm : op.isTerminal = false)
    (haction : actions.lookup op = some (.push v)) (locals : Locals) :
    (⟨op, .plain⟩ : Instr).Turns locals [] [v] := by
  refine ⟨Instr.isModest_of_effect rfl rfl, hterm, fun C k st heap => ?_⟩
  rw [exec]
  dsimp only
  rw [haction]
  rfl

/-- Loading a whole number. -/
theorem int_turns (v : Int32) :
    ∃ i : Instr, (∀ c : Code, c.int v = c.emit i) ∧ ∀ locals, i.Turns locals [] [.int v] := by
  unfold Code.int
  dsimp only
  split
  · next hv =>
    have hsmall {n : Int32} {op : Opcode} (hn : v.toInt = n.toInt)
        (hop : (⟨UInt8.ofNat (3 + n.toInt).toNat⟩ : Opcode) = op) (hshape : op.shape = .plain)
        (hterm : op.isTerminal = false) (haction : actions.lookup op = some (.push (.int n))) :
        ∃ i : Instr, (∀ c : Code, c.op ⟨UInt8.ofNat (3 + v.toInt).toNat⟩ = c.emit i) ∧
          ∀ locals, i.Turns locals [] [.int v] := by
      rw [hn, hop, Int32.toInt_inj.1 hn]
      exact ⟨_, fun c => c.op_eq hshape, turns_plain hterm haction⟩
    have hcases : v.toInt = -1 ∨ v.toInt = 0 ∨ v.toInt = 1 ∨ v.toInt = 2 ∨ v.toInt = 3 ∨
        v.toInt = 4 ∨ v.toInt = 5 := by omega
    rcases hcases with h | h | h | h | h | h | h
    · exact hsmall (n := -1) h rfl rfl rfl rfl
    · exact hsmall (n := 0) h rfl rfl rfl rfl
    · exact hsmall (n := 1) h rfl rfl rfl rfl
    · exact hsmall (n := 2) h rfl rfl rfl rfl
    · exact hsmall (n := 3) h rfl rfl rfl rfl
    · exact hsmall (n := 4) h rfl rfl rfl rfl
    · exact hsmall (n := 5) h rfl rfl rfl rfl
  · have himmediate {op : Opcode} (hterm : op.isTerminal = false) (locals : Locals) :
        (⟨op, .immediate v.toInt⟩ : Instr).Turns locals [] [.int v] := by
      refine ⟨Instr.isModest_of_effect rfl rfl, hterm, fun C k st heap => ?_⟩
      change some (Effect.next ⟨k + 1, .int (Int32.ofInt v.toInt) :: st, locals, heap⟩) = _
      rw [Int32.ofInt_toInt]
      rfl
    split
    · exact ⟨_, fun _ => rfl, himmediate rfl⟩
    · split
      · exact ⟨_, fun _ => rfl, himmediate rfl⟩
      · exact ⟨_, fun _ => rfl, fun locals => ⟨Instr.isModest_of_effect rfl rfl, rfl, fun _ _ _ _ => rfl⟩⟩

theorem long_turns (v : Int64) :
    ∃ i : Instr, (∀ c : Code, c.long v = c.emit i) ∧ ∀ locals, i.Turns locals [] [.long v] := by
  unfold Code.long
  split
  · next hv =>
    subst hv
    exact ⟨_, fun c => c.op_eq rfl, turns_plain rfl rfl⟩
  · split
    · next hv =>
      subst hv
      exact ⟨_, fun c => c.op_eq rfl, turns_plain rfl rfl⟩
    · exact ⟨_, fun _ => rfl, fun _ => ⟨Instr.isModest_of_effect rfl rfl, rfl, fun _ _ _ _ => rfl⟩⟩

/-- Loading a constant pushes the value that it stands for. -/
theorem const_turns {a : Constant} (h : a.Stands v) :
    ∃ i : Instr, (∀ c : Code, c.const a.type a.value = c.emit i) ∧
      ∀ locals, i.Turns locals [] [v.val] := by
  have hword (k : Int32) : ∃ i : Instr, (∀ c : Code, c.int k.toInt64.toInt32 = c.emit i) ∧
      ∀ locals, i.Turns locals [] [.int k] := by
    rw [k.toInt32_toInt64]
    exact int_turns k
  cases h with
  | bool x => cases x <;> exact ⟨_, fun c => c.op_eq rfl, turns_plain rfl rfl⟩
  | int i => exact hword i
  | long i => exact long_turns i
  | char i =>
    rw [← toInt64_ofNat]
    exact hword _
  | text s =>
    exact ⟨_, fun _ => rfl, fun _ => ⟨Instr.isModest_of_effect rfl rfl, rfl, fun _ _ _ _ => rfl⟩⟩
  | null => exact ⟨_, fun c => c.op_eq rfl, turns_plain rfl rfl⟩

end Code

/-! ### Conversions -/

namespace Datum

/-- The value converted to a type. -/
def as? (v : Datum) : Ty → Option Val
  | .prim .int => v.int?.map .int
  | .prim .long => v.long?.map .long
  | .prim .bool => if v.type.isBool then some v.val else none
  | .cls _ => if v.type.isReference then some v.val else none
  | _ => none

end Datum

namespace Pair

/-- The first number as the machine has it. -/
def leftVal : Pair → Val
  | ints i _ => .int i
  | longs i _ => .long i

/-- The second number as the machine has it. -/
def rightVal : Pair → Val
  | ints _ j => .int j
  | longs _ j => .long j

end Pair

namespace Datum

variable {v w v' w' : Datum} {p : Pair}

theorem as?_of_pair? (h : v.pair? w = some p) :
    v.as? (.prim p.prim) = some p.leftVal ∧ w.as? (.prim p.prim) = some p.rightVal := by
  cases v <;> cases w <;> cases h <;> exact ⟨rfl, rfl⟩

/-- Values of the same types as numbers are numbers of the same width. -/
theorem exists_pair? (h : v.pair? w = some p) (hv : v'.type = v.type) (hw : w'.type = w.type) :
    ∃ p', v'.pair? w' = some p' ∧ p'.prim = p.prim := by
  have hprim := promote?_type v' w'
  rw [hv, hw, promote?_type, h] at hprim
  obtain ⟨p', hp', hprim⟩ := Option.map_eq_some_iff.1 hprim.symm
  exact ⟨p', hp', hprim⟩

end Datum

namespace Gen

open Result (Types)

section
variable {n : Nat} {s : Scopes} {locals : Locals} {vs ws us : List Val}

theorem turns_widen (i : Int32) :
    Turns n s locals [.int i] (Gen.op .i2l) (.leaves .next [.long i.toInt64]) :=
  turns_op rfl rfl rfl fun _ _ _ => rfl

/-- A conversion turns a value into that of the type. -/
theorem turns_convert {v : Datum} (h : v.as? t = some x) :
    Turns n s locals [v.val] (convert v.type t) (.leaves .next [x]) := by
  have hsame (p : Prim) (hp : p ≠ .void) :
      Turns n s locals [v.val] (convert (.prim p) (.prim p)) (.leaves .next [v.val]) := by
    rw [convert_prim p p hp, convertPrim, if_pos rfl]
    exact turns_pure ()
  unfold Datum.as? at h
  split at h
  · cases v with
    | int i => cases h; exact hsame .int (by decide)
    | char c =>
      cases h
      change Turns n s locals _ (convert (.prim .char) (.prim .int)) _
      rw [convert_prim .char .int (by decide)]
      exact turns_pure ()
    | _ => cases h
  · cases v with
    | int i =>
      cases h
      change Turns n s locals _ (convert (.prim .int) (.prim .long)) _
      rw [convert_prim .int .long (by decide)]
      exact (turns_widen i).next fun _ => turns_pure ()
    | char c =>
      cases h
      change Turns n s locals _ (convert (.prim .char) (.prim .long)) _
      rw [convert_prim .char .long (by decide)]
      exact (turns_widen _).next fun _ => turns_pure ()
    | long i => cases h; exact hsame .long (by decide)
    | _ => cases h
  · split at h
    · next hbool =>
      obtain ⟨b, rfl⟩ := v.isBool_type.1 hbool
      cases h
      exact hsame .bool (by decide)
    · cases h
  · split at h
    · next href =>
      cases h
      rw [convert_cls href]
      exact turns_pure ()
    · cases h
  · cases h

/-! ### Operands -/

/-- Code that goes on from a result. -/
theorem Turns.value
    (h : Turns n s locals [] m (.ofResult r)) (hplain : ∀ a, Plain (f a))
    (hf : ∀ v, r = some (.value v) → ∀ a, Turns n s locals (v.val :: us) (f a) (y v)) :
    Turns n s locals us (m >>= f) (.through r y) := by
  cases r with
  | none => exact (h.plain.bind hplain).turns
  | some r =>
    cases r with
    | zeroDivision => exact (h.above us).bind (z := .unknown) hplain nofun
    | value v => exact (h.above us).next (hf v rfl)

section
variable {β : Type} {left right : Gen Unit} {f : Unit → Gen β} {u w : Option Result}
  {y : Datum → Datum → Yield} (hleft : Turns n s locals [] left (.ofResult u))
  (hright : Turns n s locals [] right (.ofResult w))
include hleft hright

/-- Operands are pushed one after the other, each converted. -/
theorem turns_operands (hl : Types u l) (hr : Types w r) (hplain : ∀ a, Plain (f a))
    (hleft' : ∀ v : Datum, v.type = l → (v.as? t).isSome = true)
    (hright' : ∀ v : Datum, v.type = r → (v.as? t).isSome = true)
    (hf : ∀ v v' x x', v.type = l → v'.type = r → v.as? t = some x → v'.as? t = some x' →
      ∀ a, Turns n s locals [x', x] (f a) (y v v')) :
    Turns n s locals [] (operands l r t left right >>= f)
      (.through u fun v => .through w fun v' => y v v') := by
  have hconvert (t' : Ty) : Plain (convert t' t) := (quiet_convert _ _).plain
  rw [operands, bind_assoc]
  refine hleft.value (fun _ => ?_) fun v hv _ => ?_
  · rw [bind_assoc]
    refine (hconvert l).bind fun _ => ?_
    rw [bind_assoc]
    exact hright.plain.bind fun _ => (hconvert r).bind hplain
  · obtain rfl := hl.eq hv
    obtain ⟨x, hx⟩ := Option.isSome_iff_exists.1 (hleft' v rfl)
    rw [bind_assoc]
    refine (turns_convert hx).next fun _ => ?_
    rw [bind_assoc]
    refine hright.value (fun _ => (hconvert r).bind hplain) fun v' hv' _ => ?_
    obtain rfl := hr.eq hv'
    obtain ⟨x', hx'⟩ := Option.isSome_iff_exists.1 (hright' v' rfl)
    exact ((turns_convert hx').above [x]).next fun _ => hf v v' x x' rfl rfl hx hx' ()

/-- Numbers are pushed at the wider of their widths. -/
theorem turns_numbers {v₀ : Datum} (hp : v₀.pair? w₀ = some p)
    (hl : Types u v₀.type) (hr : Types w w₀.type) (hplain : ∀ a, Plain (f a))
    (hf : ∀ v v' p', v.pair? v' = some p' → p'.prim = p.prim →
      ∀ a, Turns n s locals [p'.rightVal, p'.leftVal] (f a) (y v v')) :
    Turns n s locals [] (operands v₀.type w₀.type (.prim p.prim) left right >>= f)
      (.through u fun v => .through w fun v' => y v v') := by
  have hpair {v v' : Datum} (hv : v.type = v₀.type) (hv' : v'.type = w₀.type) :
      ∃ p', v.pair? v' = some p' ∧ p'.prim = p.prim ∧ v.as? (.prim p.prim) = some p'.leftVal ∧
        v'.as? (.prim p.prim) = some p'.rightVal := by
    obtain ⟨p', hp', hprim⟩ := Datum.exists_pair? hp hv hv'
    exact ⟨p', hp', hprim, hprim ▸ Datum.as?_of_pair? hp'⟩
  refine turns_operands hleft hright hl hr hplain (fun v hv => ?_) (fun v hv => ?_)
    fun v v' x x' hv hv' hx hx' => ?_
  · obtain ⟨_, -, -, h, -⟩ := hpair hv rfl
    rw [h]
    rfl
  · obtain ⟨_, -, -, -, h⟩ := hpair rfl hv
    rw [h]
    rfl
  · obtain ⟨p', hp', hprim, hx₁, hx₂⟩ := hpair hv hv'
    cases hx₁.symm.trans hx
    cases hx₂.symm.trans hx'
    exact hf v v' p' hp' hprim

/-- Conditions are pushed as they are. -/
theorem turns_bools (hl : Types u .bool) (hr : Types w .bool) (hplain : ∀ a, Plain (f a))
    (hf : ∀ x x' a, Turns n s locals [(Datum.bool x').val, (Datum.bool x).val] (f a)
      (y (.bool x) (.bool x'))) :
    Turns n s locals [] (operands .bool .bool .bool left right >>= f)
      (.through u fun v => .through w fun v' => y v v') := by
  have hbool {v : Datum} (hv : v.type = .bool) : ∃ x, v = .bool x := by
    cases v <;> cases hv
    exact ⟨_, rfl⟩
  refine turns_operands hleft hright hl hr hplain (fun v hv => ?_) (fun v hv => ?_)
    fun v v' x x' hv hv' hx hx' => ?_
  · obtain ⟨_, rfl⟩ := hbool hv
    rfl
  · obtain ⟨_, rfl⟩ := hbool hv
    rfl
  · obtain ⟨_, rfl⟩ := hbool hv
    obtain ⟨_, rfl⟩ := hbool hv'
    cases hx
    cases hx'
    exact hf _ _

end

/-! ### Arithmetic -/

theorem turns_intArith {op : Opcode} (hshape : op.shape = .plain)
    (hterm : op.isTerminal = false) (haction : actions.lookup op = some (.int k)) (i j : Int32) :
    Turns n s locals [.int j, .int i] (Gen.op op)
      (.ofResult (some (Pair.arith k (.ints i j)))) := by
  cases h : k.int? i j with
  | none =>
    rw [Pair.arith, h]
    refine turns_op_fails hshape haction fun _ st heap => ?_
    dsimp only [Action.run, List.cons_append]
    rw [h]
  | some x =>
    rw [Pair.arith, h]
    refine turns_op hshape hterm haction fun _ st heap => ?_
    dsimp only [Action.run, List.cons_append]
    rw [h]
    rfl

theorem turns_longArith {op : Opcode} (hshape : op.shape = .plain)
    (hterm : op.isTerminal = false) (haction : actions.lookup op = some (.long k)) (i j : Int64) :
    Turns n s locals [.long j, .long i] (Gen.op op)
      (.ofResult (some (Pair.arith k (.longs i j)))) := by
  cases h : k.long? i j with
  | none =>
    rw [Pair.arith, h]
    refine turns_op_fails hshape haction fun _ st heap => ?_
    dsimp only [Action.run, List.cons_append]
    rw [h]
  | some x =>
    rw [Pair.arith, h]
    refine turns_op hshape hterm haction fun _ st heap => ?_
    dsimp only [Action.run, List.cons_append]
    rw [h]
    rfl

theorem turns_number {op : BinaryOp} (hop : op.arith? = some k) (p : Pair) :
    Turns n s locals [p.rightVal, p.leftVal] (Gen.op ((arithOpcode op).forNumber (.prim p.prim)))
      (.ofResult (some (p.arith k))) := by
  cases p with
  | ints i j => cases op <;> cases hop <;> exact turns_intArith rfl rfl rfl i j
  | longs i j => cases op <;> cases hop <;> exact turns_longArith rfl rfl rfl i j

theorem turns_xor (x y : Bool) : Turns n s locals [(Datum.bool y).val, (Datum.bool x).val]
    (Gen.op ((arithOpcode .xor).forNumber .bool)) (.leaves .next [(Datum.bool (x != y)).val]) := by
  cases x <;> cases y <;> exact turns_op rfl rfl rfl fun _ _ _ => rfl

/-! ### Texts -/

/-- The text of a value is what its argument is read as. -/
theorem exists_reading (v : Datum) : ∃ r : Reading, r.text? v.val = some v.units ∧
    calls.lookup (.invokestatic, ⟨"java/lang/String", "valueOf",
      "(" ++ (if v.type.isString then Ty.object.descriptor else v.type.textDescriptor) ++ ")" ++
        Ty.string.descriptor, false⟩) = some (.valueOf r) ∧
    calls.lookup (.invokevirtual, ⟨stringBuilder, "append",
      "(" ++ v.type.textDescriptor ++ ")" ++ (Ty.cls stringBuilder).descriptor, false⟩) =
        some (.append r) := by
  cases v with
  | int i =>
    refine ⟨.int, rfl, ?_⟩
    rw [show (Datum.int i).type = .prim .int from rfl, Ty.isString_prim]
    exact ⟨rfl, rfl⟩
  | long i =>
    refine ⟨.long, rfl, ?_⟩
    rw [show (Datum.long i).type = .prim .long from rfl, Ty.isString_prim]
    exact ⟨rfl, rfl⟩
  | char c =>
    have hlt := c.toNat_lt
    refine ⟨.char, ?_, ?_⟩
    · change some [((Int32.ofNat c.toNat).toInt % 0x10000).toNat] = some [c.toNat]
      rw [Int32.toInt_ofNat_of_lt (by omega)]
      congr 2
      omega
    · rw [show (Datum.char c).type = .prim .char from rfl, Ty.isString_prim]
      exact ⟨rfl, rfl⟩
  | bool b =>
    refine ⟨.bool, by cases b <;> rfl, ?_⟩
    rw [show (Datum.bool b).type = .prim .bool from rfl, Ty.isString_prim]
    exact ⟨rfl, rfl⟩
  | text u =>
    refine ⟨.object, rfl, ?_⟩
    have htext : Ty.string.textDescriptor = Ty.string.descriptor := if_pos Ty.isString_string
    rw [show (Datum.text u).type = .string from rfl, Ty.isString_string, htext]
    exact ⟨rfl, rfl⟩
  | null =>
    refine ⟨.object, rfl, ?_⟩
    have htext : Ty.null.textDescriptor = Ty.object.descriptor :=
      if_neg (by rw [Ty.isString_null]; exact nofun)
    rw [show Datum.null.type = .null from rfl, Ty.isString_null, htext]
    exact ⟨rfl, rfl⟩

/-- Puts the text on top into a new builder. -/
def newBuilder : Gen Unit := do
  edit (·.type .new stringBuilder)
  Gen.op .dupX1
  Gen.op .swap
  invoke .invokespecial stringBuilder "<init>" ("(" ++ Ty.string.descriptor ++ ")V")

/-- Adds the value on top, which has a given type, to the builder below it and takes the text out. -/
def appended (t : Ty) : Gen Unit := do
  invoke .invokevirtual stringBuilder "append"
    ("(" ++ t.textDescriptor ++ ")" ++ (Ty.cls stringBuilder).descriptor)
  invoke .invokevirtual stringBuilder "toString" ("()" ++ Ty.string.descriptor)

theorem quiet_newBuilder : Quiet (fun _ _ => True) newBuilder :=
  (quiet_edit fun c => c.quiet_type rfl _).bind fun _ => (quiet_op rfl).bind fun _ =>
    (quiet_op rfl).bind fun _ => quiet_invoke _ _ _ _

theorem quiet_appended (t : Ty) : Quiet (fun _ _ => True) (appended t) :=
  (quiet_invoke _ _ _ _).bind fun _ => quiet_invoke _ _ _ _

theorem concat_eq (l r : Ty) (left right : Gen Unit) : concat l r left right = (do
    left
    invoke .invokestatic "java/lang/String" "valueOf"
      ("(" ++ (if l.isString then Ty.object.descriptor else l.textDescriptor) ++ ")" ++
        Ty.string.descriptor)
    newBuilder
    right
    appended r) := by
  simp only [concat, newBuilder, appended, bind_assoc]

theorem takes_newBuilder (locals : Locals) (u : List Nat) (st : List Val) (heap : List (List Nat)) :
    Takes s newBuilder ⟨0, .text u :: st, locals, heap⟩
      ⟨0, .builder heap.length :: st, locals, heap ++ [u]⟩ := by
  let b : Val := .builder heap.length
  have hnew : Takes s (edit (·.type .new stringBuilder)) ⟨0, .text u :: st, locals, heap⟩
      ⟨0, b :: .text u :: st, locals, heap ++ [[]]⟩ :=
    takes_emit (i := ⟨.new, .cls stringBuilder⟩) (Instr.isModest_of_effect rfl rfl) rfl
      (fun _ _ => rfl) fun _ => rfl
  have hdup : Takes s (Gen.op .dupX1) ⟨0, b :: .text u :: st, locals, heap ++ [[]]⟩
      ⟨0, b :: .text u :: b :: st, locals, heap ++ [[]]⟩ := takes_op rfl rfl rfl fun _ => rfl
  have hswap : Takes s (Gen.op .swap) ⟨0, b :: .text u :: b :: st, locals, heap ++ [[]]⟩
      ⟨0, .text u :: b :: b :: st, locals, heap ++ [[]]⟩ := takes_op rfl rfl rfl fun _ => rfl
  refine hnew.bind fun _ => hdup.bind fun _ => hswap.bind fun _ => ?_
  refine takes_invoke (c := .init) (by decide) rfl rfl ?_
  change some (b :: st, (heap ++ [[]]).set heap.length u) = _
  rw [List.set_append_right _ _ (Nat.le_refl _), Nat.sub_self]
  rfl

theorem takes_appended (locals : Locals)
    (h : heap[k]? = some old)
    (v : Datum) (st : List Val) :
    Takes s (appended v.type) ⟨0, v.val :: .builder k :: st, locals, heap⟩
      ⟨0, .text (old ++ v.units) :: st, locals, heap.set k (old ++ v.units)⟩ := by
  obtain ⟨r, hr, -, hcall⟩ := exists_reading v
  have hlt := (List.getElem?_eq_some_iff.1 h).1
  have happend : Takes s (invoke .invokevirtual stringBuilder "append"
        ("(" ++ v.type.textDescriptor ++ ")" ++ (Ty.cls stringBuilder).descriptor))
      ⟨0, v.val :: .builder k :: st, locals, heap⟩
      ⟨0, .builder k :: st, locals, heap.set k (old ++ v.units)⟩ := by
    refine takes_invoke (by decide) rfl hcall ?_
    change (do
      let u ← r.text? v.val
      let old ← heap[k]?
      some (Val.builder k :: st, heap.set k (old ++ u))) = _
    rw [hr, h]
    rfl
  refine happend.bind fun _ => takes_invoke (c := .toString) (by decide) rfl rfl ?_
  change (heap.set k (old ++ v.units))[k]?.map _ = _
  rw [List.getElem?_set_self hlt]
  rfl

section
variable {l r : Ty} {left right : Gen Unit} {u w : Option Result}

/-- A text and another operand are joined. -/
theorem turns_join (hright : Turns n s locals [] right (.ofResult w)) (hr : Types w r)
    (t : List Nat) : Turns n s locals [.text t] (do
      newBuilder
      right
      appended r) (.through w fun v => .leaves .next [.text (t ++ v.units)]) := by
  have hnew := quiet_newBuilder.plain
  have happend := (quiet_appended r).plain
  refine ⟨hnew.bind fun _ => hright.plain.bind fun _ => happend, fun b hs hn => ?_⟩
  refine .bind fun _ b₁ hm₁ => .bind fun _ b₂ hm₂ => fun _ b₃ hm₃ => ?_
  obtain ⟨hgrow₁, hs₁⟩ := hnew b _ b₁ hm₁
  obtain ⟨hgrow₂, hs₂⟩ := hright.plain b₁ _ b₂ hm₂
  obtain ⟨hgrow₃, -⟩ := happend b₂ _ b₃ hm₃
  have hyields := hright.yields b₁ (hs₁.trans hs) (Nat.le_trans hn hgrow₁.marks) _ b₂ hm₂
  have hgrow : b₁.code.Grows b.code.marks.size b₃.code :=
    (hgrow₂.mono hgrow₁.marks).trans (hgrow₃.mono (Nat.le_trans hgrow₁.marks hgrow₂.marks))
  rcases w with - | ⟨v⟩ | -
  · trivial
  · intro st heap
    have hgoes₁ := (takes_newBuilder locals t st heap).goes b hs _ b₁ hm₁
    obtain ⟨heap', hheap, hgoes₂⟩ := hyields (.builder heap.length :: st) (heap ++ [t])
    obtain rfl := hr.eq rfl
    obtain ⟨rest, rfl⟩ := hheap
    have hget : (heap ++ [t] ++ rest)[heap.length]? = some t := by simp
    have hgoes₃ := (takes_appended locals hget v st).goes b₂ (hs₂.trans (hs₁.trans hs)) _ b₃ hm₃
    refine ⟨_, ?_, hgoes₁.trans (hgoes₂.trans hgoes₃ hgrow₂ (hgrow₃.mono hgrow₂.marks)) hgrow₁ hgrow⟩
    rw [List.append_assoc, List.set_append_right _ _ (Nat.le_refl _)]
    exact List.prefix_append _ _
  · intro st heap
    have hgoes₁ := (takes_newBuilder locals t st heap).goes b hs _ b₁ hm₁
    exact hgoes₁.finishes ((hyields (.builder heap.length :: st) (heap ++ [t])).mono hgrow₃) hgrow

theorem turns_concat (hleft : Turns n s locals [] left (.ofResult u))
    (hright : Turns n s locals [] right (.ofResult w)) (hl : Types u l) (hr : Types w r) :
    Turns n s locals [] (concat l r left right)
      (.through u fun v => .through w fun v' => .leaves .next [.text (v.units ++ v'.units)]) := by
  rw [concat_eq]
  refine hleft.value (fun _ => ?_) fun v hv _ => ?_
  · exact (quiet_invoke _ _ _ _).plain.bind fun _ => (turns_join hright hr []).plain
  · obtain rfl := hl.eq hv
    obtain ⟨rd, hrd, hcall, -⟩ := exists_reading v
    have hvalue : Turns n s locals [v.val] (invoke .invokestatic "java/lang/String" "valueOf"
        ("(" ++ (if v.type.isString then Ty.object.descriptor else v.type.textDescriptor) ++ ")" ++
          Ty.string.descriptor)) (.leaves .next [.text v.units]) := by
      refine Takes.turns fun st heap => ⟨heap, List.prefix_refl _, takes_invoke (by decide) rfl hcall ?_⟩
      change (rd.text? v.val).map _ = _
      rw [hrd]
      rfl
    exact hvalue.next fun _ => turns_join hright hr _

end

section
variable {l r : Ty} {left right : Gen Unit} {u w : Option Result} (tok : Token)

theorem turns_arith {op : BinaryOp} (hop : op.arith? = some k)
    (hleft : Turns n s locals [] left (.ofResult u)) (hright : Turns n s locals [] right (.ofResult w))
    (hl : Types u l) (hr : Types w r) :
    Turns n s locals [] (arith tok op l r left right)
      (.ofResult (Result.andThen u fun v => Result.andThen w fun v' => op.apply v v')) := by
  obtain ⟨v₀, rfl⟩ := hl.exists_eq
  obtain ⟨w₀, rfl⟩ := hr.exists_eq
  have hpow : op ≠ .pow := by
    rintro rfl
    cases hop
  refine .lift fun t ht => ?_
  have htype := Env.type?_of_binaryType ht
  have hplain : Plain (Gen.op ((arithOpcode op).forNumber t)) :=
    (quiet_op (shape_arithOpcode htype)).plain
  rcases BinaryOp.arith_cases hop htype with
    ⟨rfl, htext, rfl⟩ | ⟨rfl, ⟨x₀, rfl⟩, ⟨y₀, rfl⟩, rfl⟩ | ⟨p, hp, rfl⟩
  · have happly {v v' : Datum} (hv : v.type = v₀.type) (hv' : v'.type = w₀.type) :
        BinaryOp.add.apply v v' = some (.value (.text (v.units ++ v'.units))) := by
      rw [← v₀.isString_type, ← w₀.isString_type, ← hv, ← hv', v.isString_type, v'.isString_type]
        at htext
      exact if_pos htext
    simp only [Ty.isString_string, decide_true, Bool.and_self, if_true, Yield.ofResult_andThen]
    rw [Yield.through_congr fun v hv => Yield.through_congr fun v' hv' =>
      congrArg Yield.ofResult (happly (hl.eq hv) (hr.eq hv'))]
    exact (turns_concat hleft hright hl hr).returns Ty.string
  · have hop' : BinaryOp.xor ≠ .add := nofun
    simp only [hop', decide_false, Bool.false_and, Bool.false_eq_true, if_false, if_neg hpow,
      Yield.ofResult_andThen]
    exact turns_bools hleft hright hl hr (fun _ => hplain.bind fun _ => (quiet_pure _).plain)
      fun _ _ _ => (turns_xor _ _).returns _
  · have hstring : (decide (op = .add) && (Ty.prim p.prim).isString) = false := by
      rw [Ty.isString_prim, Bool.and_false]
    simp only [hstring, Bool.false_eq_true, if_false, if_neg hpow, Yield.ofResult_andThen]
    refine turns_numbers hleft hright hp hl hr
      (fun _ => hplain.bind fun _ => (quiet_pure _).plain) fun v v' p' hp' hprim _ => ?_
    rw [BinaryOp.apply_of_pair? hop hp', ← hprim]
    exact (turns_number hop p').returns _

end

/-! ### Jumps -/

theorem turns_jump {op : Opcode} (hl : l < n)
    (hjump : op.isJump = true) (hterm : op.isTerminal = false) (htest : tests.lookup op = some t)
    (hrun : ∀ st, t.run (vs ++ st) = some (jumps, ws ++ st)) :
    Turns n s locals vs (jump op l) (.leaves (if jumps then .label l else .next) ws) := by
  refine ⟨plain_jump hjump l, fun b _ hn => .of_eq rfl fun st heap => ⟨heap, List.prefix_refl _, ?_⟩⟩
  change b.code.Goes (b.code.emit (Instr.ofParts op { label := l })) _ _ _
  rw [Instr.ofParts_jump hjump]
  cases jumps with
  | true => exact Code.goes_jump (Nat.lt_of_lt_of_le hl hn) htest (hrun st)
  | false => exact Code.goes_pass hterm htest (hrun st)

/-- A jump on an order, or on its opposite. -/
theorem turns_jumpIf {op : Opcode} {t : Order → Test}
    (hl : l < n) (hop : op.isJump = true ∧ op.negate.isJump = true)
    (hterm : op.isTerminal = false ∧ op.negate.isTerminal = false)
    (htest : tests.lookup op = some (t o) ∧ tests.lookup op.negate = some (t o.negate))
    (hrun : ∀ o st, (t o).run (vs ++ st) = some (o.holds i j, ws ++ st)) (jumpIf : Bool) :
    Turns n s locals vs (jump (if jumpIf then op else op.negate) l)
      (.leaves (if o.holds i j = jumpIf then .label l else .next) ws) := by
  cases jumpIf with
  | true => exact turns_jump hl hop.1 hterm.1 htest.1 (hrun o)
  | false =>
    have h : Turns n s locals vs (jump op.negate l) _ :=
      turns_jump hl hop.2 hterm.2 htest.2 (hrun o.negate)
    rw [o.holds_negate] at h
    cases ho : o.holds i j with
    | true => rw [ho] at h; exact h
    | false => rw [ho] at h; exact h

theorem comparisonJump_tests {op : BinaryOp} (hop : op.order? = some o) :
    (tests.lookup (comparisonJump op) = some (.zero o) ∧
      tests.lookup (comparisonJump op).negate = some (.zero o.negate)) ∧
    (tests.lookup (comparisonJump op).negate = some (.zero o.negate) ∧
      tests.lookup (comparisonJump op).negate.negate = some (.zero o.negate.negate)) ∧
    tests.lookup (onPair (comparisonJump op)) = some (.pair o) ∧
      tests.lookup (onPair (comparisonJump op)).negate = some (.pair o.negate) := by
  cases op <;> cases hop <;> exact ⟨⟨rfl, rfl⟩, ⟨rfl, rfl⟩, rfl, rfl⟩

theorem comparisonJump_isTerminal (op : BinaryOp) :
    ((comparisonJump op).isTerminal = false ∧ (comparisonJump op).negate.isTerminal = false) ∧
    ((comparisonJump op).negate.isTerminal = false ∧
      (comparisonJump op).negate.negate.isTerminal = false) ∧
    (onPair (comparisonJump op)).isTerminal = false ∧
      (onPair (comparisonJump op)).negate.isTerminal = false := by
  cases op <;> decide

/-- How two words compare is how the sign of their comparison compares to zero. -/
theorem holds_sign (o : Order) (i j : Int64) :
    o.holds (sign i j).toInt 0 = o.holds i.toInt j.toInt := by
  have hcases : (i.toInt < j.toInt ∧ sign i j = -1) ∨ (i.toInt = j.toInt ∧ sign i j = 0) ∨
      (j.toInt < i.toInt ∧ sign i j = 1) := by
    unfold sign
    split
    · next h => exact .inl ⟨h, rfl⟩
    · split
      · next h => exact .inr (.inl ⟨congrArg Int64.toInt h, rfl⟩)
      · next h h' =>
        have hne := mt Int64.toInt_inj.1 h'
        exact .inr (.inr ⟨by omega, rfl⟩)
  rcases hcases with ⟨h, hs⟩ | ⟨h, hs⟩ | ⟨h, hs⟩ <;> rw [hs] <;> cases o <;>
    simp [Order.holds] <;> omega

section
variable {l r : Ty} {left right : Gen Unit} {u w : Option Result} (tok : Token) {op : BinaryOp}
  {o : Order} {target : Label}

/-- Numbers are compared at their width. -/
theorem turns_compareNumbers (hop : op.order? = some o) (htarget : target < n) (p : Pair)
    (jumpIf : Bool) : Turns n s locals [p.rightVal, p.leftVal] (match p.prim with
      | .long => do
        Gen.op .lcmp
        let final ← pure (comparisonJump op)
        jump (if jumpIf then final else final.negate) target
      | .float => do
        Gen.op (floatComparison op p.prim)
        let final ← pure (comparisonJump op)
        jump (if jumpIf then final else final.negate) target
      | .double => do
        Gen.op (floatComparison op p.prim)
        let final ← pure (comparisonJump op)
        jump (if jumpIf then final else final.negate) target
      | _ => do
        let final ← pure (onPair (comparisonJump op))
        jump (if jumpIf then final else final.negate) target)
      (.ofTest target jumpIf (some (.value (.bool (p.holds o))))) := by
  obtain ⟨hzero, -, hpair⟩ := comparisonJump_tests hop
  obtain ⟨htermZero, -, htermPair⟩ := comparisonJump_isTerminal op
  obtain ⟨hjumpZero, -, hjumpPair⟩ := isJump_comparisonJump op
  cases p with
  | ints i j =>
    exact turns_jumpIf (t := .pair) htarget hjumpPair htermPair hpair (fun _ _ => rfl) jumpIf
  | longs i j =>
    have hcompare : Turns n s locals [.long j, .long i] (Gen.op .lcmp) (.leaves .next [.int (sign i j)]) :=
      turns_op rfl rfl rfl fun _ _ _ => rfl
    refine hcompare.next fun _ => ?_
    have hjump : Turns n s locals [.int (sign i j)] _ (.leaves _ []) :=
      turns_jumpIf (t := .zero) htarget hjumpZero htermZero hzero (fun _ _ => rfl) jumpIf
    rw [holds_sign] at hjump
    exact hjump

/-- Conditions are compared as numbers. -/
theorem turns_compareBools (hop : op = .eq ∨ op = .ne) (htarget : target < n) (x y : Bool)
    (jumpIf : Bool) : Turns n s locals [(Datum.bool y).val, (Datum.bool x).val]
      (jump (if jumpIf then onPair (comparisonJump op) else (onPair (comparisonJump op)).negate) target)
      (.ofTest target jumpIf (op.apply (.bool x) (.bool y))) := by
  obtain ⟨-, -, htermPair⟩ := comparisonJump_isTerminal op
  obtain ⟨-, -, hjumpPair⟩ := isJump_comparisonJump op
  have hjump {o : Order} (ho : op.order? = some o) :
      Turns n s locals [(Datum.bool y).val, (Datum.bool x).val] _ (.leaves _ []) :=
    turns_jumpIf (t := .pair) htarget hjumpPair htermPair (comparisonJump_tests ho).2.2
      (fun _ _ => rfl) jumpIf
  rcases hop with rfl | rfl
  · have h := hjump rfl
    cases x <;> cases y <;> exact h
  · have h := hjump rfl
    cases x <;> cases y <;> exact h

/-- Objects are compared by the library. -/
theorem turns_compareObjects (hop : op = .eq ∨ op = .ne) (htarget : target < n) {v : Datum}
    (hv : v.type.isReference = true) (hv' : v'.type.isReference = true) (jumpIf : Bool) :
    Turns n s locals [v'.val, v.val] (do
      invoke .invokestatic "java/util/Objects" "equals" "(Ljava/lang/Object;Ljava/lang/Object;)Z"
      jump (if jumpIf then (comparisonJump op).negate else (comparisonJump op).negate.negate) target)
      (.ofTest target jumpIf (op.apply v v')) := by
  obtain ⟨-, htermZero, -⟩ := comparisonJump_isTerminal op
  obtain ⟨-, hjumpZero, -⟩ := isJump_comparisonJump op
  obtain ⟨e, he, he'⟩ : ∃ e, Machine.equal? v.val v'.val = some e ∧ v.equal? v' = some e := by
    cases v <;> cases hv <;> cases v' <;> cases hv' <;> exact ⟨_, rfl, rfl⟩
  have hequals : Turns n s locals [v'.val, v.val]
      (invoke .invokestatic "java/util/Objects" "equals" "(Ljava/lang/Object;Ljava/lang/Object;)Z")
      (.leaves .next [.int (if e then 1 else 0)]) := by
    refine Takes.turns fun st heap =>
      ⟨heap, List.prefix_refl _, takes_invoke (c := .equals) (by decide) rfl rfl ?_⟩
    change (Machine.equal? v.val v'.val).map _ = _
    rw [he]
    rfl
  refine hequals.next fun _ => ?_
  have hjump {o : Order} (ho : op.order? = some o) :
      Turns n s locals [.int (if e then 1 else 0)] _ (.leaves _ []) :=
    turns_jumpIf (t := .zero) htarget hjumpZero htermZero (comparisonJump_tests ho).2.1
      (fun _ _ => rfl) jumpIf
  rcases hop with rfl | rfl
  · have h := hjump rfl
    rw [BinaryOp.apply, he']
    cases e <;> exact h
  · have h := hjump rfl
    rw [BinaryOp.apply, he']
    cases e <;> exact h

theorem turns_comparison (hop : op.order? = some o) (htarget : target < n)
    (hleft : Turns n s locals [] left (.ofResult u)) (hright : Turns n s locals [] right (.ofResult w))
    (hl : Types u l) (hr : Types w r) (jumpIf : Bool) :
    Turns n s locals [] (comparison tok op l r left right target jumpIf)
      (.ofTest target jumpIf (Result.andThen u fun v => Result.andThen w fun v' => op.apply v v')) := by
  obtain ⟨v₀, rfl⟩ := hl.exists_eq
  obtain ⟨w₀, rfl⟩ := hr.exists_eq
  refine .lift fun t ht => ?_
  simp only [Yield.ofTest_andThen]
  rcases BinaryOp.order_cases hop (Env.type?_of_binaryType ht) with
    ⟨p, hp⟩ | ⟨hnone, hop', ⟨⟨x₀, rfl⟩, ⟨y₀, rfl⟩⟩ | ⟨hv₀, hw₀⟩⟩
  · rw [Datum.promote?_type, hp]
    dsimp only [Option.map_some]
    have hcompare (p : Pair) : Turns n s locals [p.rightVal, p.leftVal] _ _ :=
      turns_compareNumbers hop htarget p jumpIf
    refine turns_numbers hleft hright hp hl hr (fun _ => (hcompare p).plain)
      fun v v' p' hp' hprim _ => ?_
    rw [BinaryOp.apply_of_order? hop hp', ← hprim]
    exact hcompare p'
  · have hpromote : (Datum.bool x₀).type.promote? (Datum.bool y₀).type = none := rfl
    have hbools : ((op == .eq || op == .ne) && (Datum.bool x₀).type.isBool &&
        (Datum.bool y₀).type.isBool) = true := by rcases hop' with rfl | rfl <;> rfl
    simp only [hpromote, hbools, if_true]
    have hcompare (x x' : Bool) : Turns n s locals [(Datum.bool x').val, (Datum.bool x).val] _ _ :=
      turns_compareBools hop' htarget x x' jumpIf
    exact turns_bools hleft hright hl hr (fun _ => (hcompare true true).plain)
      fun x x' _ => hcompare x x'
  · have hpromote : v₀.type.promote? w₀.type = none := by rw [Datum.promote?_type, hnone]; rfl
    have hbools : v₀.type.isBool = false := by cases v₀ <;> first | rfl | cases hv₀
    have hobject {v : Datum} (hv : v.type.isReference = true) : v.as? .object = some v.val := if_pos hv
    have hcompare {v v' : Datum} (hv : v.type.isReference = true) (hv' : v'.type.isReference = true) :
        Turns n s locals [v'.val, v.val] _ _ := turns_compareObjects hop' htarget hv hv' jumpIf
    simp only [hpromote, hbools, Bool.and_false, Bool.false_and, Bool.false_eq_true, if_false]
    refine turns_operands hleft hright hl hr (fun _ => (hcompare hv₀ hw₀).plain) (fun v hv => ?_)
      (fun v hv => ?_) fun v v' x x' hv hv' hx hx' _ => ?_
    · rw [hobject (hv ▸ hv₀)]
      rfl
    · rw [hobject (hv ▸ hw₀)]
      rfl
    · cases (hobject (hv ▸ hv₀)).symm.trans hx
      cases (hobject (hv' ▸ hw₀)).symm.trans hx'
      exact hcompare (hv ▸ hv₀) (hv' ▸ hw₀)

end

end

end Gen

end Classwright
