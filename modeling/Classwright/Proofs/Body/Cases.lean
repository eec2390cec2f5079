import Classwright.Proofs.Body.Admitted
import Classwright.Proofs.Body.Growth
import Classwright.Proofs.Ty.Same

/-!
Cases over unions. The arms of a case that code is written for are the members of the union in some order,
and the object that a value is stored as in the union is of the class that the arm of its member asks for.
The code asks for the classes of the arms in turn (`Gen.Tests`), so it comes to some arm for all values but
null (`Gen.case_exhaustive`).
-/

namespace Classwright.Gen

/-! ### Objects in unions -/

/-- Objects of the one class are of the other class, whatever classes there are. -/
def IsInstance (cls tested : Text) : Prop := cls = tested ∨ tested = ClassFile.root

/-- Code turns a value that is not null into an object of a class: it puts a primitive into one as the
last thing that it does, and leaves an object as it is. -/
def Leaves (source : Ty) (m : Gen Unit) (cls : Text) : Prop :=
  match source with
  | .cls name => Emits m [] ∧ cls = name
  | _ => ∃ is p, Emits m (is ++ [boxing p]) ∧ cls = p.wrapper

section
variable {source : Ty} {p : Prim} {name : Text}

theorem leaves_prim_cls (h : (Ty.cls name).assignable (.prim p) = true) :
    ∃ cls, Leaves (.prim p) (convert (.prim p) (.cls name)) cls ∧ IsInstance cls name := by
  have hp := isVoid_prim (Ty.isVoid_of_assignable h).2
  rw [convert_prim_cls]
  cases hq : Ty.unboxed? name with
  | some q =>
    obtain ⟨is, hemits, -⟩ := converts_convertPrim hp (ne_void_of_unboxed? hq)
    have hname := List.find?_some hq
    simp only [Bool.and_eq_true, beq_iff_eq] at hname
    exact ⟨_, ⟨is, q, hemits.bind (emits_box (ne_void_of_unboxed? hq)), rfl⟩, .inl hname.2⟩
  | none =>
    refine ⟨_, ⟨[], p, emits_box hp, rfl⟩, .inr ?_⟩
    have hwrapper : name ≠ p.wrapper := by
      rintro rfl
      revert hq hp
      cases p <;> decide
    unfold Ty.assignable Ty.assignCost? at h
    simp_all [Ty.same, Ty.object, Ty.isVoid, ClassFile.root]

theorem isInstance_of_assignable (h : (Ty.cls name).assignable (.cls cls) = true) :
    IsInstance cls name := by
  unfold Ty.assignable Ty.assignCost? at h
  unfold IsInstance ClassFile.root
  simp_all [Ty.same, Ty.object, Ty.isVoid]
  grind

/-- A value is stored as an object of the class that the member asks for. -/
theorem leaves_stored (hsource : (∃ p, source = .prim p) ∨ ∃ name, source = .cls name)
    (hm : m.Built) (h : m.assignable source = true) :
    ∃ cls, Leaves source (convert source m >>= fun _ => stored m) cls ∧
      IsInstance cls (instanceClass m) := by
  have hunion (ss : List Ty) : source ≠ .union ss := by
    rintro rfl
    rcases hsource with ⟨_, ⟨⟩⟩ | ⟨_, ⟨⟩⟩
  have hoptional : source.isOptional = false := by rcases hsource with ⟨_, rfl⟩ | ⟨_, rfl⟩ <;> rfl
  have hsame (t : Ty) : source.same (.nullable t) = false := by
    rcases hsource with ⟨_, rfl⟩ | ⟨_, rfl⟩ <;> simp [Ty.same]
  induction hm with
  | prim q =>
    obtain ⟨p, rfl⟩ := Ty.exists_prim_of_assignable h
    obtain ⟨hq, hp⟩ := Ty.isVoid_of_assignable h
    obtain ⟨is, hemits, -⟩ := converts_convertPrim (isVoid_prim hp) (isVoid_prim hq)
    rw [convert_prim p q (isVoid_prim hq)]
    exact ⟨_, ⟨is, q, hemits.bind (emits_box (isVoid_prim hq)), rfl⟩, .inl rfl⟩
  | cls name =>
    rw [stored_of_isReference rfl, bind_pure_unit]
    rcases hsource with ⟨p, rfl⟩ | ⟨cls, rfl⟩
    · exact leaves_prim_cls h
    · rw [convert_cls rfl]
      exact ⟨cls, ⟨fun _ => rfl, rfl⟩, isInstance_of_assignable h⟩
  | null =>
    cases Ty.eq_null_of_assignable h
    cases hoptional
  | nullable href _ ih =>
    have hassign := (Ty.isOptional_or_assignable h).resolve_left (by rw [hoptional]; exact Bool.false_ne_true)
    rw [convert_nullable (hsame _), stored_of_isReference rfl, ← stored_of_isReference href]
    exact ih hassign
  | union _ _ ih =>
    obtain ⟨⟨m, c⟩, hm⟩ := Option.isSome_iff_exists.1 (Ty.isSome_select?_of_assignable h hunion)
    obtain ⟨cls, hleaves, -⟩ := ih m (Ty.mem_of_select? hm) (Ty.assignable_of_select? hm)
    rw [stored_of_isReference rfl, bind_pure_unit, convert_union hunion hm]
    exact ⟨cls, hleaves, .inr rfl⟩

theorem instanceClass_of_same (ht : t.Built) (h : t.same m = true) :
    instanceClass t = instanceClass m := by
  induction ht generalizing m with
  | nullable _ _ ih =>
    cases m with
    | nullable m =>
      rw [instanceClass, instanceClass]
      exact ih (by simpa only [Ty.same] using h)
    | _ => simp [Ty.same] at h
  | _ => cases m <;> simp_all [Ty.same, instanceClass]

end

/-! ### Arms -/

section
variable {env : Env} {b : Body} {ms seen : List Ty} {arms : List CaseArm}

theorem after_armTypes (u : Ty) :
    After (armTypes env u ms seen arms) b fun types _ => ∃ ts, types = seen.reverse ++ ts ∧
      List.Forall₂ (fun a t => env.typeName a.type = .ok t) arms ts ∧
      (∀ t ∈ ts, ∃ m ∈ ms, m.same t = true) ∧
      (seen.reverse.Pairwise (fun s t => s.same t = false) →
        types.Pairwise fun s t => s.same t = false) := by
  induction arms generalizing seen with
  | nil => exact .of_eq rfl ⟨[], by simp, .nil, nofun, id⟩
  | cons a arms ih =>
    refine .bind (.lift fun t ht => ?_)
    dsimp only
    split
    · exact .bind (.of_error rfl)
    · next hmember =>
      split
      · exact .bind (.of_error rfl)
      · next hnew =>
        refine ih.mono ?_
        rintro types _ ⟨ts, rfl, harms, hmembers, hdistinct⟩
        refine ⟨t :: ts, by simp, .cons ht harms, ?_, fun h => hdistinct ?_⟩
        · exact List.forall_mem_cons.2 ⟨Ty.hasMember_iff.1 (by simpa using hmember), hmembers⟩
        · rw [List.reverse_cons]
          refine List.pairwise_append.2 ⟨h, List.pairwise_singleton _ _, fun s hs t' ht' => ?_⟩
          cases List.mem_singleton.1 ht'
          simpa using fun hsame => hnew (List.any_eq_true.2 ⟨s, List.mem_reverse.1 hs, hsame⟩)

/-- The arms of a case have the types of the members of the union in some order. -/
theorem after_caseTypes (haliases : ∀ a ∈ env.aliases, a.2.Built)
    (hbuilt : (Ty.union ms).Built) (hx : env.typeOf b.scopes x = .ok (.union ms) ∨
      env.typeOf b.scopes x = .ok (.nullable (.union ms))) :
    After (caseTypes env tok x arms) b fun types _ =>
      List.Forall₂ (fun a t => env.typeName a.type = .ok t) arms types ∧ (∀ t ∈ types, t.Built) ∧
      ∃ ts, ts.Perm types ∧ List.Forall₂ (fun t m => t.same m = true) ts ms := by
  have hcovered : After (do
      let types ← armTypes env (.union ms) ms [] arms
      let missing := ms.filter fun m => !types.any (·.same m)
      if !missing.isEmpty then refuse tok (.missingCases (.union ms) missing)
      return types) b fun types _ => List.Forall₂ (fun a t => env.typeName a.type = .ok t) arms types ∧
        (∀ t ∈ types, t.Built) ∧ ∃ ts, ts.Perm types ∧ List.Forall₂ (fun t m => t.same m = true) ts ms := by
    refine .bind ((after_armTypes _).mono ?_)
    rintro types _ ⟨_, rfl, harms, hmembers, hdistinct⟩
    dsimp only
    split
    · exact .bind (.of_error rfl)
    · next hmissing =>
      have hcovers : ∀ m ∈ ms, ∃ t ∈ types, t.same m = true := by
        simpa [List.filter_eq_nil_iff] using hmissing
      have htypes : ∀ t ∈ types, t.Built := fun t ht => by
        obtain ⟨a, -, ha⟩ := exists_of_forall₂ harms ht
        exact Ty.lifts_built.of_typeName (fun _ => Ty.built_of_named haliases) ha
      cases hbuilt with
      | union hms hmsdistinct =>
        exact .of_eq rfl ⟨harms, htypes, Ty.exists_perm_of_covers (fun m hm => (hms m hm).distinct)
          hmsdistinct (fun t ht => (htypes t ht).distinct) (hdistinct .nil) hmembers hcovers⟩
  refine .bind (.bind (.of_eq rfl (.lift fun t ht => ?_)))
  rcases hx with hx | hx
  · cases hx.symm.trans ht
    exact .bind (.of_eq rfl hcovered)
  · cases hx.symm.trans ht
    exact .bind (.of_eq rfl hcovered)

end

/-! ### Tests -/

/-- What is on the stack between the tests of a case: the object, or the answer whether it is of a class. -/
inductive Item where
  | object
  | answer (yes : Bool)

/-- A step of the code that asks about the object in a slot, where `isOf` tells the classes that it is of. -/
inductive Asks (c : Code) (value : Nat) (isOf : Text → Bool) : Nat × List Item → Nat × List Item → Prop
  | load : c.instrs[k]? = some ⟨.aload, .slot value⟩ → Asks c value isOf (k, s) (k + 1, .object :: s)
  | test : c.instrs[k]? = some ⟨.instanceof, .cls cls⟩ →
    Asks c value isOf (k, .object :: s) (k + 1, .answer (isOf cls) :: s)
  | fall : c.instrs[k]? = some ⟨.ifeq, .label l⟩ →
    Asks c value isOf (k, .answer true :: s) (k + 1, s)
  | jump : c.instrs[k]? = some ⟨.ifeq, .label l⟩ → c.labelIndex? l = some n →
    Asks c value isOf (k, .answer false :: s) (n, s)

/-- What an arm does with a value of its type. -/
def takenArm (env : Env) (value : Nat) : CaseArm → Ty → Gen Unit
  | .mk tok _ name (.mk _ ss), t => taken env tok name t value (stmts env ss)

/-- The code of an arm starts at an index. -/
def ArmAt (env : Env) (value : Nat) (c : Code) (a : CaseArm) (t : Ty) (k : Nat) : Prop :=
  ∃ b b' : Body, b.code.instrs.size = k ∧ takenArm env value a t b = .ok ((), b') ∧ b'.code.Extends c

/-- Code asks from an index on whether the object in a slot is of the classes of some arms. The code of an
arm follows its test, which jumps to the next one for other objects. -/
inductive Tests (env : Env) (value : Nat) (c : Code) : Nat → List (CaseArm × Ty) → Prop
  | nil : Tests env value c k []
  | cons : c.instrs[k]? = some ⟨.aload, .slot value⟩ →
    c.instrs[k + 1]? = some ⟨.instanceof, .cls (instanceClass t)⟩ →
    c.instrs[k + 2]? = some ⟨.ifeq, .label l⟩ → c.labelIndex? l = some n →
    ArmAt env value c a t (k + 3) → Tests env value c n arms → Tests env value c k ((a, t) :: arms)

section
variable {env : Env} {c c' : Code} {value : Nat} {b : Body}

theorem ArmAt.extends (h : ArmAt env value c a t k) (hc : c.Extends c') : ArmAt env value c' a t k := by
  obtain ⟨b, b', hk, hb, hext⟩ := h
  exact ⟨b, b', hk, hb, hext.trans hc⟩

theorem Tests.extends (h : Tests env value c k arms) (hc : c.Extends c') : Tests env value c' k arms := by
  induction h with
  | nil => exact .nil
  | cons hload htest hjump hl harm _ ih =>
    exact .cons (hc.instrs hload) (hc.instrs htest) (hc.instrs hjump) (hc.labels hl) (harm.extends hc) ih

/-- The tests lead to the first arm with a class that the object is of. -/
theorem Tests.reaches {isOf : Text → Bool} (h : Tests env value c k arms) (hp : p ∈ arms)
    (hof : isOf (instanceClass p.2) = true) :
    ∃ q ∈ arms, isOf (instanceClass q.2) = true ∧ ∃ j, ArmAt env value c q.1 q.2 j ∧
      Relation.ReflTransGen (Asks c value isOf) (k, []) (j, []) := by
  induction h with
  | nil => cases hp
  | @cons k l n a t arms hload htest hjump hl harm _ ih =>
    have hasked : Relation.ReflTransGen (Asks c value isOf) (k, [])
        (k + 2, [.answer (isOf (instanceClass t))]) :=
      .tail (.single (.load hload)) (.test htest)
    cases hanswer : isOf (instanceClass t) with
    | true =>
      rw [hanswer] at hasked
      exact ⟨(a, t), .head _, hanswer, k + 3, harm, hasked.tail (.fall hjump)⟩
    | false =>
      rw [hanswer] at hasked
      rcases List.mem_cons.1 hp with rfl | hp
      · cases hanswer.symm.trans hof
      · obtain ⟨q, hq, hof, j, hj, hrest⟩ := ih hp
        exact ⟨q, .tail _ hq, hof, j, hj, (hasked.tail (.jump hjump hl)).trans hrest⟩

/-- Code with a test behind it, which jumps to a label of its own. -/
def tested (c : Code) (value : Nat) (cls : Text) : Code :=
  ((c.newLabel.2.emit ⟨.aload, .slot value⟩).emit ⟨.instanceof, .cls cls⟩).emit ⟨.ifeq, .label c.marks.size⟩

theorem size_tested : (tested c value cls).instrs.size = c.instrs.size + 3 := by
  delta tested
  simp only [Code.size_emit]
  rfl

theorem instrs_tested (c : Code) (value : Nat) (cls : Text) :
    (tested c value cls).instrs[c.instrs.size]? = some ⟨.aload, .slot value⟩ ∧
      (tested c value cls).instrs[c.instrs.size + 1]? = some ⟨.instanceof, .cls cls⟩ ∧
      (tested c value cls).instrs[c.instrs.size + 2]? = some ⟨.ifeq, .label c.marks.size⟩ := by
  let c₁ := c.newLabel.2.emit ⟨.aload, .slot value⟩
  let c₂ := c₁.emit ⟨.instanceof, .cls cls⟩
  have hsize₁ : c₁.instrs.size = c.instrs.size + 1 := Code.size_emit _ _
  have hsize₂ : c₂.instrs.size = c.instrs.size + 2 :=
    (Code.size_emit c₁ _).trans (congrArg (· + 1) hsize₁)
  refine ⟨?_, ?_, hsize₂ ▸ Code.instrs_emit_self c₂ _⟩
  · exact Code.instrs_emit_of_eq_some (Code.instrs_emit_of_eq_some (Code.instrs_emit_self _ _))
  · exact Code.instrs_emit_of_eq_some (hsize₁ ▸ Code.instrs_emit_self c₁ _)

theorem marks_tested : (tested c value cls).marks.size = c.marks.size + 1 := by
  delta tested
  simp

theorem labelIndex?_tested : (tested c value cls).labelIndex? c.marks.size = none := by
  delta tested
  simp only [Code.labelIndex?_emit, Code.labelIndex?_newLabel]
  simp [Code.labelIndex?]

/-- An arm is written after its test, and the label that the test jumps to stands behind it. -/
theorem after_caseArm (a : CaseArm) (t : Ty) (done : Label) :
    After (caseArm env a t value done) b fun _ b' => ∀ arms c, b'.code.Extends c →
      Tests env value c b'.code.instrs.size arms →
      Tests env value c b.code.instrs.size ((a, t) :: arms) := by
  obtain ⟨tok, type, name, ⟨brace, ss⟩⟩ := a
  rw [caseArm, arm_eq]
  let c₁ := tested b.code value (instanceClass t)
  refine .bind (.of_eq rfl (.bind (.of_eq rfl (.bind (.of_eq rfl (.bind (.of_eq rfl ?_)))))))
  change After _ { b with code := c₁ } _
  refine .bind fun _ b₂ h₂ => .bind fun _ b₃ h₃ => .of_eq rfl fun arms c hc htests => ?_
  have hmarks : b.code.marks.size + 1 ≤ c₁.marks.size := marks_tested.ge
  have hgrows₂ : c₁.Grows (b.code.marks.size + 1) b₂.code :=
    (extendingPass env _).taken (d := 1) (i := ()) trivial name t trivial
      (fun _ => (extendingPass env _).stmts (Nat.le_add_left _ _) (Stmt.allAt_true ss))
      { b with code := c₁ } hmarks _ _ h₂
  have hgrows₃ : b₂.code.Grows (b.code.marks.size + 1) b₃.code :=
    (extendingPass env _).again (d := 1) (i := ()) done b₂ (hmarks.trans hgrows₂.marks) _ _ h₃
  have hgrows := hgrows₂.trans hgrows₃
  have hlast : b₃.code.Extends c := (Code.grows_bind (Nat.le_refl _) b₃.code).toExtends.trans hc
  have hext : c₁.Extends c := hgrows.toExtends.trans hlast
  have hlabel : (b₃.code.bind b.code.marks.size).labelIndex? b.code.marks.size =
      some b₃.code.instrs.size :=
    Code.labelIndex?_bind_self (hmarks.trans hgrows.marks)
      ((hgrows.old (Nat.lt_succ_self _)).trans labelIndex?_tested)
  obtain ⟨hload, htest, hjump⟩ := instrs_tested b.code value (instanceClass t)
  rw [Code.instrs_bind] at htests
  exact .cons (hext.instrs hload) (hext.instrs htest) (hext.instrs hjump) (hc.labels hlabel)
    ⟨{ b with code := c₁ }, b₂, size_tested, h₂, hgrows₃.toExtends.trans hlast⟩ htests

theorem after_caseArms (hlength : arms.length = types.length) (done : Label) :
    After (caseArms env arms types value done) b fun _ b' =>
      Tests env value b'.code b.code.instrs.size (arms.zip types) := by
  induction arms generalizing types b with
  | nil => exact fun _ _ _ => .nil
  | cons a arms ih =>
    cases types with
    | nil => cases hlength
    | cons t types =>
      rw [caseArms]
      refine .bind ((after_caseArm a t done).mono fun _ b₁ harm => fun u b₂ h₂ => ?_)
      have hgrows := (extendingPass env 0).caseArms (d := 1) (i := ()) (CaseArm.allAt_true arms) types
        trivial done b₁ (Nat.zero_le _) u b₂ h₂
      exact harm _ _ hgrows.toExtends (ih (Nat.succ.inj hlength) u b₂ h₂)

/-- The code of a case stores the value in a slot and asks for the classes of the arms then. -/
theorem after_case (hlength : arms.length = types.length) :
    After (inScope do
      discard (expr env x .value)
      let value ← alloc .object
      edit (·.store .object value)
      let done ← newLabel
      caseArms env arms types value done
      bind done) b fun _ b' => ∃ value k, (∃ t b₁,
        expr env x .value { b with scopes := b.scopes.push } = .ok (t, b₁) ∧
        b₁.code.instrs.size = k ∧ b'.code.instrs[k]? = some ⟨.astore, .slot (value : Nat)⟩) ∧
      Tests env value b'.code (k + 1) (arms.zip types) := by
  refine .bind (.of_eq rfl (.bind ?_))
  refine .bind (.discard fun t b₂ h₂ => .bind ((code_alloc .object b₂).mono fun value b₃ hcode => ?_))
  let c₃ := b₃.code.emit ⟨.astore, .slot value⟩
  refine .bind (.of_eq rfl (.bind (.of_eq rfl (.bind fun u b₅ h₅ => .of_eq rfl ?_))))
  have htests := after_caseArms hlength _ u b₅ h₅
  have hgrows : c₃.newLabel.2.Grows 0 b₅.code :=
    (extendingPass env 0).caseArms (d := 1) (i := ()) (CaseArm.allAt_true arms) types
      trivial _ _ (Nat.zero_le _) u b₅ h₅
  have hlast := (Code.grows_bind (Nat.zero_le c₃.marks.size) b₅.code).toExtends
  refine .bind (.of_eq rfl (.of_eq rfl ⟨value, b₃.code.instrs.size, ⟨t, b₂, h₂, by rw [hcode], ?_⟩, ?_⟩))
  · exact hlast.instrs (hgrows.instrs (Code.instrs_emit_self b₃.code _))
  · exact (Code.size_emit b₃.code _ ▸ htests).extends hlast

/-- A case over a union has arms for exactly its members. Its code stores the value and asks whether it is
of the `instanceClass` of each arm in turn. All that a variable of the union takes is stored as an object
that the arm of the member for it asks for, so the code comes to some arm. -/
theorem case_exhaustive {tok : Token} {x : Expr} {b' : Body} {ms : List Ty} {arms : List CaseArm}
    (haliases : ∀ a ∈ env.aliases, a.2.Built)
    (hbuilt : (Ty.union ms).Built) (hx : env.typeOf b.scopes x = .ok (.union ms) ∨
      env.typeOf b.scopes x = .ok (.nullable (.union ms)))
    (hcase : stmt env (.case tok x arms) b = .ok ((), b')) :
    ∃ types b₁, caseTypes env tok x arms b = .ok (types, b₁) ∧
      List.Forall₂ (fun a t => env.typeName a.type = .ok t) arms types ∧
      (∃ ts, ts.Perm types ∧ List.Forall₂ (fun t m => t.same m = true) ts ms) ∧
      ∃ value k, (∃ t b₂, expr env x .value { b₁ with scopes := b₁.scopes.push } = .ok (t, b₂) ∧
        b₂.code.instrs.size = k ∧ b'.code.instrs[k]? = some ⟨.astore, .slot (value : Nat)⟩) ∧
      Tests env value b'.code (k + 1) (arms.zip types) ∧
      ∀ source, ((∃ p, source = .prim p) ∨ ∃ name, source = .cls name) →
        (Ty.union ms).assignable source = true →
        ∃ m c, Ty.select? ms source = some (m, c) ∧ ∃ t ∈ types, t.same m = true ∧
          ∃ cls, Leaves source (convert source (.union ms)) cls ∧ IsInstance cls (instanceClass t) ∧
            ∀ isOf : Text → Bool, (∀ tested, IsInstance cls tested → isOf tested = true) →
              ∃ q ∈ arms.zip types, isOf (instanceClass q.2) = true ∧
                ∃ j, ArmAt env value b'.code q.1 q.2 j ∧
                  Relation.ReflTransGen (Asks b'.code value isOf) (k + 1, []) (j, []) := by
  rw [stmt] at hcase
  obtain ⟨⟨types, b₁⟩, htypes, hcode⟩ := bind_eq_ok hcase
  obtain ⟨harms, hbuilts, ts, hperm, hall⟩ := after_caseTypes haliases hbuilt hx types b₁ htypes
  obtain ⟨value, k, hstore, htests⟩ := after_case harms.length_eq _ _ hcode
  refine ⟨types, b₁, htypes, harms, ⟨ts, hperm, hall⟩, value, k, hstore, htests,
    fun source hsource hassign => ?_⟩
  have hunion (ss : List Ty) : source ≠ .union ss := by
    rintro rfl
    rcases hsource with ⟨_, ⟨⟩⟩ | ⟨_, ⟨⟩⟩
  obtain ⟨⟨m, c⟩, hm⟩ := Option.isSome_iff_exists.1 (Ty.isSome_select?_of_assignable hassign hunion)
  have hmem := Ty.mem_of_select? hm
  obtain ⟨t, ht, hsame⟩ := exists_of_forall₂ hall hmem
  have ht := hperm.mem_iff.1 ht
  have hmbuilt : m.Built := by
    cases hbuilt
    exact ‹∀ t ∈ ms, t.Built› m hmem
  obtain ⟨cls, hleaves, hinstance⟩ := leaves_stored hsource hmbuilt (Ty.assignable_of_select? hm)
  rw [← instanceClass_of_same (hbuilts t ht) hsame] at hinstance
  rw [← convert_union hunion hm] at hleaves
  refine ⟨m, c, hm, t, ht, hsame, cls, hleaves, hinstance, fun isOf hof => ?_⟩
  obtain ⟨n, hn, rfl⟩ := List.getElem_of_mem ht
  have hlt : n < (arms.zip types).length := by
    rw [List.length_zip, harms.length_eq, Nat.min_self]
    exact hn
  refine htests.reaches (List.getElem_mem hlt) ?_
  rw [List.getElem_zip]
  exact hof _ hinstance

end

def sampleUnion : List Ty := [.int, .nullable .string]

/-- A method with a variable of a union. -/
def sampleVariable : Body where
  scopes := ⟨[[{ name := "v", kind := .local, type := .union sampleUnion }]],
    some { isStatic := true, result := none, next := 1, max := 1 }⟩

/-- `case v { String? s => { } int i => { } }` -/
def sampleCase : Stmt :=
  .case Token.nowhere (.ident Token.nowhere "v")
    [.mk Token.nowhere ⟨Token.nowhere, "String", false, true⟩ "s" (.mk Token.nowhere []),
      .mk Token.nowhere ⟨Token.nowhere, "int", false, false⟩ "i" (.mk Token.nowhere [])]

/-- A short that is stored in the union is taken by one of the arms. -/
theorem case_exhaustive_sampleCase : (Ty.union sampleUnion).Built ∧
    (Ty.union sampleUnion).assignable .short = true ∧
    ∃ b', stmt { mainClass := [] } sampleCase sampleVariable = .ok ((), b') ∧
      ∃ m c, Ty.select? sampleUnion .short = some (m, c) ∧ ∃ t cls, t.same m = true ∧
        Leaves .short (convert .short (.union sampleUnion)) cls ∧ IsInstance cls (instanceClass t) ∧
        ∃ value k j, Relation.ReflTransGen
          (Asks b'.code value fun t => decide (cls = t ∨ t = ClassFile.root)) (k + 1, []) (j, []) := by
  have hbuilt : (Ty.union sampleUnion).Built := by
    refine .union ?_ (.cons ?_ (List.pairwise_singleton _ _))
    · simp only [sampleUnion, List.forall_mem_cons]
      exact ⟨.prim _, .nullable rfl (.cls _), nofun⟩
    · simp [Ty.same, Ty.int]
  have hassign : (Ty.union sampleUnion).assignable .short = true := by decide +kernel
  have hrun : (stmt { mainClass := [] } sampleCase sampleVariable).toOption.isSome = true := by
    decide +kernel
  obtain ⟨⟨⟨⟩, b'⟩, h⟩ := Option.isSome_iff_exists.1 hrun
  have hx : Env.typeOf { mainClass := [] } sampleVariable.scopes (.ident Token.nowhere "v") =
      .ok (.union sampleUnion) := by
    rw [Env.typeOf.eq_def]
    rfl
  obtain ⟨types, _, -, -, -, value, k, -, -, hstored⟩ :=
    case_exhaustive (List.forall_mem_nil _) hbuilt (.inl hx) (of_toOption h)
  obtain ⟨m, c, hm, t, -, hsame, cls, hleaves, hinstance, htaken⟩ := hstored .short (.inl ⟨_, rfl⟩) hassign
  obtain ⟨q, -, -, j, -, hrun⟩ := htaken (fun t => decide (cls = t ∨ t = ClassFile.root))
    fun tested (h : cls = tested ∨ tested = ClassFile.root) => decide_eq_true h
  exact ⟨hbuilt, hassign, b', of_toOption h, m, c, hm, t, cls, hsame, hleaves, hinstance, value, k, j, hrun⟩

end Classwright.Gen
