import Classwright.ClassFile.Decode

/-!
Reading on after an error. After the pool a reader may keep its first error, go on with zeros, and be asked
for the error at the end: it finds what a reader that stops there finds (`Sticky.checked_classFile`).
-/

namespace Classwright

/-- A reader that goes on after its first error. -/
structure StickyReader where
  reader : Reader
  fault : Option DecodeError

abbrev Sticky := StateT StickyReader (Except DecodeError)

namespace Sticky

variable {α β : Type} (p : Pool)

/-- Breaks off at an error. -/
def stop (m : Read α) : Sticky α := fun s => do
  let (x, r) ← m s.reader
  return (x, { s with reader := r })

/-- Goes on after an error, which counts if it is the first. -/
def fail (e : DecodeError) (a : α) : Sticky α := fun s => .ok (a, { s with fault := s.fault.or (some e) })

def bytes (n : Nat) : Sticky Text := fun s =>
  match s.fault, Text.split? [] n s.reader.rest with
  | none, some (t, rest) => .ok (t, ⟨⟨s.reader.offset + n, rest⟩, none⟩)
  | _, _ => fail .ended [] s

def number (n : Nat) : Sticky Nat := do
  return Text.ofBigEndian (← bytes n)

def skip (n : Nat) : Sticky Unit := do
  let _ ← bytes n

/-- Loops end at an error. -/
def guarded (a : α) (m : Sticky α) : Sticky α := fun s => if s.fault.isSome then .ok (a, s) else m s

def many (item : Sticky α) (done : Array α) : Nat → Sticky (Array α)
  | 0 => return done
  | n + 1 => guarded done do
    let x ← item
    many item (done.push x) n

def className : Sticky Text := do
  let at_ := (← get).reader.offset
  match p.get? (← number 2) with
  | some (.cls n) => return ((p.get? n).map (·.text)).getD []
  | _ => fail (.badClass at_) []

def name : Sticky Text := do
  let at_ := (← get).reader.offset
  match p.get? (← number 2) with
  | some (.utf8 s) => return s
  | _ => fail (.badUtf8 at_) []

def skipAttributes : Sticky Unit := do
  let one : Sticky Unit := do
    skip 2
    skip (← number 4)
  let _ ← many one #[] (← number 2)

def field : Sticky Field := do
  let access ← number 2
  let name ← name p
  let desc ← Sticky.name p
  skipAttributes
  return ⟨UInt16.ofNat access, name, desc⟩

def methodAttributes (m : Method) : Nat → Sticky Method
  | 0 => return m
  | n + 1 => guarded m do
    let attr ← name p
    let size ← number 4
    if attr = "Code" then
      let stack ← number 2
      let locals ← number 2
      let code ← bytes (← number 4)
      skip (8 * (← number 2))
      skipAttributes
      methodAttributes { m with maxStack := stack, maxLocals := locals, code := code } n
    else
      skip size
      methodAttributes m n

def method : Sticky Method := do
  let access ← number 2
  let name ← name p
  let desc ← Sticky.name p
  methodAttributes p { access := UInt16.ofNat access, name := name, desc := desc } (← number 2)

def classAttributes (source : Text) : Nat → Sticky Text
  | 0 => return source
  | n + 1 => guarded source do
    let attr ← name p
    let size ← number 4
    if attr = "SourceFile" ∧ size = 2 then
      classAttributes (← name p) n
    else
      skip size
      classAttributes source n

def classFile : Sticky ClassFile := do
  let magic ← stop (Read.numberOr (.badMagic 0) 4)
  if magic ≠ ClassFile.magic then throw (.badMagic magic)
  stop Read.classFile.skipHead
  let version ← stop (Read.numberOr .poolEnded 2)
  if ClassFile.majorVersion < version then throw (.version version)
  let p ← stop Read.pool
  let access ← number 2
  let this ← className p
  let super ← className p
  let _ ← many (skip 2) #[] (← number 2)
  let fields ← many (field p) #[] (← number 2)
  let methods ← many (method p) #[] (← number 2)
  let source ← classAttributes p [] (← number 2)
  return ⟨UInt16.ofNat access, this, super, fields, methods, source, p⟩

/-- Asks for the error at the end. -/
def checked (s : Sticky α) : Read α := fun r => do
  match ← s ⟨r, none⟩ with
  | (_, ⟨_, some e⟩) => throw e
  | (x, ⟨r, none⟩) => return (x, r)

/-- Reading on comes to what stopping comes to, and an error stays. -/
structure Follows (s : Sticky α) (m : Read α) : Prop where
  checked : s.checked = m
  stays (r : Reader) (e : DecodeError) : ∃ x r', s ⟨r, some e⟩ = .ok (x, ⟨r', some e⟩)

variable {p} {s : Sticky α} {m : Read α} {f : α → Sticky β} {g : α → Read β}

theorem Follows.bind (hs : Follows s m) (hf : ∀ x, Follows (f x) (g x)) : Follows (s >>= f) (m >>= g) where
  checked := by
    funext r
    rw [← hs.checked]
    change (s ⟨r, none⟩ >>= _) >>= _ = (s ⟨r, none⟩ >>= _) >>= _
    rcases s ⟨r, none⟩ with _ | ⟨x, r', _ | e⟩
    · rfl
    · exact congrFun (hf x).checked r'
    · obtain ⟨y, r'', h⟩ := (hf x).stays r' e
      change f x ⟨r', some e⟩ >>= _ = _
      rw [h]
      rfl
  stays r e := by
    obtain ⟨x, r', h⟩ := hs.stays r e
    change ∃ y r'', s ⟨r, some e⟩ >>= _ = _
    rw [h]
    exact (hf x).stays r' e

theorem Follows.pure (a : α) : Follows (pure a) (pure a) := ⟨rfl, fun r _ => ⟨a, r, rfl⟩⟩

theorem Follows.fail (a : α) : Follows (fail e a) (throw e) := ⟨rfl, fun r _ => ⟨a, r, rfl⟩⟩

theorem Follows.guarded (a : α) (h : Follows s m) : Follows (guarded a s) m :=
  ⟨h.checked, fun r _ => ⟨a, r, rfl⟩⟩

theorem Follows.get {s : StickyReader → Sticky α} {m : Reader → Read α}
    (h : ∀ r e, Follows (s ⟨r, e⟩) (m r)) : Follows (get >>= s) (get >>= m) :=
  ⟨funext fun r => congrFun (h r none).checked r, fun r e => (h r (some e)).stays r e⟩

theorem follows_bytes : Follows (bytes n) (Read.bytes n) where
  checked := by
    funext r
    delta checked bytes Read.bytes Read.bytesOr
    dsimp only
    cases Text.split? [] n r.rest <;> rfl
  stays r e := ⟨[], r, rfl⟩

theorem follows_number : Follows (number n) (Read.number n) := follows_bytes.bind fun _ => .pure _

theorem follows_skip : Follows (skip n) (Read.skip n) := follows_bytes.bind fun _ => .pure _

theorem Follows.many (h : Follows s m) (n : Nat) (done : Array α) :
    Follows (many s done n) (Read.many m done n) := by
  induction n generalizing done with
  | zero => exact .pure _
  | succ n ih => exact .guarded _ (h.bind fun x => ih _)

theorem follows_className : Follows (className p) (Read.className p) := by
  refine .get fun _ _ => follows_number.bind fun n => ?_
  obtain _ | e := p.get? n
  · exact .fail _
  · cases e <;> first | exact .pure _ | exact .fail _

theorem follows_name : Follows (name p) (Read.name p) := by
  refine .get fun _ _ => follows_number.bind fun n => ?_
  obtain _ | e := p.get? n
  · exact .fail _
  · cases e <;> first | exact .pure _ | exact .fail _

theorem follows_skipAttributes : Follows skipAttributes Read.skipAttributes :=
  follows_number.bind fun n => (Follows.many (follows_skip.bind fun _ =>
    follows_number.bind fun _ => follows_skip) n #[]).bind fun _ => .pure _

theorem follows_field : Follows (field p) (Read.field p) :=
  follows_number.bind fun _ => follows_name.bind fun _ => follows_name.bind fun _ =>
    follows_skipAttributes.bind fun _ => .pure _

theorem follows_methodAttributes (n : Nat) (m : Method) :
    Follows (methodAttributes p m n) (Read.methodAttributes p m n) := by
  induction n generalizing m with
  | zero => exact .pure _
  | succ n ih =>
    refine .guarded _ (follows_name.bind fun attr => follows_number.bind fun size => ?_)
    by_cases h : attr = "Code"
    · rw [if_pos h, if_pos h]
      exact follows_number.bind fun _ => follows_number.bind fun _ => follows_number.bind fun k =>
        follows_bytes.bind fun _ => follows_number.bind fun k => follows_skip.bind fun _ =>
          follows_skipAttributes.bind fun _ => ih _
    · rw [if_neg h, if_neg h]
      exact follows_skip.bind fun _ => ih _

theorem follows_method : Follows (method p) (Read.method p) :=
  follows_number.bind fun _ => follows_name.bind fun _ => follows_name.bind fun _ =>
    follows_number.bind fun n => follows_methodAttributes n _

theorem follows_classAttributes (n : Nat) (source : Text) :
    Follows (classAttributes p source n) (Read.classAttributes p source n) := by
  induction n generalizing source with
  | zero => exact .pure _
  | succ n ih =>
    refine .guarded _ (follows_name.bind fun attr => follows_number.bind fun size => ?_)
    by_cases h : attr = "SourceFile" ∧ size = 2
    · rw [if_pos h, if_pos h]
      exact follows_name.bind ih
    · rw [if_neg h, if_neg h]
      exact follows_skip.bind fun _ => ih _

theorem checked_stop (m : Read α) (f : α → Sticky β) :
    (stop m >>= f).checked = m >>= fun x => (f x).checked := by
  funext r
  change ((m r >>= _) >>= _) >>= _ = m r >>= _
  cases m r <;> rfl

theorem checked_classFile : classFile.checked = Read.classFile := by
  refine (checked_stop _ _).trans (bind_congr fun magic => ?_)
  split
  · rfl
  refine (checked_stop _ _).trans (bind_congr fun _ => ?_)
  refine (checked_stop _ _).trans (bind_congr fun version => ?_)
  split
  · rfl
  refine (checked_stop _ _).trans (bind_congr fun p => ?_)
  exact (follows_number.bind fun _ => follows_className.bind fun _ => follows_className.bind fun _ =>
    follows_number.bind fun n => (follows_skip.many n _).bind fun _ =>
      follows_number.bind fun n => (follows_field.many n _).bind fun _ =>
        follows_number.bind fun n => (follows_method.many n _).bind fun _ =>
          follows_number.bind fun n => (follows_classAttributes n _).bind fun _ => .pure _).checked

end Sticky
end Classwright
