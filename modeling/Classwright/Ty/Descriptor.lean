import Classwright.Text.Quoted
import Classwright.Ty

/-!
Reading descriptors of fields and methods.
-/

namespace Classwright

inductive DescriptorError where
  | ended
  | badClass (at_ : Nat)
  | badChar (c : UInt8) (at_ : Nat)
  | suffix (at_ : Nat) (rest : Text)
  | notMethod (text : Text)
  | unclosed (text : Text)
  | arg (n : Nat) (cause : DescriptorError)
  | result (cause : DescriptorError)
  deriving DecidableEq, Repr

namespace DescriptorError

def message : DescriptorError → Text
  | ended => "unexpected end of descriptor"
  | badClass i => "bad class descriptor at " ++ Text.ofNat i
  | badChar c i =>
    "unsupported descriptor char " ++ Text.quotedChar (Char.ofNat c.toNat) ++ " at " ++ Text.ofNat i
  | suffix i rest => "unexpected suffix at " ++ Text.ofNat i ++ ": " ++ Text.quoted rest
  | notMethod t => "method descriptor expected: " ++ Text.quoted t
  | unclosed t => "unclosed argument list: " ++ Text.quoted t
  | arg n e => "arg " ++ Text.ofNat n ++ ": " ++ e.message
  | result e => "result: " ++ e.message

end DescriptorError

namespace Descriptor

/-- The primitive of a letter. -/
def prim? (c : UInt8) : Option Prim := Prim.all.find? fun p => p.descriptor == [c]

/-- The type that a text starts with, at an index of the whole descriptor, and what is left. -/
def first (index : Nat) (t : Text) : Except DescriptorError (Ty × Text) :=
  match t with
  | [] => .error .ended
  | c :: rest =>
    match prim? c with
    | some p => .ok (.prim p, rest)
    | none =>
      if c = ascii 'L' then
        let name := rest.takeWhile (· != ascii ';')
        match rest.drop name.length with
        | [] => .error (.badClass index)
        | _ :: rest' => if name.isEmpty then .error (.badClass index) else .ok (.cls name, rest')
      else .error (.badChar c index)

theorem length_of_first {i : Nat} {t rest : Text} {ty : Ty} (h : first i t = .ok (ty, rest)) :
    rest.length < t.length := by
  unfold first at h
  split at h
  · simp at h
  · next c tail =>
    split at h
    · cases h
      exact Nat.lt_succ_self _
    · split at h
      · dsimp only at h
        split at h
        · simp at h
        · next hd =>
          split at h
          · simp at h
          · cases h
            have := congrArg List.length hd
            simp only [List.length_drop, List.length_cons] at this ⊢
            omega
      · simp at h

/-- The argument types up to the closing parenthesis, after those already read, the last one first;
and what is left from the parenthesis on. -/
def args (size : Nat) (read : List Ty) (t : Text) : Except DescriptorError (List Ty × Text) :=
  match t with
  | [] => .ok (read.reverse, [])
  | c :: rest =>
    if c = ascii ')' then .ok (read.reverse, c :: rest)
    else match _h : first (size - (c :: rest).length) (c :: rest) with
      | .error e => .error (.arg read.length e)
      | .ok (ty, rest') => args size (ty :: read) rest'
  termination_by t.length
  decreasing_by exact length_of_first _h

end Descriptor

/-- The type of a field descriptor. -/
def Ty.ofDescriptor (t : Text) : Except DescriptorError Ty := do
  match ← Descriptor.first 0 t with
  | (ty, []) => return ty
  | (_, rest) => throw (.suffix (t.length - rest.length) rest)

/-- The signature of a method descriptor. -/
def Signature.ofDescriptor (t : Text) : Except DescriptorError Signature := do
  match t with
  | 0x28 :: rest =>
    match ← Descriptor.args t.length [] rest with
    | (_, []) => throw (.unclosed t)
    | (ins, _ :: rest') =>
      match Descriptor.first (t.length - rest'.length) rest' with
      | .error e => throw (.result e)
      | .ok (out, []) => return ⟨ins, if out.isVoid then none else some out⟩
      | .ok (_, more) => throw (.suffix (t.length - more.length) more)
  | _ => throw (.notMethod t)

end Classwright
