import Classwright.Code.Assemble
import Classwright.Code.Flow

/-!
Classes as they are written to files: fields, and methods with their assembled code, around a pool of
constants.
-/

namespace Classwright

/-- Access flags. -/
abbrev Access := UInt16

namespace Access

abbrev pub : Access := 0x0001
abbrev priv : Access := 0x0002
abbrev prot : Access := 0x0004
abbrev static : Access := 0x0008
abbrev final : Access := 0x0010
abbrev super : Access := 0x0020
abbrev abstract : Access := 0x0400

/-- Whether a flag is set. -/
def has (a flag : Access) : Bool := a &&& flag != 0

end Access

structure Field where
  access : Access
  name : Text
  desc : Text
  deriving DecidableEq, Repr

structure Method where
  access : Access
  name : Text
  desc : Text
  maxStack : Int := 0
  maxLocals : Int := 0
  code : Text := []
  deriving DecidableEq, Repr

structure ClassFile where
  access : Access
  name : Text
  super : Text
  fields : Array Field := #[]
  methods : Array Method := #[]
  /-- The file that the class was made from; empty if it is not told. -/
  sourceFile : Text := []
  pool : Pool := {}

/-- Why code is no method. -/
inductive BuildCause where
  | flow (cause : FlowError)
  | assemble (cause : AssembleError)
  deriving DecidableEq, Repr

structure BuildError where
  name : Text
  desc : Text
  cause : BuildCause
  deriving DecidableEq, Repr

def BuildCause.message : BuildCause → Text
  | .flow e => e.message
  | .assemble e => e.message

def BuildError.message (e : BuildError) : Text :=
  "method " ++ e.name ++ e.desc ++ ": " ++ e.cause.message

namespace ClassFile

/-- The class that all others come from. -/
def root : Text := "java/lang/Object"

/-- A class without members. -/
def create (name super : Text) (access : Access) : ClassFile :=
  { access := access, name := name, super := if super.isEmpty then root else super }

def hasField (c : ClassFile) (name : Text) : Bool := c.fields.any (·.name == name)

def addField (c : ClassFile) (f : Field) : ClassFile := { c with fields := c.fields.push f }

/-- The method of a name, and of a descriptor unless that is empty. -/
def findMethod? (c : ClassFile) (name desc : Text) : Option Method :=
  c.methods.find? fun m => m.name == name && (desc.isEmpty || m.desc == desc)

/-- Checks and assembles code. The constants that it uses stay in the pool also if this fails. -/
def build (access : Access) (name desc : Text) (code : Code) (locals : Int) (p : Pool) :
    Except BuildError Method × Pool :=
  let fail (cause : BuildCause) : Except BuildError Method := .error ⟨name, desc, cause⟩
  match code.fault with
  | some e => (fail (.assemble (.tracking e)), p)
  | none =>
    match code.analyze with
    | .error e => (fail (.flow e), p)
    | .ok stack =>
      match code.assemble p with
      | (.error e, p) => (fail (.assemble e), p)
      | (.ok bytes, p) => (.ok ⟨access, name, desc, stack, locals, bytes⟩, p)

/-- Adds a method with the given code. -/
def addMethod (c : ClassFile) (access : Access) (name desc : Text) (code : Code) (locals : Int) :
    Except BuildError Method × ClassFile :=
  match build access name desc code locals c.pool with
  | (.error e, p) => (.error e, { c with pool := p })
  | (.ok m, p) => (.ok m, { c with pool := p, methods := c.methods.push m })

end ClassFile

/-- The classes made from one source. -/
structure ClassUnit where
  main : Text
  classes : List ClassFile

def ClassUnit.class? (u : ClassUnit) (name : Text) : Option ClassFile :=
  u.classes.find? (·.name == name)

end Classwright
