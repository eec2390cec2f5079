import Classwright.Registry
import Classwright.Ty.Descriptor

/-!
Registries as files, so that one source can be compiled against the functions of another. A file holds
a version and the dispatch, name, owner and descriptor of each function, in any encoding of them
(`Wire.Codec`).
-/

namespace Classwright

namespace Wire

def version : Int := 1

/-- A function as a file holds it. -/
structure Entry where
  dispatch : Int := 0
  name : Text := []
  owner : Text := []
  desc : Text := []

/-- A file. -/
structure Table where
  version : Int := 0
  entries : List Entry := []

/-- The entry of a function. -/
def Entry.ofFunction (f : Function) : Entry := ⟨f.dispatch.code, f.name, f.owner, f.sig.descriptor⟩

/-- How files are written and read. Writing may fail, with a message. -/
structure Codec where
  encode : Table → Except Text Text
  decode? : Text → Option Table

end Wire

inductive WireError where
  /-- The bytes do not hold a file. -/
  | decode
  | version (n : Int)
  | descriptor (name : Text) (cause : DescriptorError)
  | conflict (cause : Conflict)

namespace WireError

def message : WireError → Text
  | decode => "decode"
  | version n => "unsupported version: " ++ Text.ofInt n
  | descriptor name e => "func " ++ name ++ ": " ++ e.message
  | conflict c => c.message

end WireError

namespace Registry

/-- What the file of a registry holds. -/
def table (r : Registry) : Wire.Table := ⟨Wire.version, r.all.map Wire.Entry.ofFunction⟩

/-- The file of a registry. -/
def marshal (c : Wire.Codec) (r : Registry) : Except Text Text := c.encode r.table

/-- The registry with the functions of a file, none of them local. -/
def addEntries (r : Registry) : List Wire.Entry → Except WireError Registry
  | [] => .ok r
  | e :: es =>
    match Signature.ofDescriptor e.desc with
    | .error cause => .error (.descriptor e.name cause)
    | .ok sig =>
      match r.add { dispatch := .ofCode e.dispatch, name := e.name, owner := e.owner, sig } with
      | .error cause => .error (.conflict cause)
      | .ok r' => r'.addEntries es

/-- The registry of a file. -/
def unmarshal (c : Wire.Codec) (t : Text) : Except WireError Registry :=
  match c.decode? t with
  | none => .error .decode
  | some table =>
    if table.version ≠ Wire.version then .error (.version table.version)
    else empty.addEntries table.entries

end Registry

end Classwright
