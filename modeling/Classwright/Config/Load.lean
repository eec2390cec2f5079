import Classwright.Config.Table
import Classwright.Files

/-!
Configuration files. A file is merged over the default configuration; a source without one named
uses the nearest file above it.
-/

namespace Classwright.Config

/-- The name that configuration files are looked up by. -/
def fileName : Text := "ix.toml"

inductive LoadError where
  | unreadable (cause : FileError)
  /-- The file is no TOML, or has a setting of the wrong type. -/
  | malformed (path : Text)

def LoadError.message : LoadError → Text
  | unreadable e => "read config: " ++ e.message
  | malformed p => "parse " ++ p ++ ": toml: cannot decode"

variable {m : Type → Type} [Monad m] [Files m]

/-- The configuration of a file. -/
def load (path : Text) : m (Except LoadError Config) := do
  match ← Files.read path with
  | .error e => return .error (.unreadable e)
  | .ok t =>
    match read t with
    | none => return .error (.malformed path)
    | some c =>
      return .ok { default.merge c with dir := some (← Files.absolute (Path.dir path)) }

/-- The nearest configuration file in a directory or above it; `dirs` are the directories that are
looked into in turn. -/
def findIn : List Text → m (Except LoadError Config)
  | [] => return .ok default
  | d :: ds => do
    let path := Path.join d fileName
    if ← Files.isThere path then load path else findIn ds

/-- The directories from a clean path up to the root. -/
def ancestors (path : Text) : List Text :=
  let parts := (Path.parts path).filter (!·.isEmpty)
  (List.range (parts.length + 1)).map fun i =>
    Path.slash :: Text.join [Path.slash] (parts.take (parts.length - i))

/-- The configuration for sources in a directory. -/
def find (dir : Text) : m (Except LoadError Config) := do
  findIn (ancestors (← Files.absolute dir))

end Classwright.Config
