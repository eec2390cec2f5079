import Classwright.Registry
import Classwright.Ty.Descriptor

/-!
Configuration: the package of the classes that are made, and the modules that a source may use. A
module gives names to static methods of a host class. The modules of the prelude are imported into
every source.
-/

namespace Classwright

/-- A function of a module: its name and descriptor. -/
structure HostFunction where
  name : Text := []
  desc : Text := []
  deriving DecidableEq, Repr

structure HostModule where
  cls : Text := []
  functions : List HostFunction := []
  deriving DecidableEq, Repr

structure Config where
  /-- What internal names of classes start with; empty for nothing. -/
  package : Text := []
  /-- The modules by name. -/
  modules : List (Text × HostModule) := []
  /-- The modules that are imported everywhere, if that is told. -/
  prelude_ : Option (List Text) := none
  /-- The directory of the file that it was read from. -/
  dir : Option Text := none
  deriving Repr

inductive ImportError where
  | unknown (module_ : Text)
  | descriptor (module_ function : Text) (cause : DescriptorError)
  | conflict (module_ : Text) (cause : Conflict)

def ImportError.message : ImportError → Text
  | .unknown m => "unknown module: " ++ m
  | .descriptor m f e => "module " ++ m ++ ": func " ++ f ++ ": " ++ e.message
  | .conflict m e => "module " ++ m ++ ": " ++ e.message

namespace Config

def defaultPrelude : HostModule :=
  ⟨"ix/runtime/Prelude", [
    ⟨"at", "(Ljava/util/List;I)Ljava/lang/Object;"⟩,
    ⟨"at", "(Ljava/lang/String;I)C"⟩,
    ⟨"len", "(Ljava/util/List;)I"⟩,
    ⟨"len", "(Ljava/lang/String;)I"⟩,
    ⟨"parse_int", "(Ljava/lang/String;)I"⟩,
    ⟨"panic", "(Ljava/lang/Object;)V"⟩,
    ⟨"list_append", "(Ljava/util/List;Ljava/lang/Object;)V"⟩,
    ⟨"list_pop", "(Ljava/util/List;)Ljava/lang/Object;"⟩]⟩

def defaultMath : HostModule :=
  ⟨"java/lang/Math", [
    ⟨"sqrt", "(D)D"⟩,
    ⟨"abs", "(I)I"⟩,
    ⟨"abs", "(D)D"⟩,
    ⟨"max", "(II)I"⟩,
    ⟨"min", "(II)I"⟩,
    ⟨"floor", "(D)D"⟩]⟩

/-- The configuration that others are merged over. -/
def default : Config :=
  { modules := [("prelude", defaultPrelude), ("math", defaultMath)],
    prelude_ := some ["prelude"] }

/-- The modules with one put in, instead of one of the same name if there is one. -/
def setModule (name : Text) (m : HostModule) : List (Text × HostModule) → List (Text × HostModule)
  | [] => [(name, m)]
  | (n, m') :: rest => if n = name then (n, m) :: rest else (n, m') :: setModule name m rest

/-- A configuration with what another one tells put over it; a module is replaced as a whole. -/
def merge (c u : Config) : Config :=
  { c with
    package := if u.package.isEmpty then c.package else u.package
    prelude_ := u.prelude_.or c.prelude_
    modules := u.modules.foldl (fun ms (n, m) => setModule n m ms) c.modules }

/-- Adds functions of a host class up to the first that cannot be added. One that is there already
is left out. -/
def addFunctions (module_ cls : Text) (r : Registry) : List HostFunction → Registry × Option ImportError
  | [] => (r, none)
  | f :: fs =>
    match Signature.ofDescriptor f.desc with
    | .error e => (r, some (.descriptor module_ f.name e))
    | .ok sig =>
      if (r.findExact? f.name sig.ins).isSome then addFunctions module_ cls r fs
      else match r.add { dispatch := .static, name := f.name, owner := cls, sig := sig } with
        | .error e => (r, some (.conflict module_ e))
        | .ok r => addFunctions module_ cls r fs

/-- The registry with the functions of a module up to the first that cannot be added. -/
def importModule (c : Config) (r : Registry) (name : Text) : Registry × Option ImportError :=
  match c.modules.lookup name with
  | none => (r, some (.unknown name))
  | some m => addFunctions name m.cls r m.functions

/-- Imports modules in turn. -/
def importAll (c : Config) (r : Registry) : List Text → Except ImportError Registry
  | [] => .ok r
  | name :: names =>
    match c.importModule r name with
    | (_, some e) => .error e
    | (r, none) => c.importAll r names

/-- The functions that every source may call: the builtin ones and the prelude. -/
def registry (c : Config) : Except ImportError Registry :=
  c.importAll .builtins (c.prelude_.getD [])

end Config

end Classwright
