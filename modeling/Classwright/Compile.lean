import Classwright.Syntax.Parser
import Classwright.Unit

/-!
From source text to classes, with the functions that a configuration and earlier sources provide.
-/

namespace Classwright

/-- The program of a source text. -/
def Source.program (src : Text) : Compiled Program :=
  match Source.tokens src with
  | .error e => .error (.lex e)
  | .ok ts =>
    match Parser.program ts with
    | .error e => .error (.parse e)
    | .ok p => .ok p

namespace ClassUnit

/-- Merges the functions of earlier sources into a registry. -/
def addImports (r : Registry) : List Registry → Compiled Registry
  | [] => .ok r
  | i :: is =>
    match r.merge i with
    | (_, some e) => .error (.within "imports" (.conflict e))
    | (r, none) => addImports r is

/-- The functions that a source may call from the start. -/
def startRegistry (config : Config) (imports : List Registry) : Compiled Registry :=
  match config.registry with
  | .error e => .error (.within "config" (.within "prelude" (.import_ e)))
  | .ok r => addImports r imports

/-- The classes of a source text, and the functions that other sources may call. -/
def ofSource (config : Config) (imports : List Registry) (file src : Text) :
    Compiled (ClassUnit × Registry) := do
  let funcs ← startRegistry config imports
  let p ← Source.program src
  ofProgram { package := config.package, modules := some config } funcs file p

end ClassUnit

end Classwright
