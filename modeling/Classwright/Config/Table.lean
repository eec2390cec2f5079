import Classwright.Config
import Classwright.Toml.Reader

/-!
Configuration out of settings in TOML. Names of settings are compared without regard to case, and
settings that mean nothing here are left alone; one of the wrong type is refused.
-/

namespace Classwright.Toml

/-- The text with its letters in lower case. Beside capitals, the sign of the kelvin is a form of
`k` and the long s one of `s`. -/
def folded : Text → Text
  | 0xE2 :: 0x84 :: 0xAA :: rest => ascii 'k' :: folded rest
  | 0xC5 :: 0xBF :: rest => ascii 's' :: folded rest
  | b :: rest => Text.lower b :: folded rest
  | [] => []

namespace Value

def text? : Value → Option Text
  | .text t => some t
  | _ => none

def table? : Value → Option Table
  | .table t => some t
  | _ => none

def items? : Value → Option (List Value)
  | .array vs => some vs
  | .tables ts => some (ts.map .table)
  | _ => none

end Value

/-- The settings with a name in its spellings that differ in case, the exact one last. None may have
the wrong type. -/
def Table.settings {α : Type} (read : Value → Option α) (name : Text) (t : Table) :
    Option (List α) :=
  let found := t.filter fun (n, _) => folded n = name
  let (same, others) := found.partition fun (n, _) => n = name
  (others ++ same).mapM fun (_, v) => read v

/-- The setting with a name, if there is one. -/
def Table.setting {α : Type} (read : Value → Option α) (name : Text) (t : Table) :
    Option (Option α) :=
  (t.settings read name).map List.getLast?

end Classwright.Toml

namespace Classwright

open Toml

def HostFunction.ofValue (v : Value) : Option HostFunction := do
  let t ← v.table?
  let name ← t.setting Value.text? "name"
  let desc ← t.setting Value.text? "desc"
  some ⟨name.getD [], desc.getD []⟩

def HostModule.ofValue (v : Value) : Option HostModule := do
  let t ← v.table?
  let cls ← t.setting Value.text? "class"
  let functions ← t.setting (fun v => v.items?.bind (·.mapM HostFunction.ofValue)) "funcs"
  some ⟨cls.getD [], functions.getD []⟩

/-- The modules of a table; what is no table has none. -/
def HostModule.allOfValue (v : Value) : Option (List (Text × HostModule)) :=
  match v with
  | .table t => t.mapM fun (n, m) => (HostModule.ofValue m).map fun m => (n, m)
  | _ => some []

namespace Config

def ofTable (t : Table) : Option Config := do
  let package ← t.setting Value.text? "package"
  let modules ← t.settings HostModule.allOfValue "modules"
  let names ← t.setting (fun v => v.items?.bind (·.mapM Value.text?)) "prelude"
  some { package := package.getD [], modules := modules.flatten, prelude_ := names }

/-- The configuration that a text tells. -/
def read (t : Text) : Option Config := (Document.read t).bind fun d => ofTable d.root

end Config

end Classwright
