import EsModules.Catalog
import EsModules.Scope
import EsModules.Syntax.Program

/-!
# Analysis of a module text
-/

namespace EsModules

open Syntax

/-- Reads a text as a module; `file` names it in the failure. -/
def parseModule (file text : String) : Except TranspileError Program :=
  match Program.parse text with
  | .ok program => .ok program
  | .error _ => .error (.parse file)

/-- The catalog of a module text. -/
def analyze (file text : String) : Except TranspileError Catalog := do
  Catalog.build text (← parseModule file text)

/-- The scopes and references of a module text. -/
def scopesOf (file text : String) : Except TranspileError ScopeTable := do
  return ScopeTable.build (← parseModule file text)

end EsModules
