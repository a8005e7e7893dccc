import EsModules.Graph.ModuleId
import EsModules.Transpile.Error

/-!
# Failures of a module graph
-/

namespace EsModules

/-- Why a module graph could not be loaded or written. -/
inductive GraphError where
  /-- No resolver knows an import. -/
  | unresolvedImport (specifier importer : String)
  /-- A module could not be read. -/
  | io (path : String)
  /-- A module lies outside the root and has no name. -/
  | outsideRoot (path root : String)
  /-- The format cannot express a construct. -/
  | unsupportedDeclaration (module kind : String)
  /-- The graph lacks a module that it refers to. -/
  | missingModule (id : String)
  | transpile (error : TranspileError)
  | moduleId (error : ModuleIdError)
  deriving DecidableEq, Repr, Inhabited

namespace GraphError

/-- The text that tells the user what went wrong. -/
def message : GraphError → String
  | unresolvedImport specifier importer =>
      s!"Unable to resolve '{specifier}' imported from '{importer}'"
  | io path => s!"Failed to read '{path}'"
  | outsideRoot path root => s!"Module '{path}' is outside the graph root '{root}'"
  | unsupportedDeclaration module kind => s!"Unsupported declaration in '{module}': {kind}"
  | missingModule id => s!"Internal error: module '{id}' is not in the graph"
  | transpile error => error.message
  | moduleId error => error.message

/-- The stable code of the failure. -/
def code : GraphError → String
  | unresolvedImport _ _ => "modshift::graph::unresolved_import"
  | io _ => "modshift::graph::io"
  | outsideRoot _ _ => "modshift::graph::outside_root"
  | unsupportedDeclaration _ _ => "modshift::graph::unsupported_declaration"
  | missingModule _ => "modshift::graph::missing_module"
  | transpile error => error.code
  | moduleId _ => "modshift::graph::module_id"

/-- Advice that goes with the failure. -/
def help : GraphError → Option String
  | unresolvedImport _ _ => some "Check the path, or list the module as external"
  | outsideRoot _ _ => some "Pass a --root that contains every local module"
  | missingModule _ =>
      some "This is a bug in modshift, please report it with the input modules"
  | transpile error => error.help
  | _ => none

end GraphError
end EsModules
