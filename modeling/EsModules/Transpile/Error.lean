/-!
# Failures of a transpilation
-/

namespace EsModules

/-- Why a module could not be transpiled. -/
inductive TranspileError where
  /-- A required option is missing or unusable. -/
  | missingConfiguration (option reason : String)
  /-- An export wraps a declaration that cannot be moved; line and column count from one. -/
  | unsupportedDeclaration (kind : String) (line column : Nat)
  /-- The catalog does not know a part of the module. -/
  | missingCatalogEntry (entry : String)
  /-- Two edits touch the same bytes. -/
  | conflictingEdit (offset : Nat)
  /-- The source map that was written cannot be read. -/
  | sourceMap (reason : String)
  /-- The text is not a module. -/
  | parse (file : String)
  /-- Two imports bind the same local name. -/
  | duplicateBinding (name : String)
  /-- Two exports share a public name. -/
  | duplicateExport (name : String)
  /-- No target has the requested name. -/
  | unknownTarget (name : String)
  deriving DecidableEq, Repr, Inhabited

namespace TranspileError

/-- The text that tells the user what went wrong. -/
def message : TranspileError → String
  | missingConfiguration option reason => s!"Missing configuration: {option} - {reason}"
  | unsupportedDeclaration kind line column =>
      s!"Unsupported declaration in export: {kind} at {line}:{column}"
  | missingCatalogEntry entry => s!"Internal error: missing catalog entry for {entry}"
  | conflictingEdit offset => s!"Conflicting edits at byte {offset}"
  | sourceMap reason => s!"Invalid source map: {reason}"
  | parse file => s!"Failed to parse {file}"
  | duplicateBinding name => s!"Duplicate import binding '{name}'"
  | duplicateExport name => s!"Duplicate export '{name}'"
  | unknownTarget name => s!"No transpiler found for type '{name}'"

/-- The stable code of the failure. -/
def code : TranspileError → String
  | missingConfiguration _ _ => "modshift::rewrite::missing_configuration"
  | unsupportedDeclaration _ _ _ => "modshift::rewrite::unsupported_declaration"
  | missingCatalogEntry _ => "modshift::rewrite::missing_catalog_entry"
  | conflictingEdit _ => "modshift::rewrite::conflicting_edit"
  | sourceMap _ => "modshift::rewrite::source_map"
  | parse _ => "modshift::rewrite::parse"
  | duplicateBinding _ => "modshift::rewrite::duplicate_binding"
  | duplicateExport _ => "modshift::rewrite::duplicate_export"
  | unknownTarget _ => "modshift::rewrite::unknown_target"

/-- Advice that goes with the failure. -/
def help : TranspileError → Option String
  | missingConfiguration option _ => some s!"Pass `{option}` in the transpile options"
  | missingCatalogEntry _ =>
      some "This is a bug in modshift, please report it with the input module"
  | conflictingEdit _ =>
      some "This is a bug in modshift, please report it with the input module"
  | unknownTarget _ => some "Available targets: cjs, amd, amd-cjs, yui"
  | _ => none

end TranspileError
end EsModules
