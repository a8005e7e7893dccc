import EsModules.Scope
import EsModules.Text.LineIndex
import EsModules.Transpile.Error

/-!
# The catalog of a module

What a module imports, what it exports under which public names, and the handle that stands for
each module it names.  The statements are taken in order; an export of an imported name is linked
to the import at the end, so it does not matter which of the two comes first.
-/

namespace EsModules

open Syntax

/-- One imported binding. -/
structure ImportEntry where
  source : String
  kind : ImportKind
  /-- The name in this module. -/
  name : String
  deriving DecidableEq, Repr, Inhabited

/-- What a public name stands for. -/
inductive ExportBinding where
  /-- A binding of this module. -/
  | own (name : String)
  /-- A binding of another module. -/
  | reExport (source : String) (kind : ImportKind)
  deriving DecidableEq, Repr, Inhabited

/-- One public name. -/
structure ExportEntry where
  exported : String
  binding : ExportBinding
  deriving DecidableEq, Repr, Inhabited

/-- The form of a default export. -/
inductive DefaultForm where
  | namedFunction
  | namedClass
  | identifier
  /-- An expression, or a function or class without a name. -/
  | expression
  deriving DecidableEq, Repr, Inhabited

/-- The binding that holds the default export. -/
structure DefaultExport where
  form : DefaultForm
  name : String
  deriving DecidableEq, Repr, Inhabited

/-- The imports and exports of a module. -/
structure Catalog where
  imports : List ImportEntry
  exports : List ExportEntry
  /-- The modules whose names are all exported again. -/
  stars : List String
  /-- The modules that are named, each once, in the order of their first mention. -/
  sources : List String
  defaultExport : Option DefaultExport
  deriving DecidableEq, Repr, Inhabited

namespace Catalog

/-- The variable that holds a default export without a name of its own. -/
def defaultBinding : String := "__es6_default_export__"

/-- The variable that holds the module with the given number. -/
def handleName (index : Nat) : String :=
  s!"__imports_{index}__"

/-- The catalog of a module without imports and exports. -/
def empty : Catalog :=
  ⟨[], [], [], [], none⟩

/-- The handle of a module. -/
def handle? (catalog : Catalog) (source : String) : Option String :=
  (catalog.sources.findIdx? (· == source)).map handleName

/-- The modules that are named, with their handles. -/
def handles (catalog : Catalog) : List (String × String) :=
  catalog.sources.zipIdx.map fun (source, index) => (source, handleName index)

/-- The import that binds a name. -/
def importOf? (catalog : Catalog) (name : String) : Option ImportEntry :=
  catalog.imports.find? (·.name == name)

/-- The export with a public name. -/
def exportOf? (catalog : Catalog) (exported : String) : Option ExportEntry :=
  catalog.exports.find? (·.exported == exported)

/-- The public names in order. -/
def exportNames (catalog : Catalog) : List String :=
  catalog.exports.map (·.exported)

/-- Takes note of a module that is named. -/
def addSource (catalog : Catalog) (source : String) : Catalog :=
  if catalog.sources.contains source then catalog
  else { catalog with sources := catalog.sources ++ [source] }

/-- Adds an imported binding. -/
def addImport (source : String) (catalog : Catalog) (b : ImportBinding) :
    Except TranspileError Catalog :=
  if (catalog.importOf? b.name).isSome then .error (.duplicateBinding b.name)
  else .ok { catalog with imports := catalog.imports ++ [⟨source, b.kind, b.name⟩] }

/-- Adds a public name. -/
def addExport (catalog : Catalog) (entry : ExportEntry) : Except TranspileError Catalog :=
  if (catalog.exportOf? entry.exported).isSome then .error (.duplicateExport entry.exported)
  else .ok { catalog with exports := catalog.exports ++ [entry] }

/-- The public names that an exported declaration gives. -/
def declaredNames : Exported → Except TranspileError (List String)
  | .bindings patterns => .ok (patterns.flatMap bindingNames)
  | .function (some name) => .ok [name]
  | .classDef (some name) => .ok [name]
  | .function none => .error (.missingCatalogEntry "exported function name")
  | .classDef none => .error (.missingCatalogEntry "exported class name")

/-- The binding that holds a default export; an interface has none. -/
def defaultOf? : DefaultValue → Option DefaultExport
  | .function (some name) => some ⟨.namedFunction, name⟩
  | .classDef (some name) => some ⟨.namedClass, name⟩
  | .name name => some ⟨.identifier, name⟩
  | .function none => some ⟨.expression, defaultBinding⟩
  | .classDef none => some ⟨.expression, defaultBinding⟩
  | .expression => some ⟨.expression, defaultBinding⟩
  | .interface => none

/-- Adds a default export that starts at a byte offset. -/
def addDefault (text : String) (start : Nat) (value : DefaultValue) (catalog : Catalog) :
    Except TranspileError Catalog :=
  match defaultOf? value with
  | none =>
      let (line, column) := Text.lineColumn text start
      .error (.unsupportedDeclaration "TSInterfaceDeclaration" (line + 1) (column + 1))
  | some d => do
      let catalog ← catalog.addExport ⟨"default", .own d.name⟩
      return { catalog with defaultExport := some d }

/-- Adds a statement of the module. -/
def addItem (text : String) (catalog : Catalog) : Item → Except TranspileError Catalog
  | .imports _ source bindings =>
      bindings.foldlM (addImport source) (catalog.addSource source)
  | .exportDeclaration _ _ exported _ => do
      let names ← declaredNames exported
      names.foldlM (fun c name => c.addExport ⟨name, .own name⟩) catalog
  | .exportList _ specifiers =>
      specifiers.foldlM (fun c s => c.addExport ⟨s.exported, .own s.name⟩) catalog
  | .exportFrom _ source specifiers =>
      specifiers.foldlM
        (fun c s => c.addExport ⟨s.exported, .reExport source (.ofName s.name)⟩)
        (catalog.addSource source)
  | .exportDefault _ inner value _ => catalog.addDefault text inner.start value
  | .exportAll _ source (some exported) =>
      (catalog.addSource source).addExport ⟨exported, .reExport source .whole⟩
  | .exportAll _ source none =>
      let catalog := catalog.addSource source
      .ok <|
        if catalog.stars.contains source then catalog
        else { catalog with stars := catalog.stars ++ [source] }
  | .statement _ _ _ => .ok catalog

/-- An export of an imported name is served from the module it comes from. -/
def linkExport (imports : List ImportEntry) (entry : ExportEntry) : ExportEntry :=
  match entry.binding with
  | .own name =>
      match imports.find? (·.name == name) with
      | some i => { entry with binding := .reExport i.source i.kind }
      | none => entry
  | .reExport _ _ => entry

/-- The catalog of a module with the given text. -/
def build (text : String) (program : Program) : Except TranspileError Catalog := do
  let catalog ← program.items.foldlM (addItem text) empty
  return { catalog with exports := catalog.exports.map (linkExport catalog.imports) }

end Catalog
end EsModules
