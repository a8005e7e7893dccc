import EsModules.Access
import EsModules.Catalog
import EsModules.Transpile.Options

/-!
# Targets

A target decides what the code around a module looks like: how an imported module is loaded into
its handle, how exports are published, and how the whole is wrapped.
-/

namespace EsModules

/-- The registry that all generated modules share. -/
def registryVariable : String := "__es6_module_registry__"

/-- The object that holds the exports of a module. -/
def moduleVariable : String := "__es6_module__"

/-- What a target sees of the module. -/
structure ModuleView where
  registryName : String
  options : TranspileOptions
  catalog : Catalog
  /-- The registry key of every module that is named. -/
  keys : List (String × String)
  deriving Repr, Inhabited

namespace ModuleView

/-- The formatting of generated code. -/
def format (view : ModuleView) : FormatOptions :=
  view.options.format

/-- A text as a string literal. -/
def quote (view : ModuleView) (text : String) : String :=
  view.format.quote text

/-- Several texts as string literals with commas between them. -/
def quoteAll (view : ModuleView) (texts : List String) : String :=
  String.intercalate ", " (texts.map view.quote)

/-- The handle of a module that the catalog knows. -/
def requireHandle (view : ModuleView) (source : String) : Except TranspileError String :=
  match view.catalog.handle? source with
  | some handle => .ok handle
  | none => .error (.missingCatalogEntry s!"handle for '{source}'")

/-- The expression that gives the current value of an export. -/
def exportValue (view : ModuleView) : ExportBinding → Except TranspileError String
  | .own name => .ok name
  | .reExport source kind => do
      return accessExpression (← view.requireHandle source) kind view.format

/-- Every public name with the expression that gives its current value. -/
def exportAccessors (view : ModuleView) : Except TranspileError (List (String × String)) :=
  view.catalog.exports.mapM fun e => return (e.exported, ← view.exportValue e.binding)

/-- The handles of all modules that are named, in order. -/
def handles (view : ModuleView) : List String :=
  view.catalog.handles.map (·.2)

end ModuleView

/-- A module to be loaded into a handle. -/
structure ImportRequest where
  handle : String
  /-- The path as it is written. -/
  source : String
  /-- The registry key of the path. -/
  key : String
  deriving DecidableEq, Repr, Inhabited

/-- Text before and behind everything else. -/
structure Wrapper where
  header : String
  footer : String
  deriving DecidableEq, Repr, Inhabited

/-- An output format for a single module. -/
structure Target where
  name : String
  /-- Code before the first statement. -/
  prologue : ModuleView → Except TranspileError String
  /-- The statement that loads a module, empty if nothing is to be loaded. -/
  importStatement : ModuleView → ImportRequest → String
  /-- The statement that publishes all exports of a handle. -/
  starExport : ModuleView → String → String
  /-- Code behind the last statement. -/
  epilogue : ModuleView → String
  /-- The code around the whole. -/
  wrap : ModuleView → Except TranspileError Wrapper

/-- One getter of `exportGetters`. -/
def exportGetter (format : FormatOptions) (indent : String) (accessor : String × String) :
    String :=
  let name := format.quote accessor.1
  let value := accessor.2
  s!"{indent}{name}: \x7b enumerable: true, get: function () \x7b return {value}; \x7d \x7d"

/-- Defines a getter on an object for each public name, so that importers see later
assignments. -/
def exportGetters
    (object : String)
    (accessors : List (String × String))
    (format : FormatOptions)
    (depth : Nat) :
    String :=
  if accessors.isEmpty then ""
  else
    let outer := format.indentBy depth
    let inner := format.indentBy (depth + 1)
    let properties := String.intercalate ",\n" (accessors.map (exportGetter format inner))
    s!"{outer}Object.defineProperties({object}, \x7b\n{properties}\n{outer}\x7d);\n"

/-- Defines a getter on an object for each key of a handle that is not exported yet. -/
def starExportLoop (object handle : String) (format : FormatOptions) : String :=
  let i1 := format.indentBy 1
  let i2 := format.indentBy 2
  let default := format.quote "default"
  let flag := format.quote "__es6_transpiled__"
  s!"Object.keys({handle}).forEach(function (key) \x7b\n"
    ++ s!"{i1}if (key === {default} || key === {flag} || "
    ++ s!"Object.prototype.hasOwnProperty.call({object}, key)) \x7b\n"
    ++ s!"{i2}return;\n"
    ++ s!"{i1}\x7d\n"
    ++ s!"{i1}Object.defineProperty({object}, key, \x7b enumerable: true, "
    ++ s!"get: function () \x7b return {handle}[key]; \x7d \x7d);\n"
    ++ "\x7d);\n"

/-- The getters for the exports of a module, at the outermost level. -/
def moduleGetters (view : ModuleView) : Except TranspileError String :=
  return exportGetters moduleVariable (← view.exportAccessors) view.format 0

/-- The loop that publishes all exports of a handle on the module's own object. -/
def moduleStarExport (view : ModuleView) (handle : String) : String :=
  starExportLoop moduleVariable handle view.format

/-- The explicit module name as the first argument of a wrapper. -/
def moduleNameArgument (view : ModuleView) : String :=
  match view.options.moduleName with
  | some name => s!"{view.quote name}, "
  | none => ""

end EsModules
