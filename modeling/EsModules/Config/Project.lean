import EsModules.Config.Decode
import EsModules.Config.OutputFormat
import EsModules.Text.Blank

/-!
# The configuration of a project

All settings with their defaults, the settings that a command line may give, and the rules that a
configuration has to keep.
-/

namespace EsModules

open Config

/-- The settings of a project. -/
structure ProjectConfig where
  format : OutputFormat := .cjs
  /-- The name a single module registers under. -/
  registryName : Option String := none
  /-- The name that an AMD module is defined under. -/
  moduleName : Option String := none
  /-- The directory that relative imports are joined to. -/
  dirPath : Option String := none
  /-- The directory that registration names start from. -/
  root : String := "."
  /-- The modules that a graph starts from. -/
  entries : List String := []
  /-- The modules that the host provides; without any, all that are not relative. -/
  external : List String := []
  outDir : String := "dist"
  sourcemap : SourceMapMode := .external
  indent : IndentStyle := .spaces 2
  quote : Text.QuoteStyle := .double
  /-- The loader for the `system` format is written as well. -/
  runtime : Bool := false
  deriving DecidableEq, Repr, Inhabited

/-- The settings of a command line. -/
structure ConfigOverrides where
  format : Option OutputFormat := none
  registryName : Option String := none
  moduleName : Option String := none
  dirPath : Option String := none
  root : Option String := none
  entries : Option (List String) := none
  external : Option (List String) := none
  outDir : Option String := none
  sourcemap : Option SourceMapMode := none
  runtime : Option Bool := none
  deriving DecidableEq, Repr, Inhabited

namespace Config

/-- The name of a quotation style. -/
def quoteName : Text.QuoteStyle → String
  | .single => "single"
  | .double => "double"

/-- A list of texts. -/
def texts (items : List String) : Value :=
  .list (items.map .string)

/-- An indentation. -/
def indentValue : IndentStyle → Value
  | .tabs => .string "tabs"
  | .spaces width => .dict [("spaces", .unsigned width)]

/-- Reads an indentation. -/
def indentDecoder : Decoder IndentStyle :=
  .variant "IndentStyle"
    [("tabs", some .tabs, fun v => (fun _ => .tabs) <$> Decoder.nothing v),
     ("spaces", none, fun v => .spaces <$> Decoder.byte v)]

/-- The entry of a setting, if it is given. -/
def entry? (key : String) (value : Option Value) : List (String × Value) :=
  match value with
  | some v => [(key, v)]
  | none => []

end Config

namespace ConfigOverrides

/-- The layer of the settings that are given. -/
def fields (o : ConfigOverrides) : Fields :=
  Fields.ofList <|
    entry? "format" (o.format.map fun f => .string f.name)
      ++ entry? "registryName" (o.registryName.map .string)
      ++ entry? "moduleName" (o.moduleName.map .string)
      ++ entry? "dirPath" (o.dirPath.map .string)
      ++ entry? "root" (o.root.map .string)
      ++ entry? "entries" (o.entries.map texts)
      ++ entry? "external" (o.external.map texts)
      ++ entry? "outDir" (o.outDir.map .string)
      ++ entry? "sourcemap" (o.sourcemap.map fun m => .string m.name)
      ++ entry? "runtime" (o.runtime.map .bool)

end ConfigOverrides

namespace ProjectConfig

/-- The settings in their usual order.  Absent settings and empty lists are left out. -/
def settings (c : ProjectConfig) : List (String × Value) :=
  [("format", .string c.format.name)]
    ++ entry? "registryName" (c.registryName.map .string)
    ++ entry? "moduleName" (c.moduleName.map .string)
    ++ entry? "dirPath" (c.dirPath.map .string)
    ++ [("root", .string c.root)]
    ++ (if c.entries.isEmpty then [] else [("entries", texts c.entries)])
    ++ (if c.external.isEmpty then [] else [("external", texts c.external)])
    ++ [("outDir", .string c.outDir), ("sourcemap", .string c.sourcemap.name),
        ("indent", indentValue c.indent), ("quote", .string (quoteName c.quote)),
        ("runtime", .bool c.runtime)]

/-- The layer of all settings. -/
def fields (c : ProjectConfig) : Fields :=
  Fields.ofList c.settings

/-- Reads the settings in the order of their keys; the first one of the wrong type is reported.
Keys that are no settings are passed over. -/
def decode (fields : Fields) : Except FieldFault ProjectConfig := do
  let dirPath ← fields.decode "dirPath" none (.optional .text)
  let entries ← fields.decode "entries" [] (.list .path)
  let external ← fields.decode "external" [] (.list .text)
  let format ← fields.decode "format" .cjs (.word "OutputFormat" (·.name) OutputFormat.all)
  let indent ← fields.decode "indent" (.spaces 2) indentDecoder
  let moduleName ← fields.decode "moduleName" none (.optional .text)
  let outDir ← fields.decode "outDir" "dist" .path
  let quote ← fields.decode "quote" .double (.word "QuoteStyle" quoteName [.single, .double])
  let registryName ← fields.decode "registryName" none (.optional .text)
  let root ← fields.decode "root" "." .path
  let runtime ← fields.decode "runtime" false .boolean
  let sourcemap ← fields.decode "sourcemap" .external
    (.word "SourceMapMode" (·.name) SourceMapMode.all)
  return {
    format, registryName, moduleName, dirPath, root, entries, external, outDir, sourcemap, indent,
    quote, runtime }

/-- A registration name is not blank. -/
def checkRegistryName (c : ProjectConfig) : Except ConfigError Unit :=
  match c.registryName with
  | some name =>
      if Text.isBlankText name then
        .error (.invalidValue "registryName" name "Registration names cannot be empty")
      else .ok ()
  | none => .ok ()

/-- Only AMD modules have a module name. -/
def checkModuleName (c : ProjectConfig) : Except ConfigError Unit :=
  if c.moduleName.isSome && c.format != .amd && c.format != .amdCjs then
    .error (.invalidValue "moduleName" c.format.name
      "moduleName only applies to the amd and amd-cjs formats")
  else .ok ()

/-- The directory of relative imports is a path of the registry. -/
def checkDirPath (c : ProjectConfig) : Except ConfigError Unit :=
  match c.dirPath with
  | some dir =>
      if Path.isAbsolute dir then
        .error (.invalidValue "dirPath" dir
          "dirPath is a registry path like 'app', not a filesystem path")
      else .ok ()
  | none => .ok ()

/-- No external module has a blank name. -/
def checkExternal (c : ProjectConfig) : Except ConfigError Unit :=
  if c.external.any Text.isBlankText then
    .error (.invalidValue "external" "\"\"" "Remove empty strings from the 'external' list")
  else .ok ()

/-- An indentation has one to eight spaces. -/
def checkIndent (c : ProjectConfig) : Except ConfigError Unit :=
  match c.indent with
  | .tabs => .ok ()
  | .spaces width =>
      if width == 0 || 8 < width then
        .error (.invalidValue "indent" (toString width) "Use between 1 and 8 spaces, or \"tabs\"")
      else .ok ()

/-- The settings go together; the first one that does not is reported. -/
def validate (c : ProjectConfig) : Except ConfigError Unit := do
  c.checkRegistryName
  c.checkModuleName
  c.checkDirPath
  c.checkExternal
  c.checkIndent

/-- How generated code is written. -/
def formatOptions (c : ProjectConfig) : FormatOptions where
  quoteStyle := c.quote
  indent := c.indent
  sourceFileName := none
  sourceMapName := none

/-- The options for one module.  Relative imports are joined to the directory of its name unless
another directory is set. -/
def transpileOptions (c : ProjectConfig) (name : String) : TranspileOptions where
  registryName := some name
  moduleName := c.moduleName
  dirPath := some (c.dirPath.getD ((nameDirectory? name).getD "."))
  format := c.formatOptions

/-- A configuration to start from. -/
def sample : ProjectConfig where
  format := .system
  root := "src"
  entries := ["app/main.js"]
  external := ["ember", "rsvp"]
  runtime := true

end ProjectConfig
end EsModules
