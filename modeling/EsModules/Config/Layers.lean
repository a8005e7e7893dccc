import EsModules.Config.Environment
import EsModules.Config.Json
import EsModules.Config.Project
import EsModules.Config.Toml
import EsModules.Disk

/-!
# Layered configuration

The settings come from four layers: the defaults, a file, the environment and the command line.
A later layer lies over the earlier ones.
-/

namespace EsModules

open Config

/-- The kinds of configuration files. -/
inductive ConfigSyntax where
  | toml
  | json
  deriving DecidableEq, Repr, Inhabited

namespace ConfigSyntax

/-- The kind of a file by its extension. -/
def ofPath? (path : String) : Option ConfigSyntax :=
  match Path.extension? path with
  | some "toml" => some toml
  | some "json" => some json
  | _ => none

/-- The settings that a text holds. -/
def parse? : ConfigSyntax → String → Option Fields
  | toml, text => Toml.parse? text
  | json, text => Json.parse? text

end ConfigSyntax

namespace ProjectConfig

/-- The names of the files that are looked for, in order of preference. -/
def fileNames : List String :=
  ["modshift.toml", "modshift.config.json"]

/-- The configuration file in a directory. -/
def discover (disk : Disk) (directory : String) : Option String :=
  (fileNames.map (Path.join directory)).find? disk.isFile

/-- What to look at when a setting is unusable. -/
def layerHint : String :=
  "Check modshift.toml, modshift.config.json and MODSHIFT_* variables"

/-- The file that the settings are read from: the one that is asked for, or one in the
directory. -/
def configFile (disk : Disk) (path : Option String) (directory : String) :
    Except ConfigError (Option String) :=
  match path with
  | some path => if disk.isFile path then .ok (some path) else .error (.notFound path)
  | none => .ok (discover disk directory)

/-- The settings of a file. -/
def readLayer (disk : Disk) (path : String) : Except ConfigError Fields :=
  match ConfigSyntax.ofPath? path with
  | none => .error (.unsupportedFormat path)
  | some kind =>
      match (disk.read path).toOption.bind kind.parse? with
      | some fields => .ok fields
      | none => .error (.invalidValue ConfigError.wholeFile "" layerHint)

/-- The settings of all layers, one over the other. -/
def mergeLayers (layers : List Fields) : Fields :=
  layers.foldl (fun lower upper => Fields.over upper lower) []

/-- The configuration that layers above the defaults give. -/
def ofLayers (layers : List Fields) : Except ConfigError ProjectConfig := do
  let config ← match decode (mergeLayers (({} : ProjectConfig).fields :: layers)) with
    | .ok config => pure config
    | .error e =>
        throw (.invalidValue (String.intercalate "." e.path) e.fault.message layerHint)
  config.validate
  return config

/-- Loads the configuration for a directory. -/
def load
    (disk : Disk)
    (environment : List (String × String))
    (path : Option String)
    (directory : String)
    (overrides : ConfigOverrides) :
    Except ConfigError ProjectConfig := do
  let file ← match ← configFile disk path directory with
    | some path => readLayer disk path
    | none => pure []
  ofLayers [file, Environment.settings environment, overrides.fields]

end ProjectConfig
end EsModules
