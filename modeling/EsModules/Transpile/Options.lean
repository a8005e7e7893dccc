import EsModules.Format
import EsModules.Path
import EsModules.Text.Blank
import EsModules.Transpile.Error

/-!
# Options of a transpilation

A module registers itself under a name, and finds the modules it imports under their registry
keys.  The key of a relative import is its path joined to the directory of the module.
-/

namespace EsModules

/-- The options for one module. -/
structure TranspileOptions where
  /-- The name the module registers under. -/
  registryName : Option String := none
  /-- The explicit name of a module wrapper that takes one. -/
  moduleName : Option String := none
  /-- The directory that relative imports are joined to. -/
  dirPath : Option String := none
  format : FormatOptions := {}
  deriving DecidableEq, Repr, Inhabited

/-- Joins a relative import to a directory; the result has no leading `./`. -/
def joinRegistryPath (directory source : String) : String :=
  let joined := (Path.clean (Path.join directory source)).toList
  let key := joined.map fun c => if c == '\\' then '/' else c
  match key with
  | '.' :: '/' :: rest => String.ofList rest
  | _ => String.ofList key

namespace TranspileOptions

/-- The registry name, which must not be blank. -/
def requireRegistryName (options : TranspileOptions) : Except TranspileError String :=
  match options.registryName with
  | some name =>
      if Text.isBlankText name then
        .error (.missingConfiguration "registryName" "registry name must not be empty")
      else .ok name
  | none =>
      .error
        (.missingConfiguration "registryName"
          "a registry name is required to register the module")

/-- The registry key of an imported module. -/
def registryKey (options : TranspileOptions) (source : String) : Except TranspileError String :=
  if !Path.isRelative source then .ok source
  else
    match options.dirPath with
    | some directory => .ok (joinRegistryPath directory source)
    | none =>
        .error
          (.missingConfiguration "dirPath"
            s!"can't resolve relative path '{source}' without being passed a dirPath")

/-- The registry keys of several modules, with the modules themselves. -/
def registryKeys (options : TranspileOptions) (sources : List String) :
    Except TranspileError (List (String × String)) :=
  sources.mapM fun source => return (source, ← options.registryKey source)

end TranspileOptions
end EsModules
