import EsModules.Console.Arguments
import EsModules.Console.Session

/-!
# The command `transpile`

Every file becomes one module, independent of the others.  Here the files are transpiled in the
order of the command line and the first failure ends the command.  Nothing depends on that order: a
runner may as well take the files side by side, and those behind a failed one may then be written
too.
-/

namespace EsModules
namespace Console

open Session

/-- The settings that the command line gives. -/
def transpileOverrides (given : Given) : ConfigOverrides where
  format := (given.value? .format).bind fun name => OutputFormat.all.find? (·.name == name)
  registryName := given.value? .registryName
  moduleName := given.value? .moduleName
  dirPath := given.value? .dirPath
  root := given.value? .root
  outDir := given.value? .outDir
  sourcemap := (given.value? .sourcemap).bind fun name => SourceMapMode.all.find? (·.name == name)

/-- What is the same for all files of a command. -/
structure TranspileJob where
  config : ProjectConfig
  target : Target
  cwd : String
  root : String
  outDir : String

/-- The name that a file registers under. -/
def TranspileJob.nameOf (job : TranspileJob) (path : String) : Session String :=
  match job.config.registryName with
  | some name => return name
  | none =>
      match registrationName? job.root path with
      | some name => return name
      | none => throw (.graph (.outsideRoot path job.root))

/-- The options for one file. -/
def TranspileJob.optionsOf (job : TranspileJob) (name path outPath : String) : TranspileOptions :=
  let options := job.config.transpileOptions name
  { options with
    format :=
      { options.format with
        sourceFileName := some (sourceName job.root path)
        sourceMapName := Path.fileName? outPath } }

/-- Transpiles one file. -/
def TranspileJob.run (job : TranspileJob) (file : String) : Session OutputSummary := do
  let path := resolvePath file job.cwd
  let text ← readFile path
  let name ← job.nameOf path
  let outPath := outputPath job.outDir name
  let options := job.optionsOf name path outPath
  let output ← orFail (.module path) (transpileFor job.target text options)
  let bytes ← writeOutput outPath output job.config.sourcemap
  return ⟨name, outPath, bytes⟩

/-- Transpiles files one by one. -/
def transpileCommand (configPath : Option String) (given : Given) : Session Unit := do
  let cwd ← workingDirectory (given.value? .cwd)
  let files := given.arguments
  if given.has .registryName && 1 < files.length then
    throw <| CommandError.withHint
      "Omit it to derive each name from the file path relative to --root"
      (.invalidArgument "--registry-name only applies to a single input file")
  let config ← loadConfig configPath cwd (transpileOverrides given)
  let target ← match config.format.target? with
    | some target => pure target
    | none =>
        throw <| CommandError.withHint
          "Use \x60modshift build\x60 for system or commonjs output"
          (.invalidArgument s!"the '{config.format.name}' format needs the whole module graph")
  if config.registryName.isSome && 1 < files.length then
    throw (.invalidArgument
      "registryName from the config file only applies to a single input file")
  let outDir := resolvePath config.outDir cwd
  let job : TranspileJob := ⟨config, target, cwd, resolvePath config.root cwd, outDir⟩
  let outputs ← files.mapM job.run
  tell (.written outputs)
  let noun := if outputs.length == 1 then "file" else "files"
  tell (.success s!"Transpiled {outputs.length} {noun} to {outDir}")

end Console
end EsModules
