import EsModules.Console.Arguments
import EsModules.Console.Session
import EsModules.Target.SystemLoader

/-!
# The command `build`

Loads the graph of the entries and writes every local module.
-/

namespace EsModules
namespace Console

open Session

/-- The settings that the command line gives. -/
def buildOverrides (given : Given) : ConfigOverrides where
  format := (given.value? .format).bind fun name => OutputFormat.all.find? (·.name == name)
  root := given.value? .root
  entries := if given.arguments.isEmpty then none else some given.arguments
  external := if given.has .external then some (given.values .external) else none
  outDir := given.value? .outDir
  sourcemap := (given.value? .sourcemap).bind fun name => SourceMapMode.all.find? (·.name == name)
  runtime := if given.has .runtime then some true else none

/-- The file that the loader is written to. -/
def loaderFile : String := "modshift-runtime.js"

/-- Loads the graph of the entries of a configuration. -/
def loadGraph (config : ProjectConfig) (cwd : String) : Session Graph := do
  let root := resolvePath config.root cwd
  let start := Graph.empty root (← get).disk.sources (Resolver.defaults config.external)
  let (result, graph) := (Graph.addEntries config.entries).run.run start
  orFail .graph result
  return graph

/-- Writes the programs of a graph. -/
def writePrograms (config : ProjectConfig) (outDir : String) (programs : List OutputProgram) :
    Session (List OutputSummary) :=
  programs.mapM fun program => do
    let path := outputPath outDir program.name
    let bytes ← writeOutput path program.output config.sourcemap
    return ⟨program.name, path, bytes⟩

/-- Writes the loader, if it is asked for. -/
def writeLoader (config : ProjectConfig) (outDir : String) : Session (List OutputSummary) := do
  if !config.runtime then return []
  let path := Path.join outDir loaderFile
  ensureDirectory outDir
  writeFile path Target.systemLoader
  return [⟨"(runtime)", path, Text.byteLength Target.systemLoader.toList⟩]

/-- Builds a whole graph. -/
def buildCommand (configPath : Option String) (given : Given) : Session Unit := do
  let cwd ← workingDirectory (given.value? .cwd)
  let config ← loadConfig configPath cwd (buildOverrides given)
  let format := config.format.graph?.getD .system
  if config.runtime && format != .system then
    throw (.config (.invalidValue "runtime" "true"
      "The System loader is only written for the system format"))
  if config.entries.isEmpty then
    throw (.config (.missingField "entries"
      "Pass entry modules to \x60modshift build\x60 or set 'entries' in modshift.toml"))
  let outDir := resolvePath config.outDir cwd
  let graph ← loadGraph config cwd
  let programs ← orFail .graph (graph.build format config.formatOptions)
  let outputs ← writePrograms config outDir programs
  let loader ← writeLoader config outDir
  tell (.written (outputs ++ loader))
  tell (.success s!"Built {programs.length} modules into {outDir}")

end Console
end EsModules
