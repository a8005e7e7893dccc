import EsModules.Config.Toml.Printer
import EsModules.Console.Build

/-!
# The command `check`

Validates the configuration and prints it.  The graph of a project is loaded as well, so that
missing modules show up.
-/

namespace EsModules
namespace Console

open Session

/-- Says which configuration is checked. -/
def announceConfig (configPath : Option String) (cwd : String) : Session Unit := do
  let disk := (← get).disk
  match configPath.orElse fun _ => ProjectConfig.discover disk cwd with
  | some path => tell (.info s!"Checking {path}")
  | none =>
      tell (.warning "No modshift.toml or modshift.config.json found, using defaults")

/-- Loads the graph of a configuration and tells its size. -/
def checkGraph (config : ProjectConfig) (cwd : String) : Session Unit := do
  let graph ← loadGraph config cwd
  let externals := (graph.modules.filter (·.external)).length
  let locals := graph.modules.length - externals
  tell (.success s!"Resolved {locals} modules ({externals} external)")
  let cycles := graph.cycles.length
  if 0 < cycles then tell (.info s!"{cycles} circular import chains")

/-- Checks the configuration. -/
def checkCommand (configPath : Option String) (given : Given) : Session Unit := do
  if given.has .sample then
    print (Config.Toml.render ProjectConfig.sample.settings)
  else
    let cwd ← workingDirectory (given.value? .cwd)
    announceConfig configPath cwd
    let config ← loadConfig configPath cwd {}
    tell (.success "Configuration is valid")
    if config.format.graph?.isSome && !config.entries.isEmpty then checkGraph config cwd
    print (Config.Toml.render config.settings)

end Console
end EsModules
