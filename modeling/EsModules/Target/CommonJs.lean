import EsModules.Target

/-!
# The `commonjs` target

Each module is a file of its own that loads its dependencies with `require`.  The paths between
the files are known from the module graph.
-/

namespace EsModules
namespace Target

/-- The argument of `require` for an imported path. -/
def requirePath (paths : List (String × String)) (source : String) : String :=
  ((paths.find? (·.1 == source)).map (·.2)).getD source

/-- CommonJS files without a registry. -/
def commonJs (paths : List (String × String)) : Target where
  name := "commonjs"
  prologue := fun view => return s!"var {moduleVariable} = exports;\n" ++ (← moduleGetters view)
  importStatement := fun view request =>
    s!"var {request.handle} = require({view.quote (requirePath paths request.source)});"
  starExport := moduleStarExport
  epilogue := fun _ => ""
  wrap := fun view => .ok ⟨view.quote "use strict" ++ ";\n", ""⟩

end Target
end EsModules
