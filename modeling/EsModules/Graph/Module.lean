import EsModules.Catalog
import EsModules.Graph.ModuleId

/-!
# Modules of a graph
-/

namespace EsModules

/-- The name a module registers under: its path below the root without the extension. -/
def registrationName? (root path : String) : Option String := do
  let relative ←
    if root == "" || Path.components root == [.current] then some path
    else Path.below? root path
  let steps := Path.components relative
  if steps.head? == some .parent || steps.head? == some .root then none
  let stem ← Path.fileStem? relative
  let outer := (Path.components ((Path.parent? relative).getD "")).map Path.Component.text
  return String.intercalate "/" (outer ++ [stem])

/-- A module of a graph. -/
structure GraphModule where
  id : ModuleId
  name : String
  /-- The path of a local module. -/
  path : Option String
  text : String
  catalog : Catalog
  external : Bool
  /-- All imports have been resolved. -/
  resolved : Bool
  /-- The module that each imported path stands for. -/
  dependencies : List (String × ModuleId)
  deriving Repr, Inhabited

namespace GraphModule

/-- A local module whose imports are not resolved yet. -/
def loaded (id : ModuleId) (name path text : String) (catalog : Catalog) : GraphModule :=
  ⟨id, name, some path, text, catalog, false, false, []⟩

/-- A module that the host provides. -/
def ofExternal (name : String) : GraphModule :=
  ⟨.external name, name, none, "", .empty, true, true, []⟩

/-- The module that an imported path stands for. -/
def dependency? (m : GraphModule) (specifier : String) : Option ModuleId :=
  (m.dependencies.find? (·.1 == specifier)).map (·.2)

end GraphModule
end EsModules
