import EsModules.Target

/-!
# The `amd` target

Dependencies arrive as parameters of the factory, one for each handle, behind the exports object.
-/

namespace EsModules
namespace Target

/-- Takes the exports object from its parameter and defines the getters. -/
def exportsPrologue (view : ModuleView) : Except TranspileError String :=
  return s!"var {moduleVariable} = __exports__;\n" ++ (← moduleGetters view)

/-- The `define` call with the registry keys and the handles. -/
def amdWrapper (view : ModuleView) : Wrapper :=
  let dependencies := view.quoteAll ("exports" :: view.keys.map (·.2))
  let parameters := String.intercalate ", " ("__exports__" :: view.handles)
  ⟨s!"define({moduleNameArgument view}[{dependencies}], function ({parameters}) \x7b\n",
    "\x7d);\n"⟩

/-- AMD modules. -/
def amd : Target where
  name := "amd"
  prologue := exportsPrologue
  importStatement := fun _ _ => ""
  starExport := moduleStarExport
  epilogue := fun _ => ""
  wrap := fun view => .ok (amdWrapper view)

end Target
end EsModules
