import EsModules.Target.Amd

/-!
# The `yui` target

Dependencies arrive in one object under their registry keys, and the module returns its exports.
-/

namespace EsModules
namespace Target

/-- The `YUI.add` call with the registry keys. -/
def yuiWrapper (view : ModuleView) : Wrapper :=
  let name := view.quote view.registryName
  let version := view.quote "@VERSION@"
  let es := view.quote "es"
  let requires := view.quote "requires"
  let keys := view.quoteAll (view.keys.map (·.2))
  ⟨s!"YUI.add({name}, function (Y, NAME, __imports__, __exports__) \x7b\n",
    s!"\x7d, {version}, \x7b {es}: true, {requires}: [{keys}] \x7d);\n"⟩

/-- YUI modules. -/
def yui : Target where
  name := "yui"
  prologue := exportsPrologue
  importStatement := fun view request =>
    s!"var {request.handle} = __imports__[{view.quote request.key}];"
  starExport := moduleStarExport
  epilogue := fun _ => s!"return {moduleVariable};\n"
  wrap := fun view => .ok (yuiWrapper view)

end Target
end EsModules
