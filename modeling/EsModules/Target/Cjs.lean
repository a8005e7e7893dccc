import EsModules.Target

/-!
# The `cjs` and `amd-cjs` targets

Modules load each other with `require` and share a registry, so that both halves of an import
cycle see the same exports object.  The `amd-cjs` target puts the same code into a `define` call.
-/

namespace EsModules
namespace Target

/-- Registers the module before any of its imports run. -/
def cjsPrologue (view : ModuleView) : Except TranspileError String := do
  let i1 := view.format.indentBy 1
  let name := view.quote view.registryName
  let flag := view.quote "__es6_transpiled__"
  let undefined := view.quote "undefined"
  let getters ← moduleGetters view
  return s!"if (typeof {registryVariable} === {undefined}) \x7b\n"
    ++ s!"{i1}globalThis.{registryVariable} = \x7b\x7d;\n\x7d\n\n"
    ++ s!"if ({registryVariable}[{name}]) \x7b\n"
    ++ s!"{i1}module.exports = {registryVariable}[{name}];\n{i1}return;\n\x7d\n\n"
    ++ s!"var {moduleVariable} = \x7b\n{i1}{flag}: true\n\x7d;\n\n"
    ++ s!"{registryVariable}[{name}] = module.exports = {moduleVariable};\n"
    ++ getters

/-- Looks a module up in the registry before it is required. -/
def cjsImport (view : ModuleView) (request : ImportRequest) : String :=
  let key := view.quote request.key
  let source := view.quote request.source
  s!"var {request.handle} = {registryVariable}[{key}] || require({source});"

/-- CommonJS with a shared registry. -/
def cjs : Target where
  name := "cjs"
  prologue := cjsPrologue
  importStatement := cjsImport
  starExport := moduleStarExport
  epilogue := fun _ => ""
  wrap := fun _ => .ok ⟨"", ""⟩

/-- CommonJS with a shared registry inside a `define` call. -/
def amdCjs : Target where
  name := "amd-cjs"
  prologue := cjsPrologue
  importStatement := cjsImport
  starExport := moduleStarExport
  epilogue := fun _ => ""
  wrap := fun view =>
    .ok ⟨s!"define({moduleNameArgument view}function (require, exports, module) \x7b\n",
      "\x7d);\n"⟩

end Target
end EsModules
