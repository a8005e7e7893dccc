import EsModules.Target

/-!
# The `system` target

Each module is a `System.register` call.  Dependencies are parameters of its function, and the
exports object is sealed once all getters are defined.  The names of the dependencies, and the
names that come through `export *`, are known from the module graph.
-/

namespace EsModules
namespace Target

/-- What the module graph tells about a module. -/
structure SystemLinks where
  /-- The registration name of each dependency, in the order of the handles. -/
  dependencyNames : List String
  /-- The names that come through `export *`, with the expressions that give their values. -/
  starAccessors : List (String × String)
  deriving DecidableEq, Repr, Inhabited

/-- All public names of the module, its own first. -/
def systemAccessors (links : SystemLinks) (view : ModuleView) :
    Except TranspileError (List (String × String)) :=
  return (← view.exportAccessors) ++ links.starAccessors

/-- The getters for all public names; then the object is sealed. -/
def systemPrologue (links : SystemLinks) (view : ModuleView) : Except TranspileError String := do
  let accessors ← systemAccessors links view
  return exportGetters moduleVariable accessors view.format 0
    ++ s!"Object.seal({moduleVariable});\n"

/-- The `System.register` call. -/
def systemWrapper (links : SystemLinks) (view : ModuleView) : Except TranspileError Wrapper := do
  let i1 := view.format.indentBy 1
  let i2 := view.format.indentBy 2
  let bindings := view.quoteAll ((← systemAccessors links view).map (·.1))
  let dependencies := view.quoteAll links.dependencyNames
  let handles := String.intercalate ", " view.handles
  let name := view.quote view.registryName
  let exports := view.quote "exports"
  let bindingsKey := view.quote "bindings"
  let deps := view.quote "deps"
  let function := view.quote "fn"
  let strict := view.quote "use strict"
  let header :=
    s!"System.register({name}, [{dependencies}], function () \x7b\n"
      ++ s!"{i1}var {moduleVariable} = \x7b\x7d;\n"
      ++ s!"{i1}return \x7b\n"
      ++ s!"{i2}{exports}: {moduleVariable},\n"
      ++ s!"{i2}{bindingsKey}: [{bindings}],\n"
      ++ s!"{i2}{deps}: [{dependencies}],\n"
      ++ s!"{i2}{function}: function ({handles}) \x7b\n"
      ++ s!"{strict};\n"
  return ⟨header, s!"{i2}\x7d\n{i1}\x7d;\n\x7d);\n"⟩

/-- Modules of the `System` loader. -/
def system (links : SystemLinks) : Target where
  name := "system"
  prologue := systemPrologue links
  importStatement := fun _ _ => ""
  starExport := fun _ _ => ""
  epilogue := fun _ => ""
  wrap := systemWrapper links

end Target
end EsModules
