import EsModules.Graph.Order
import EsModules.Graph.RequirePath
import EsModules.Graph.StarExports
import EsModules.Target.CommonJs
import EsModules.Target.System
import EsModules.Transpile

/-!
# Output of a whole graph

Every local module becomes one program, dependencies first.  External modules give none.
-/

namespace EsModules

/-- The formats for whole graphs. -/
inductive GraphFormat where
  | system
  | commonJs
  deriving DecidableEq, Repr, Inhabited

/-- The name of a format. -/
def GraphFormat.name : GraphFormat → String
  | system => "system"
  | commonJs => "commonjs"

/-- A module in its output form. -/
structure OutputProgram where
  id : ModuleId
  name : String
  output : Rendered
  deriving Repr, Inhabited

/-- The name of a source file in source maps: its path below the root, with slashes. -/
def sourceName (root path : String) : String :=
  let relative := (Path.below? root path).getD path
  String.ofList (relative.toList.map fun c => if c == '\\' then '/' else c)

namespace Graph

/-- The name of a module's source in its source map: the path below the root. -/
def sourceFileName (g : Graph) (m : GraphModule) : String :=
  match m.path with
  | none => m.name
  | some path => sourceName g.root path

/-- The options for one module: relative imports are joined to the module's own directory. -/
def moduleOptions (g : Graph) (m : GraphModule) (format : FormatOptions) : TranspileOptions where
  registryName := some m.name
  moduleName := none
  dirPath := some ((nameDirectory? m.name).getD ".")
  format :=
    { format with
      sourceFileName := some (g.sourceFileName m)
      sourceMapName := some s!"{m.name}.js" }

/-- The registration names of the modules that a module imports, in the order of its handles. -/
def dependencyNames (g : Graph) (m : GraphModule) : Except GraphError (List String) :=
  m.catalog.sources.mapM fun source => do
    return (← g.requireModule (← requireDependency m source)).name

/-- The argument of `require` for each path that a module imports. -/
def requirePaths (g : Graph) (m : GraphModule) : Except GraphError (List (String × String)) :=
  m.catalog.sources.mapM fun source => do
    let dependency ← g.requireModule (← requireDependency m source)
    let path :=
      if dependency.external then dependency.name else relativeRequire m.name dependency.name
    return (source, path)

/-- The target for one module of the graph. -/
def targetOf (g : Graph) (m : GraphModule) (kind : GraphFormat) (format : FormatOptions) :
    Except GraphError Target :=
  match kind with
  | .system => do
      return Target.system ⟨← g.dependencyNames m, ← g.starAccessors m format⟩
  | .commonJs => do
      return Target.commonJs (← g.requirePaths m)

/-- One module in its output form. -/
def formatModule (g : Graph) (kind : GraphFormat) (format : FormatOptions) (id : ModuleId) :
    Except GraphError OutputProgram := do
  let m ← g.requireModule id
  let target ← g.targetOf m kind format
  match transpileFor target m.text (g.moduleOptions m format) with
  | .ok output => return ⟨id, m.name, output⟩
  | .error e => throw (.transpile e)

/-- All local modules in their output form, dependencies first. -/
def build (g : Graph) (kind : GraphFormat) (format : FormatOptions) :
    Except GraphError (List OutputProgram) :=
  (g.executionOrder.filter (!·.isExternal)).mapM (g.formatModule kind format)

end Graph
end EsModules
