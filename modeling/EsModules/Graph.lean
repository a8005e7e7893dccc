import EsModules.Analysis
import EsModules.Graph.Error
import EsModules.Graph.Module
import EsModules.Graph.Resolver

/-!
# Module graphs

The modules that are reachable from the entries.  Each is loaded once; it is entered before its
own imports are resolved, so an import cycle finds the entry instead of loading it again.  A step
that fails leaves the modules entered so far in the graph.
-/

namespace EsModules

/-- A module graph. -/
structure Graph where
  root : String
  files : SourceFiles
  resolvers : List Resolver
  /-- The modules in the order in which they were loaded. -/
  modules : List GraphModule
  entries : List ModuleId
  deriving Repr, Inhabited

/-- A step on a graph, which may fail and changes the graph either way. -/
abbrev GraphStep (α : Type) : Type :=
  ExceptT GraphError (StateM Graph) α

namespace Graph

/-- A graph without modules. -/
def empty (root : String) (files : SourceFiles) (resolvers : List Resolver) : Graph :=
  ⟨Path.clean root, files, resolvers, [], []⟩

/-- The module with an identity. -/
def module? (g : Graph) (id : ModuleId) : Option GraphModule :=
  g.modules.find? (·.id.same id)

/-- The first module with a registration name. -/
def byName? (g : Graph) (name : String) : Option GraphModule :=
  g.modules.find? (·.name == name)

/-- The name of a module for messages. -/
def displayName (g : Graph) (id : ModuleId) : String :=
  ((g.module? id).map (·.name)).getD id.path

/-- The distinct modules that a module imports. -/
def dependencies (g : Graph) (id : ModuleId) : List ModuleId :=
  match g.module? id with
  | some m => ModuleId.distinct (m.dependencies.map (·.2))
  | none => []

/-- The modules that import a module. -/
def dependents (g : Graph) (id : ModuleId) : List ModuleId :=
  (g.modules.filter fun m => m.dependencies.any (·.2.same id)).map (·.id)

/-- Adds a module behind the others. -/
def addModule (m : GraphModule) (g : Graph) : Graph :=
  { g with modules := g.modules ++ [m] }

/-- Changes the module with an identity. -/
def updateModule (id : ModuleId) (f : GraphModule → GraphModule) (g : Graph) : Graph :=
  { g with modules := g.modules.map fun m => if m.id.same id then f m else m }

/-- Where an import of a module points. -/
def resolution? (g : Graph) (specifier : String) (importer : ModuleId) : Option Resolution :=
  g.resolvers.findSome? fun r => r.resolve? g.files g.root importer specifier

/-- Resolves an import of a module; a local module is loaded by `load`. -/
def resolveBy (load : String → GraphStep ModuleId) (specifier : String) (importer : ModuleId) :
    GraphStep ModuleId := do
  let g ← get
  match g.resolution? specifier importer with
  | none => throw (.unresolvedImport specifier (g.displayName importer))
  | some (.external name) =>
      let id := ModuleId.external name
      if (g.module? id).isNone then modify (addModule (.ofExternal name))
      return id
  | some (.file path) => load path

/-- Reads a module that is not in the graph yet. -/
def readModule (g : Graph) (id : ModuleId) (path : String) : Except GraphError GraphModule := do
  let name ← match registrationName? g.root path with
    | some name => pure name
    | none => throw (.outsideRoot path g.root)
  let text ← match g.files.read? path with
    | some text => pure text
    | none => throw (.io path)
  match analyze path text with
  | .ok catalog => return .loaded id name path text catalog
  | .error e => throw (.transpile e)

/-- Resolves the imports of a module one after the other. -/
def resolveImports (load : String → GraphStep ModuleId) (id : ModuleId) :
    List String → GraphStep Unit
  | [] => modify (updateModule id fun m => { m with resolved := true })
  | specifier :: rest => do
      let dependency ← resolveBy load specifier id
      modify (updateModule id fun m =>
        { m with dependencies := m.dependencies ++ [(specifier, dependency)] })
      resolveImports load id rest

/-- Loads the module at a path and everything it reaches, through at most `depth` modules that are
not in the graph yet. -/
def loadLocal : Nat → String → GraphStep ModuleId
  | 0, path => throw (.missingModule path)
  | depth + 1, path => do
      let id ← match ModuleId.ofPath path with
        | .ok id => pure id
        | .error e => throw (.moduleId e)
      let g ← get
      if (g.module? id).isSome then return id
      let m ← match g.readModule id path with
        | .ok m => pure m
        | .error e => throw e
      modify (addModule m)
      resolveImports (loadLocal depth) id m.catalog.sources
      return id

/-- The number of modules that can still be loaded, and one more. -/
def loadingDepth (g : Graph) : Nat :=
  g.files.files.length + 1

/-- Resolves an import of a module and loads the module it points to. -/
def resolveModule (specifier : String) (importer : ModuleId) : GraphStep ModuleId := do
  resolveBy (loadLocal (← get).loadingDepth) specifier importer

/-- Loads an entry and everything it reaches.  Its path is taken from the root. -/
def addEntry (path : String) : GraphStep ModuleId := do
  let g ← get
  match g.files.lookup? (Path.clean (Path.join g.root path)) with
  | none => throw (.unresolvedImport path "<entry>")
  | some file =>
      let id ← loadLocal g.loadingDepth file
      modify fun g => if id.isAmong g.entries then g else { g with entries := g.entries ++ [id] }
      return id

/-- Loads entries one after the other, up to the first that fails. -/
def addEntries (paths : List String) : GraphStep Unit :=
  paths.forM fun path => discard (addEntry path)

end Graph
end EsModules
