import EsModules.Access
import EsModules.Graph

/-!
# Names that come through `export *`

The public names of a module include those of the modules whose names it exports again, and so
on.  For the host's own modules they are not known.
-/

namespace EsModules
namespace Graph

/-- Public names found so far, and the modules they were taken from. -/
structure NameSearch where
  names : List String
  visited : List ModuleId
  deriving Repr, Inhabited

/-- The module with an identity, or the failure that it is missing. -/
def requireModule (g : Graph) (id : ModuleId) : Except GraphError GraphModule :=
  match g.module? id with
  | some m => .ok m
  | none => .error (.missingModule id.path)

/-- The module that an imported path stands for, or the failure that it is not resolved. -/
def requireDependency (m : GraphModule) (specifier : String) : Except GraphError ModuleId :=
  match m.dependency? specifier with
  | some id => .ok id
  | none => .error (.unresolvedImport specifier m.name)

/-- Adds the names of another module; the default export and names that are there already are
left out. -/
def addNames (names more : List String) : List String :=
  more.foldl (fun acc n => if n == "default" || acc.contains n then acc else acc ++ [n]) names

/-- The public names of a module, through at most `depth` modules.  A module that was visited
before gives none. -/
def publicNames (g : Graph) (importer : String) :
    Nat → List ModuleId → ModuleId → Except GraphError NameSearch
  | 0, _, id => .error (.missingModule id.path)
  | depth + 1, visited, id => do
      let m ← g.requireModule id
      if m.external then
        throw (.unsupportedDeclaration importer s!"export * from external module '{m.name}'")
      if id.isAmong visited then return ⟨[], visited⟩
      m.catalog.stars.foldlM
        (fun search source => do
          let dependency ← requireDependency m source
          let found ← publicNames g importer depth search.visited dependency
          return ⟨addNames search.names found.names, found.visited⟩)
        ⟨m.catalog.exportNames, id :: visited⟩

/-- Names with the expressions that give their values, without those `taken` already. -/
def addAccessors
    (handle : String)
    (format : FormatOptions)
    (accessors : List (String × String))
    (taken : List String)
    (names : List String) :
    List (String × String) :=
  names.foldl
    (fun acc n =>
      if n == "default" || taken.contains n || acc.any (·.1 == n) then acc
      else acc ++ [(n, accessExpression handle (.named n) format)])
    accessors

/-- The names that a module publishes through `export *`, with the expressions that give their
values.  Its own names come first, and of two sources the first one wins. -/
def starAccessors (g : Graph) (m : GraphModule) (format : FormatOptions) :
    Except GraphError (List (String × String)) :=
  m.catalog.stars.foldlM
    (fun accessors source => do
      let handle ← match m.catalog.handle? source with
        | some handle => pure handle
        | none => throw (.transpile (.missingCatalogEntry s!"handle for '{source}'"))
      let dependency ← requireDependency m source
      let found ← g.publicNames m.name (g.modules.length + 2) [] dependency
      return addAccessors handle format accessors m.catalog.exportNames found.names)
    []

end Graph
end EsModules
