import EsModules.Graph.Files
import EsModules.Graph.ModuleId

/-!
# Resolvers

A resolver decides where an import points, or leaves it to the next one.
-/

namespace EsModules

/-- Where an import points. -/
inductive Resolution where
  /-- A file that becomes part of the graph. -/
  | file (path : String)
  /-- A module that the host provides. -/
  | external (name : String)
  deriving DecidableEq, Repr, Inhabited

/-- A way to resolve imports.  These two are all there are here, and a graph has a list of them in
any order.  A host that resolves imports in a way of its own is not covered: what is known of the
graphs that are loaded is known for lists of these two only. -/
inductive Resolver where
  /-- Relative paths, from the directory of the importing module. -/
  | relative
  /-- Names of external modules: all that are not relative, or those of a whitelist and their
  subpaths. -/
  | external (whitelist : List String)
  deriving DecidableEq, Repr, Inhabited

namespace Resolver

/-- The name of the resolver. -/
def name : Resolver → String
  | relative => "relative"
  | external _ => "external"

/-- The resolvers in use unless others are given. -/
def defaults (whitelist : List String) : List Resolver :=
  [relative, external whitelist]

/-- The directory that relative imports of a module are joined to. -/
def baseDirectory (root : String) (importer : ModuleId) : String :=
  if importer.isExternal then root else (Path.parent? importer.path).getD root

/-- A specifier is a name or one of its subpaths. -/
def covers (name specifier : String) : Bool :=
  specifier == name || (name ++ "/").toList.isPrefixOf specifier.toList

/-- Where an import points, if the resolver knows it. -/
def resolve?
    (r : Resolver)
    (files : SourceFiles)
    (root : String)
    (importer : ModuleId)
    (specifier : String) :
    Option Resolution :=
  match r with
  | relative =>
      if Path.isRelative specifier then
        let candidate := Path.clean (Path.join (baseDirectory root importer) specifier)
        (files.lookup? candidate).map .file
      else none
  | external whitelist =>
      let known :=
        if whitelist.isEmpty then !Path.isRelative specifier
        else whitelist.any (covers · specifier)
      if known then some (.external specifier) else none

end Resolver
end EsModules
