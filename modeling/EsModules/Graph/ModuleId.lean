import EsModules.Path

/-!
# Module identities

A local module is known by its cleaned path, an external one by its name behind a reserved mark.
Two identities are the same if their paths have the same steps.
-/

namespace EsModules

/-- The identity of a module. -/
structure ModuleId where
  path : String
  deriving DecidableEq, Repr, Inhabited

/-- Why a path is no identity of a local module. -/
inductive ModuleIdError where
  | emptyPath
  | reservedPrefix (path : String)
  deriving DecidableEq, Repr, Inhabited

/-- The text that tells the user what went wrong. -/
def ModuleIdError.message : ModuleIdError → String
  | emptyPath => "module path cannot be empty"
  | reservedPrefix path => s!"module path '{path}' uses the reserved external prefix"

namespace ModuleId

/-- The mark in front of the name of an external module. -/
def externalMark : String := "external:"

/-- The text begins with the mark of external modules. -/
def isMarked (path : String) : Bool :=
  externalMark.toList.isPrefixOf path.toList

/-- The identity of a local module with the given path. -/
def ofPath (path : String) : Except ModuleIdError ModuleId :=
  if path == "" then .error .emptyPath
  else if isMarked path then .error (.reservedPrefix path)
  else .ok ⟨Path.clean path⟩

/-- The identity of an external module. -/
def external (name : String) : ModuleId :=
  ⟨externalMark ++ name⟩

/-- The identity is that of an external module. -/
def isExternal (id : ModuleId) : Bool :=
  isMarked id.path

/-- The name of an external module. -/
def externalName? (id : ModuleId) : Option String :=
  if id.isExternal then some (String.ofList (id.path.toList.drop externalMark.length)) else none

/-- Two identities are the same. -/
def same (a b : ModuleId) : Bool :=
  Path.components a.path == Path.components b.path

/-- An identity is among several. -/
def isAmong (id : ModuleId) (ids : List ModuleId) : Bool :=
  ids.any (same id)

/-- Each identity once, at its first place. -/
def distinct (ids : List ModuleId) : List ModuleId :=
  (ids.foldl (fun acc id => if id.isAmong acc then acc else id :: acc) []).reverse

end ModuleId
end EsModules
