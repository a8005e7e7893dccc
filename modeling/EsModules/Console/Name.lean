import EsModules.Path
import EsModules.Text.Blank

/-!
# Names on the command line

A registration name is a path of the registry; the name of an AMD module is a single word.
-/

namespace EsModules
namespace Console

/-- Why a name cannot be used. -/
inductive NameError where
  | emptyRegistryName
  | absoluteRegistryName (name : String)
  | badSegment (name : String)
  | emptyModuleName
  | blankInModuleName (name : String)
  deriving DecidableEq, Repr, Inhabited

/-- The text that tells the user what is wrong. -/
def NameError.message : NameError → String
  | emptyRegistryName => "Registration name cannot be empty"
  | absoluteRegistryName name =>
      s!"Registration names use '/' separators and are never absolute: '{name}'"
  | badSegment name => s!"Registration name has an empty, '.' or '..' segment: '{name}'"
  | emptyModuleName => "Module name cannot be empty"
  | blankInModuleName name => s!"Module name cannot contain whitespace: '{name}'"

/-- A segment that names no place of its own. -/
def isBadSegment (segment : String) : Bool :=
  segment == "" || segment == "." || segment == ".."

/-- A registration name such as `app/even`. -/
def checkRegistryName (name : String) : Except NameError String :=
  if Text.isBlankText name then .error .emptyRegistryName
  else if Path.isAbsolute name || name.toList.contains '\\' then
    .error (.absoluteRegistryName name)
  else if (Path.segments name).any isBadSegment then .error (.badSegment name)
  else .ok name

/-- The name of an AMD module. -/
def checkModuleName (name : String) : Except NameError String :=
  if Text.isBlankText name then .error .emptyModuleName
  else if name.toList.any Text.isBlank then .error (.blankInModuleName name)
  else .ok name

end Console
end EsModules
