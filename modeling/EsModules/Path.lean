/-!
# Paths

Paths are texts with segments between slashes.  A leading slash makes a path absolute; empty
segments and `.` inside a path mean nothing.
-/

namespace EsModules
namespace Path

/-- One step of a path. -/
inductive Component where
  | root
  | current
  | parent
  | normal (name : String)
  deriving DecidableEq, Repr, Inhabited

/-- The pieces of a list between its separators. -/
def splitAt (separator : Char) : List Char → List (List Char)
  | [] => [[]]
  | c :: cs =>
      if c == separator then [] :: splitAt separator cs
      else
        match splitAt separator cs with
        | [] => [[c]]
        | first :: rest => (c :: first) :: rest

/-- The segments of a path between its slashes, empty ones included. -/
def segments (path : String) : List String :=
  (splitAt '/' path.toList).map String.ofList

/-- The path starts at the root. -/
def isAbsolute (path : String) : Bool :=
  path.toList.head? == some '/'

/-- The step that a segment stands for, if it is not at the front. -/
def component? (segment : String) : Option Component :=
  if segment == "" || segment == "." then none
  else if segment == ".." then some .parent
  else some (.normal segment)

/-- The steps of a path.  A dot counts only at the front of a relative path. -/
def components (path : String) : List Component :=
  let steps := (segments path).filterMap component?
  if isAbsolute path then .root :: steps
  else if (segments path).head? == some "." then .current :: steps
  else steps

/-- The text of a step. -/
def Component.text : Component → String
  | root => "/"
  | current => "."
  | parent => ".."
  | normal name => name

/-- The path that steps make up. -/
def ofComponents (steps : List Component) : String :=
  match steps with
  | .root :: rest => "/" ++ String.intercalate "/" (rest.map Component.text)
  | _ => String.intercalate "/" (steps.map Component.text)

/-- Adds a step to a normal form, innermost step first: `..` takes back a named step and means
nothing at the root. -/
def pushStep (steps : List Component) (step : Component) : List Component :=
  match step with
  | .current => steps
  | .parent =>
      match steps with
      | .normal _ :: outer => outer
      | .root :: _ => steps
      | _ => .parent :: steps
  | _ => step :: steps

/-- The normal form of a list of steps. -/
def normalize (steps : List Component) : List Component :=
  (steps.foldl pushStep []).reverse

/-- The normal form of a path, found without looking at any file. -/
def clean (path : String) : String :=
  match normalize (components path) with
  | [] => "."
  | steps => ofComponents steps

/-- A path seen from a directory. -/
def join (directory path : String) : String :=
  if isAbsolute path then path
  else if directory == "" then path
  else if directory.toList.getLast? == some '/' then directory ++ path
  else directory ++ "/" ++ path

/-- The path without its last step. -/
def parent? (path : String) : Option String :=
  match (components path).reverse with
  | [] => none
  | .root :: _ => none
  | _ :: outer => some (ofComponents outer.reverse)

/-- The name of the last step. -/
def fileName? (path : String) : Option String :=
  match (components path).getLast? with
  | some (.normal name) => some name
  | _ => none

/-- A file name cut at its last dot, unless the dot is at the front. -/
def splitExtension (name : String) : String × Option String :=
  let back := name.toList.reverse
  let extension := back.takeWhile (· != '.')
  match back.drop extension.length with
  | _ :: stem =>
      if stem.isEmpty then (name, none)
      else (String.ofList stem.reverse, some (String.ofList extension.reverse))
  | [] => (name, none)

/-- The name of the last step without its extension. -/
def fileStem? (path : String) : Option String :=
  (fileName? path).map fun name => (splitExtension name).1

/-- The extension of the last step. -/
def extension? (path : String) : Option String :=
  (fileName? path).bind fun name => (splitExtension name).2

/-- The steps of a path behind those of another one. -/
def dropComponents : List Component → List Component → Option (List Component)
  | [], rest => some rest
  | a :: front, b :: rest => if a == b then dropComponents front rest else none
  | _ :: _, [] => none

/-- The part of a path below a directory. -/
def below? (directory path : String) : Option String :=
  (dropComponents (components directory) (components path)).map ofComponents

/-- A specifier that is looked up from the module that names it. -/
def isRelative (specifier : String) : Bool :=
  specifier == "." || specifier == ".." || "./".toList.isPrefixOf specifier.toList
    || "../".toList.isPrefixOf specifier.toList

end Path
end EsModules
