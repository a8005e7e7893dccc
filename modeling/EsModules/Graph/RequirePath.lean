import EsModules.Path

/-!
# Paths between output files
-/

namespace EsModules

/-- The directory part of a registration name, if it has one. -/
def nameDirectory? (name : String) : Option String :=
  match (Path.segments name).dropLast with
  | [] => none
  | segments => some (String.intercalate "/" segments)

/-- The number of segments that two lists begin with. -/
def commonLength : List String → List String → Nat
  | a :: as, b :: bs => if a == b then commonLength as bs + 1 else 0
  | _, _ => 0

/-- The path that leads from the output file of one registration name to that of another. -/
def relativeRequire (source target : String) : String :=
  let directory := (Path.segments source).dropLast
  let segments := Path.segments target
  let common := min (commonLength directory segments) (segments.length - 1)
  let up := List.replicate (directory.length - common) ".."
  let path := String.intercalate "/" (up ++ segments.drop common)
  if "..".toList.isPrefixOf path.toList then path else "./" ++ path

end EsModules
