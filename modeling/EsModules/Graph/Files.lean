import EsModules.Path

/-!
# Source files

The files that a module graph can be loaded from, found by their cleaned paths.
-/

namespace EsModules

/-- A file; without a text it cannot be read. -/
structure SourceFile where
  path : String
  text : Option String
  deriving DecidableEq, Repr, Inhabited

/-- A finite set of files. -/
structure SourceFiles where
  /-- The directory that relative paths start from, if there is one. -/
  base : String
  files : List SourceFile
  deriving DecidableEq, Repr, Inhabited

namespace SourceFiles

/-- Files with their texts; of two with the same cleaned path the later one counts. -/
def ofTexts (texts : List (String × String)) : SourceFiles :=
  ⟨"", texts.reverse.map fun (path, text) => ⟨Path.clean path, some text⟩⟩

/-- The file at a path. -/
def get? (s : SourceFiles) (path : String) : Option SourceFile :=
  s.files.find? (·.path == Path.clean (Path.join s.base path))

/-- There is a file at a path. -/
def isFile (s : SourceFiles) (path : String) : Bool :=
  (s.get? path).isSome

/-- The text of the file at a path. -/
def read? (s : SourceFiles) (path : String) : Option String :=
  (s.get? path).bind (·.text)

/-- The extensions that an import may leave out. -/
def extensions : List String :=
  ["js", "mjs"]

/-- The path as it is, or with an extension behind it. -/
def withExtension? (s : SourceFiles) (path : String) : Option String :=
  if s.isFile path then some path
  else (extensions.map fun e => s!"{path}.{e}").find? s.isFile

/-- The index file of a directory. -/
def indexFile? (s : SourceFiles) (path : String) : Option String :=
  (extensions.map fun e => Path.join path s!"index.{e}").find? s.isFile

/-- The file that a path without extension, or of a directory, stands for. -/
def lookup? (s : SourceFiles) (path : String) : Option String :=
  (s.withExtension? path).orElse fun _ => s.indexFile? path

end SourceFiles
end EsModules
