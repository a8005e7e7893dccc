import EsModules.Graph.Files

/-!
# The file system

The files and directories that a command sees, as plain data.  A path is followed step by step:
what it leads through has to be a directory, and `..` goes back to the directory above.
-/

namespace EsModules

/-- What a path leads to. -/
inductive DiskEntry where
  | directory
  /-- A file; without a text its bytes are not UTF-8. -/
  | file (text : Option String)
  deriving DecidableEq, Repr, Inhabited

/-- Why a file cannot be used. -/
inductive DiskError where
  | notFound
  | alreadyExists
  | notDirectory
  | isDirectory
  | notText
  deriving DecidableEq, Repr, Inhabited

/-- The text that tells the user what went wrong. -/
def DiskError.message : DiskError → String
  | notFound => "No such file or directory (os error 2)"
  | alreadyExists => "File exists (os error 17)"
  | notDirectory => "Not a directory (os error 20)"
  | isDirectory => "Is a directory (os error 21)"
  | notText => "stream did not contain valid UTF-8"

/-- The files and directories. -/
structure Disk where
  /-- The directory that relative paths start from. -/
  directory : String
  /-- All files and directories by their absolute paths. -/
  entries : List (String × DiskEntry)
  deriving DecidableEq, Repr, Inhabited

namespace Disk

/-- The entry at an absolute path without detours. -/
def entryAt? (disk : Disk) (path : String) : Option DiskEntry :=
  if path == "/" then some .directory
  else (disk.entries.find? (·.1 == path)).map (·.2)

/-- Puts an entry at an absolute path without detours. -/
def put (path : String) (entry : DiskEntry) (disk : Disk) : Disk :=
  if disk.entries.any (·.1 == path) then
    { disk with entries := disk.entries.map fun e => if e.1 == path then (path, entry) else e }
  else { disk with entries := disk.entries ++ [(path, entry)] }

/-- The place that a step leads to from a directory. -/
def follow (place : String) : Path.Component → String
  | .root => "/"
  | .current => place
  | .parent => (Path.parent? place).getD "/"
  | .normal name => Path.join place name

/-- Follows the steps of a path.  The last one may lead to a place without an entry. -/
def walk (disk : Disk) : (place : String) → List Path.Component → Except DiskError String
  | place, [] => .ok place
  | place, step :: rest =>
      match disk.entryAt? place with
      | some .directory => walk disk (follow place step) rest
      | some (.file _) => .error .notDirectory
      | none => .error .notFound

/-- The place that a path leads to. -/
def locate (disk : Disk) (path : String) : Except DiskError String :=
  if path == "" then .error .notFound
  else disk.walk "/" (Path.components (Path.join disk.directory path))

/-- The entry that a path leads to. -/
def entry? (disk : Disk) (path : String) : Option DiskEntry :=
  match disk.locate path with
  | .ok place => disk.entryAt? place
  | .error _ => none

/-- A path leads to a file. -/
def isFile (disk : Disk) (path : String) : Bool :=
  match disk.entry? path with
  | some (.file _) => true
  | _ => false

/-- A path leads to a directory. -/
def isDirectory (disk : Disk) (path : String) : Bool :=
  disk.entry? path == some .directory

/-- The text of a file. -/
def read (disk : Disk) (path : String) : Except DiskError String := do
  match disk.entryAt? (← disk.locate path) with
  | some (.file (some text)) => .ok text
  | some (.file none) => .error .notText
  | some .directory => .error .isDirectory
  | none => .error .notFound

/-- Writes a file, whose directory has to exist. -/
def write (path text : String) (disk : Disk) : Except DiskError Disk := do
  let place ← disk.locate path
  if disk.entryAt? place == some .directory then .error .isDirectory
  return disk.put place (.file (some text))

/-- Makes a directory below one that exists. -/
def makeDirectory (path : String) (disk : Disk) : Except DiskError Disk := do
  let place ← disk.locate path
  if (disk.entryAt? place).isSome then .error .alreadyExists
  return disk.put place .directory

/-- Makes a directory, and those above it that are missing.  At most `depth` of them are made. -/
def makeDirectories : (depth : Nat) → (path : String) → Disk → Except DiskError Disk
  | 0, _, disk => .ok disk
  | depth + 1, path, disk =>
      match makeDirectory path disk with
      | .ok made => .ok made
      | .error .notFound => do
          let above ← match Path.parent? path with
            | some parent => if parent == "" then .ok disk else makeDirectories depth parent disk
            | none => .error .notFound
          match makeDirectory path above with
          | .ok made => .ok made
          | .error e => if above.isDirectory path then .ok above else .error e
      | .error e => if disk.isDirectory path then .ok disk else .error e

/-- Makes a directory with all directories above it. -/
def ensureDirectory (path : String) (disk : Disk) : Except DiskError Disk :=
  makeDirectories ((Path.components path).length + 1) path disk

/-- Adds an entry and the directories above it. -/
def add (path : String) (entry : DiskEntry) (disk : Disk) : Disk :=
  let place := Path.clean (Path.join disk.directory path)
  let disk := match (Path.parent? place).map fun above => ensureDirectory above disk with
    | some (.ok made) => made
    | _ => disk
  disk.put place entry

/-- A disk with one directory, in which commands run, and its contents. -/
def ofContents (directory : String) (contents : List (String × DiskEntry)) : Disk :=
  contents.foldl (fun disk (path, entry) => disk.add path entry)
    ((⟨directory, []⟩ : Disk).add directory .directory)

/-- All files as sources of modules. -/
def sources (disk : Disk) : SourceFiles where
  base := disk.directory
  files := disk.entries.filterMap fun (path, entry) =>
    match entry with
    | .file text => some ⟨path, text⟩
    | .directory => none

/-- The files that differ from those of an earlier state, by their absolute paths. -/
def changedFiles (before after : Disk) : List (String × String) :=
  after.entries.filterMap fun (path, entry) =>
    match entry with
    | .file (some text) => if before.entryAt? path == some entry then none else some (path, text)
    | _ => none

/-- The files below the working directory that differ from those of an earlier state, by their
paths from there and in the order of these. -/
def changes (before after : Disk) : List (String × String) :=
  let below := (changedFiles before after).filterMap fun (path, text) =>
    (Path.below? after.directory path).map fun path => (path, text)
  below.mergeSort fun a b => decide (a.1 ≤ b.1)

end Disk
end EsModules
