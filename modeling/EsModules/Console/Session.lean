import EsModules.Config.Layers
import EsModules.Console.Style
import EsModules.Console.Usage
import EsModules.Disk

/-!
# Sessions

A command reads and writes files, prints, and tells the user how it goes.  What it has printed,
told and written before a failure stays.
-/

namespace EsModules
namespace Console

/-- Why a command failed. -/
inductive CommandError where
  | usage (error : UsageError)
  | config (error : ConfigError)
  /-- One of the files could not be transpiled. -/
  | module (path : String) (error : TranspileError)
  | graph (error : GraphError)
  | invalidArgument (text : String)
  | fileNotFound (path : String)
  /-- Any other failure, by its whole text. -/
  | other (text : String)
  deriving DecidableEq, Repr, Inhabited

namespace CommandError

/-- The text that tells the user what went wrong. -/
def message : CommandError → String
  | usage _ => ""
  | config error => s!"Configuration error: {error.message}"
  | module path error => s!"Failed to transpile {path}: {error.message}"
  | graph error => error.message
  | invalidArgument text => s!"Invalid argument: {text}"
  | fileNotFound path => s!"File not found: {path}"
  | other text => text

/-- The stable code of the failure, if it has one. -/
def code : CommandError → Option String
  | config error => some error.code
  | module _ error => some error.code
  | graph error => some error.code
  | _ => none

/-- Advice that goes with the failure. -/
def help : CommandError → Option String
  | config error => some error.help
  | module _ error => error.help
  | graph error => error.help
  | _ => none

/-- The failure with a hint behind its text. -/
def withHint (hint : String) (error : CommandError) : CommandError :=
  .other (error.message ++ "\n\nHint: " ++ hint)

/-- A failure of the file system at a path. -/
def ofDisk (path : String) : DiskError → CommandError
  | .notFound => .fileNotFound path
  | error => .other (path ++ ": " ++ error.message)

end CommandError

/-- What a command changes. -/
structure State where
  disk : Disk
  /-- The text of the main channel. -/
  stdout : String
  notices : List Notice
  deriving DecidableEq, Repr, Inhabited

/-- A step of a command, which can look at the environment variables. -/
abbrev Session (α : Type) : Type :=
  ReaderT (List (String × String)) (ExceptT CommandError (StateM State)) α

namespace Session

/-- Prints to the main channel. -/
def print (text : String) : Session Unit :=
  modify fun s => { s with stdout := s.stdout ++ text }

/-- Tells the user something. -/
def tell (notice : Notice) : Session Unit :=
  modify fun s => { s with notices := s.notices ++ [notice] }

/-- The result of something that may fail. -/
def orFail {ε α : Type} (wrap : ε → CommandError) : Except ε α → Session α
  | .ok a => return a
  | .error e => throw (wrap e)

/-- The text of a file. -/
def readFile (path : String) : Session String := do
  orFail (.ofDisk path) ((← get).disk.read path)

/-- Changes the disk at a path. -/
def changeDisk (path : String) (change : Disk → Except DiskError Disk) : Session Unit := do
  let disk ← orFail (.ofDisk path) (change (← get).disk)
  modify fun s => { s with disk }

/-- Writes a file. -/
def writeFile (path text : String) : Session Unit :=
  changeDisk path (Disk.write path text)

/-- Makes a directory with all directories above it. -/
def ensureDirectory (path : String) : Session Unit :=
  changeDisk path (Disk.ensureDirectory path)

/-- A path seen from a directory, without detours. -/
def resolvePath (path directory : String) : String :=
  Path.clean (Path.join directory path)

/-- The directory that a command works in. -/
def workingDirectory (cwd : Option String) : Session String := do
  return cwd.getD (← get).disk.directory

/-- Loads the configuration for a directory. -/
def loadConfig (path : Option String) (directory : String) (overrides : ConfigOverrides) :
    Session ProjectConfig := do
  let environment ← read
  let disk := (← get).disk
  let path := path.map fun p => resolvePath p directory
  orFail .config (ProjectConfig.load disk environment path directory overrides)

/-- The output file for a registration name. -/
def outputPath (outDir name : String) : String :=
  (Path.segments name).foldl Path.join outDir ++ ".js"

/-- The file for the source map of an output file. -/
def mapPath (path : String) : String :=
  path ++ ".map"

/-- The name of the last step of a path, or nothing. -/
def baseName (path : String) : String :=
  (Path.fileName? path).getD ""

/-- Writes the code of a module and its source map, and tells the size of the code. -/
def writeOutput (path : String) (output : Rendered) (mode : SourceMapMode) : Session Nat := do
  match Path.parent? path with
  | some parent => ensureDirectory parent
  | none => pure ()
  let code ← match mode with
    | .external => do
        writeFile (mapPath path) output.map.json
        pure (output.codeWithMapLink (baseName (mapPath path)))
    | .inline => pure output.inlineCode
    | .none => pure output.code
  writeFile path code
  return Text.byteLength code.toList

end Session
end Console
end EsModules
