import EsModules.Console.Run

/-!
# The program

Reads the files that a command may use, runs it, and carries out what it has printed and written.
-/

namespace EsModules
namespace Main

open Console

/-- The variables that a command looks at. -/
def variableNames : List String :=
  ["NO_COLOR", "FORCE_COLOR"]
    ++ ["FORMAT", "REGISTRY_NAME", "MODULE_NAME", "DIR_PATH", "ROOT", "ENTRIES", "EXTERNAL",
        "OUT_DIR", "SOURCEMAP", "INDENT", "QUOTE", "RUNTIME"].map
          (Config.Environment.variableStart ++ ·)

/-- The variables that are set. -/
def readVariables : IO (List (String × String)) :=
  variableNames.filterMapM fun name => do
    return (← IO.getEnv name).map fun text => (name, text)

/-- An answer of the system, if it gives one. -/
def attempt {α : Type} (action : IO α) : IO (Option α) := do
  try
    return some (← action)
  catch _ =>
    return none

/-- All files and directories below a directory.  Links to directories are not followed. -/
partial def readTree (directory : String) : IO (List (String × DiskEntry)) := do
  let here := (← IO.currentDir) / directory
  let mut contents := [(directory, DiskEntry.directory)]
  for entry in (← attempt here.readDir).getD #[] do
    let path := Path.join directory entry.fileName
    let kind := (← attempt entry.path.symlinkMetadata).map (·.type)
    if kind == some .dir then
      contents := contents ++ (← readTree path)
    else
      let bytes ← attempt (IO.FS.readBinFile entry.path)
      contents := contents ++ [(path, .file (bytes.bind String.fromUTF8?))]
  return contents

/-- The directories outside the working directory that the words of a command line lead to. -/
def outerDirectories (directory : String) (words : List String) : IO (List String) :=
  words.filterMapM fun word => do
    let path := Path.clean (Path.join directory word)
    if (Path.below? directory path).isSome || word.startsWith "-" then return none
    let place := (← IO.currentDir) / path
    if ← place.isDir then return some path
    if ← place.pathExists then return Path.parent? path
    return none

/-- Writes the files that a command has changed. -/
def writeChanges (before after : Disk) : IO Unit :=
  (before.changedFiles after).forM fun (path, text) => do
    match Path.parent? path with
    | some parent => IO.FS.createDirAll parent
    | none => pure ()
    IO.FS.writeFile path text

/-- What to do for a command line that cannot be carried out. -/
def usageText : UsageError → String
  | .version => "modshift 0.4.1\n"
  | .help => "Usage: modshift [OPTIONS] <transpile|build|check>\n"
  | _ => "error: invalid command line\n\nUsage: modshift [OPTIONS] <transpile|build|check>\n"

/-- The lines that report a failure. -/
def errorText (e : CommandError) : String :=
  let code := (e.code.map (· ++ "\n")).getD ""
  let help := (e.help.map fun h => s!"  help: {h}\n").getD ""
  s!"{code}  × {e.message}\n{help}"

end Main
end EsModules

section

open EsModules EsModules.Console EsModules.Main

/-- Runs a command line. -/
def main (words : List String) : IO UInt32 := do
  let start ← IO.monoMsNow
  let directory := toString (← IO.currentDir)
  let outer ← outerDirectories directory words
  let contents ← (directory :: outer).mapM readTree
  let disk := Disk.ofContents directory contents.flatten
  let stderr ← IO.getStderr
  let outcome := run disk (← readVariables) (← stderr.isTty) words
  writeChanges disk outcome.state.disk
  IO.print outcome.state.stdout
  stderr.putStr (outcome.stderr ((← IO.monoMsNow) - start))
  match outcome.result with
  | .ok _ => return 0
  | .error (.usage e) =>
      if e == .help || e == .version then
        IO.print (usageText e)
        return 0
      stderr.putStr (usageText e)
      return 2
  | .error e =>
      stderr.putStr (errorText e)
      return 1

end
