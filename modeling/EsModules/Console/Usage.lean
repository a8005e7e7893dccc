import EsModules.Config.OutputFormat
import EsModules.Console.Name

/-!
# The options of the command line

Which options a command has, and which values an option takes.
-/

namespace EsModules
namespace Console

/-- Why a command line is not carried out. -/
inductive UsageError where
  /-- Help was asked for. -/
  | help
  /-- The version was asked for. -/
  | version
  /-- Nothing was asked for. -/
  | nothingGiven
  | missingCommand
  | unknownCommand
  | unknownArgument
  | missingArgument
  /-- A value that is missing or not one of the known ones. -/
  | invalidValue
  /-- A value that breaks the rules for it. -/
  | rejectedValue
  /-- A value for an option that takes none. -/
  | unexpectedValue
  /-- Options that exclude each other, or one that is given twice. -/
  | conflict
  deriving DecidableEq, Repr, Inhabited

/-- The options of all commands. -/
inductive OptionId where
  | help
  | version
  | verbose
  | quiet
  | noColor
  | config
  | format
  | registryName
  | moduleName
  | dirPath
  | root
  | outDir
  | sourcemap
  | cwd
  | external
  | runtime
  | sample
  deriving DecidableEq, Repr, Inhabited

/-- The values that an option takes. -/
inductive ValueKind where
  /-- No value. -/
  | flag
  /-- Any text. -/
  | text
  /-- A text that is not empty. -/
  | path
  /-- One of several words. -/
  | word (known : List String)
  | registryName
  | moduleName
  deriving DecidableEq, Repr, Inhabited

namespace ValueKind

/-- Checks a value. -/
def check (kind : ValueKind) (value : String) : Except UsageError Unit :=
  match kind with
  | flag => .ok ()
  | text => .ok ()
  | path => if value == "" then .error .invalidValue else .ok ()
  | word known => if known.contains value then .ok () else .error .invalidValue
  | registryName =>
      match checkRegistryName value with
      | .ok _ => .ok ()
      | .error _ => .error .rejectedValue
  | moduleName =>
      match checkModuleName value with
      | .ok _ => .ok ()
      | .error _ => .error .rejectedValue

end ValueKind

/-- An option of a command. -/
structure OptionSpec where
  id : OptionId
  long : String
  short : Option Char
  kind : ValueKind
  /-- The option may be given several times. -/
  many : Bool := false
  deriving DecidableEq, Repr, Inhabited

/-- What stands before, or instead of, the name of a command. -/
inductive CommandName where
  | transpile
  | build
  | check
  deriving DecidableEq, Repr, Inhabited

namespace CommandName

/-- The command with a name. -/
def parse? : String → Option CommandName
  | "transpile" => some transpile
  | "build" => some build
  | "check" => some check
  | _ => none

/-- The name under which help is asked for. -/
def helpName : String := "help"

/-- A word that names a command or asks for help. -/
def isKnown (word : String) : Bool :=
  (parse? word).isSome || word == helpName

end CommandName

/-- The options and arguments that may stand at one place of the command line. -/
structure Signature where
  options : List OptionSpec
  /-- Arguments without a name are taken. -/
  takesArguments : Bool
  /-- The name of a command is taken. -/
  takesCommand : Bool
  deriving DecidableEq, Repr, Inhabited

/-- The options that every command has. -/
def commonOptions : List OptionSpec :=
  [⟨.help, "help", some 'h', .flag, false⟩,
   ⟨.verbose, "verbose", some 'v', .flag, false⟩,
   ⟨.quiet, "quiet", some 'q', .flag, false⟩,
   ⟨.noColor, "no-color", none, .flag, false⟩,
   ⟨.config, "config", some 'c', .path, false⟩]

/-- The names of the formats for single modules. -/
def fileFormats : List String :=
  (OutputFormat.all.filter (·.graph?.isNone)).map (·.name)

/-- The names of the formats for whole graphs. -/
def graphFormats : List String :=
  (OutputFormat.all.filter (·.graph?.isSome)).map (·.name)

/-- The options for the output of a command. -/
def outputOptions (formats : List String) : List OptionSpec :=
  [⟨.format, "format", some 'f', .word formats, false⟩,
   ⟨.root, "root", none, .path, false⟩,
   ⟨.outDir, "out-dir", some 'd', .path, false⟩,
   ⟨.sourcemap, "sourcemap", none, .word (SourceMapMode.all.map (·.name)), false⟩]

/-- The directory that a command works in. -/
def cwdOption : OptionSpec :=
  ⟨.cwd, "cwd", none, .path, false⟩

namespace Signature

/-- What stands before the name of the command. -/
def front : Signature where
  options := commonOptions ++ [⟨.version, "version", some 'V', .flag, false⟩]
  takesArguments := false
  takesCommand := true

/-- What stands behind the name of the command. -/
def ofCommand : CommandName → Signature
  | .transpile =>
      { options := commonOptions ++ outputOptions fileFormats ++ [cwdOption,
          ⟨.registryName, "registry-name", none, .registryName, false⟩,
          ⟨.moduleName, "module-name", none, .moduleName, false⟩,
          ⟨.dirPath, "dir-path", none, .text, false⟩]
        takesArguments := true
        takesCommand := false }
  | .build =>
      { options := commonOptions ++ outputOptions graphFormats ++ [cwdOption,
          ⟨.external, "external", some 'e', .text, true⟩,
          ⟨.runtime, "runtime", none, .flag, false⟩]
        takesArguments := true
        takesCommand := false }
  | .check =>
      { options := commonOptions ++ [cwdOption, ⟨.sample, "example", none, .flag, false⟩]
        takesArguments := false
        takesCommand := false }

/-- The option with a long name. -/
def long? (s : Signature) (name : String) : Option OptionSpec :=
  s.options.find? (·.long == name)

/-- The option with a short name. -/
def short? (s : Signature) (name : Char) : Option OptionSpec :=
  s.options.find? (·.short == some name)

end Signature
end Console
end EsModules
