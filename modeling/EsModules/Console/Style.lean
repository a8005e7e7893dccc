import EsModules.Console.Measure
import EsModules.Text.Position

/-!
# Notices and summaries
-/

namespace EsModules
namespace Console

/-- How a text stands out on a terminal. -/
inductive Emphasis where
  | bold
  | dimmed
  | cyan
  | green
  | blue
  | yellow
  deriving DecidableEq, Repr, Inhabited

/-- The codes around a text. -/
def Emphasis.codes : Emphasis → String × String
  | bold => ("1", "0")
  | dimmed => ("2", "0")
  | cyan => ("36", "39")
  | green => ("32", "39")
  | blue => ("34", "39")
  | yellow => ("33", "39")

/-- A text that stands out if colours are on. -/
def emphasize (colors : Bool) (e : Emphasis) (text : String) : String :=
  if colors then "\x1b[" ++ e.codes.1 ++ "m" ++ text ++ "\x1b[" ++ e.codes.2 ++ "m" else text

/-- Colours are used on a terminal or if they are asked for in the environment, unless they are
turned off there or on the command line. -/
def usesColors (environment : List (String × String)) (onTerminal noColor : Bool) : Bool :=
  let isSet (name : String) := environment.any (·.1 == name)
  !noColor && !isSet "NO_COLOR" && (isSet "FORCE_COLOR" || onTerminal)

/-- The sign in front of a status line. -/
def sign (colors : Bool) (color : Emphasis) (text : String) : String :=
  emphasize colors .bold (emphasize colors color text)

/-- A file that has been written. -/
structure OutputSummary where
  name : String
  path : String
  bytes : Nat
  deriving DecidableEq, Repr, Inhabited

/-- The number of columns of a summary. -/
def summaryWidth : Nat := 80

/-- A text filled up with blanks. -/
def padTo (width : Nat) (text : String) : String :=
  text ++ String.ofList (List.replicate (width - text.length) ' ')

/-- The line of one file. -/
def summaryLine (colors : Bool) (width : Nat) (o : OutputSummary) : String :=
  "  " ++ emphasize colors .cyan (padTo width o.name)
    ++ "  " ++ emphasize colors .dimmed (formatSize o.bytes)
    ++ "  " ++ emphasize colors .dimmed o.path ++ "\n"

/-- The files that have been written, and their number and size. -/
def summary (colors : Bool) (outputs : List OutputSummary) (milliseconds : Nat) : String :=
  let width := outputs.foldl (fun width o => max width (Text.byteLength o.name.toList)) 0
  let total := outputs.foldl (fun total o => total + o.bytes) 0
  let line :=
    s!"{outputs.length} modules, {formatSize total} in {formatDuration milliseconds}"
  "\n" ++ String.join (outputs.map (summaryLine colors width))
    ++ String.ofList (List.replicate summaryWidth '─') ++ "\n"
    ++ "  " ++ emphasize colors .bold line ++ "\n"

/-- Something that a command tells the user. -/
inductive Notice where
  /-- Something has been done. -/
  | success (message : String)
  /-- Something to know. -/
  | info (message : String)
  /-- Something to mind. -/
  | warning (message : String)
  /-- The files that have been written. -/
  | written (outputs : List OutputSummary)
  deriving DecidableEq, Repr, Inhabited

/-- The lines of a notice, where the command has taken some milliseconds. -/
def Notice.render (colors : Bool) (milliseconds : Nat) : Notice → String
  | success message => sign colors .green "✓" ++ " " ++ message ++ "\n"
  | info message => sign colors .blue "ℹ" ++ " " ++ message ++ "\n"
  | warning message => sign colors .yellow "⚠" ++ " " ++ emphasize colors .yellow message ++ "\n"
  | written outputs => summary colors outputs milliseconds

end Console
end EsModules
