import EsModules.Console.Check
import EsModules.Console.Transpile

/-!
# Running a command line
-/

namespace EsModules
namespace Console

/-- What is left of a command. -/
structure Outcome where
  result : Except CommandError Unit
  state : State
  colors : Bool

/-- The text of the channel for notices, where the command has taken some milliseconds. -/
def Outcome.stderr (o : Outcome) (milliseconds : Nat) : String :=
  String.join (o.state.notices.map (Notice.render o.colors milliseconds))

/-- Runs a command. -/
def Invocation.run (i : Invocation) : Session Unit :=
  let configPath := i.value? .config
  match i.command with
  | .transpile => transpileCommand configPath i.behind
  | .build => buildCommand configPath i.behind
  | .check => checkCommand configPath i.behind

/-- Runs a command line on a disk. -/
def run
    (disk : Disk)
    (environment : List (String × String))
    (onTerminal : Bool)
    (words : List String) :
    Outcome :=
  let start : State := ⟨disk, "", []⟩
  match parseArguments words with
  | .error e => ⟨.error (.usage e), start, false⟩
  | .ok invocation =>
      let (result, state) := (invocation.run.run environment).run.run start
      ⟨result, state, usesColors environment onTerminal (invocation.has .noColor)⟩

end Console
end EsModules
