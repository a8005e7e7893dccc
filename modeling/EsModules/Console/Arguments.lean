import EsModules.Console.Usage

/-!
# Reading the command line

The words are read from left to right.  An option waits for its value, and its value is checked
when the next option is read or the command line ends.
-/

namespace EsModules
namespace Console

/-- What was given at one place of the command line. -/
structure Given where
  options : List (OptionId × String)
  arguments : List String
  deriving DecidableEq, Repr, Inhabited

namespace Given

/-- An option was given. -/
def has (g : Given) (id : OptionId) : Bool :=
  g.options.any (·.1 == id)

/-- The values of an option. -/
def values (g : Given) (id : OptionId) : List String :=
  (g.options.filter (·.1 == id)).map (·.2)

/-- The value of an option. -/
def value? (g : Given) (id : OptionId) : Option String :=
  (g.values id).head?

end Given

/-- What has been read and not been checked yet. -/
inductive Pending where
  | none
  | option (spec : OptionSpec) (value : Option String)
  | arguments (values : List String)
  deriving DecidableEq, Repr, Inhabited

/-- The state of reading. -/
structure Scan where
  given : Given
  pending : Pending
  /-- Only arguments follow. -/
  onlyArguments : Bool
  deriving DecidableEq, Repr, Inhabited

namespace Scan

/-- Nothing has been read. -/
def start : Scan :=
  ⟨⟨[], []⟩, .none, false⟩

/-- The last option waits for its value. -/
def waits (s : Scan) : Bool :=
  match s.pending with
  | .option _ none => !s.onlyArguments
  | _ => false

/-- Accepts an option with its value. -/
def acceptOption (spec : OptionSpec) (value : String) (s : Scan) : Except UsageError Scan := do
  if !spec.many && s.given.has spec.id then throw .conflict
  spec.kind.check value
  return { s with given := { s.given with options := s.given.options ++ [(spec.id, value)] } }

/-- Checks what was read last. -/
def settle (s : Scan) : Except UsageError Scan :=
  let done := { s with pending := .none }
  match s.pending with
  | .none => .ok done
  | .option _ none => .error .invalidValue
  | .option spec (some value) => acceptOption spec value done
  | .arguments values => do
      values.forM ValueKind.path.check
      return { done with given := { s.given with arguments := s.given.arguments ++ values } }

/-- Reads an option without a value. -/
def flag (spec : OptionSpec) (s : Scan) : Except UsageError Scan := do
  let s ← s.settle
  match spec.id with
  | .help => throw .help
  | .version => throw .version
  | _ => acceptOption spec "" s

/-- Reads an option whose value is in the same word. -/
def attached (spec : OptionSpec) (value : String) (s : Scan) : Except UsageError Scan := do
  acceptOption spec value (← s.settle)

/-- Reads an option whose value is the next word. -/
def await (spec : OptionSpec) (s : Scan) : Except UsageError Scan := do
  return { ← s.settle with pending := .option spec none }

/-- Reads a word with two dashes in front. -/
def long (g : Signature) (word : List Char) (s : Scan) : Except UsageError Scan :=
  let name := String.ofList (word.takeWhile (· != '='))
  let value := (word.dropWhile (· != '=')).tail?.map String.ofList
  match g.long? name with
  | none => .error .unknownArgument
  | some spec =>
      match spec.kind, value with
      | .flag, none => s.flag spec
      | .flag, some _ => .error .unexpectedValue
      | _, none => s.await spec
      | _, some value => s.attached spec value

/-- Reads the short names behind one dash. -/
def shorts (g : Signature) : List Char → Scan → Except UsageError Scan
  | [], s => .ok s
  | c :: rest, s =>
      match g.short? c with
      | none => .error .unknownArgument
      | some spec =>
          match spec.kind, rest with
          | .flag, _ => do shorts g rest (← s.flag spec)
          | _, [] => s.await spec
          | _, '=' :: value => s.attached spec (String.ofList value)
          | _, value => s.attached spec (String.ofList value)

/-- Reads an argument without a name. -/
def argument (g : Signature) (word : String) (s : Scan) : Except UsageError Scan :=
  if g.takesArguments then
    match s.pending with
    | .arguments values => .ok { s with pending := .arguments (values ++ [word]) }
    | _ => do return { ← s.settle with pending := .arguments [word] }
  else if g.takesCommand && !(s.onlyArguments && CommandName.isKnown word) then
    .error .unknownCommand
  else .error .unknownArgument

/-- Reads one word that is not the name of a command. -/
def word (g : Signature) (word : String) (s : Scan) : Except UsageError Scan :=
  if s.onlyArguments then s.argument g word
  else match word.toList with
    | ['-', '-'] => .ok { s with onlyArguments := true }
    | '-' :: '-' :: name => s.long g name
    | '-' :: c :: names => s.shorts g (c :: names)
    | _ =>
        match s.pending with
        | .option spec none => .ok { s with pending := .option spec (some word) }
        | _ => s.argument g word

end Scan

/-- Reads the words of a command to the end. -/
def scanWords (g : Signature) : List String → Scan → Except UsageError Given
  | [], s => do return (← s.settle).given
  | word :: rest, s => do scanWords g rest (← s.word g word)

/-- The options that exclude each other do not stand together. -/
def checkConflicts (g : Given) : Except UsageError Unit :=
  if g.has .verbose && g.has .quiet then .error .conflict else .ok ()

/-- What a command line asks for. -/
structure Invocation where
  command : CommandName
  /-- What stands before the name of the command. -/
  front : Given
  /-- What stands behind it. -/
  behind : Given
  deriving DecidableEq, Repr, Inhabited

namespace Invocation

/-- An option that every command has was given. -/
def has (i : Invocation) (id : OptionId) : Bool :=
  i.front.has id || i.behind.has id

/-- The value of an option that every command has; the one nearer to the end counts. -/
def value? (i : Invocation) (id : OptionId) : Option String :=
  (i.behind.value? id).orElse fun _ => i.front.value? id

end Invocation

/-- Reads the words behind the name of a command. -/
def scanCommand (command : CommandName) (words : List String) : Except UsageError Given := do
  let given ← scanWords (.ofCommand command) words .start
  checkConflicts given
  if command == .transpile && given.arguments.isEmpty then throw .missingArgument
  return given

/-- The command that help is asked for. -/
def helpFor : List String → UsageError
  | [] => .help
  | [name] =>
      if CommandName.isKnown name then .help else .unknownCommand
  | _ => .unknownCommand

/-- Reads the words of a command line. -/
def scanFront : List String → Scan → Except UsageError Invocation
  | [], s => do
      let given := (← s.settle).given
      if given.options.isEmpty then throw .nothingGiven
      throw .missingCommand
  | word :: rest, s =>
      let isName := !s.onlyArguments && !s.waits
      match CommandName.parse? word with
      | some command =>
          if isName then do
            let behind ← scanCommand command rest
            let front := (← s.settle).given
            checkConflicts front
            return ⟨command, front, behind⟩
          else do scanFront rest (← s.word .front word)
      | none =>
          if isName && word == CommandName.helpName then .error (helpFor rest)
          else do scanFront rest (← s.word .front word)

/-- Reads a command line. -/
def parseArguments (words : List String) : Except UsageError Invocation :=
  scanFront words .start

end Console
end EsModules
