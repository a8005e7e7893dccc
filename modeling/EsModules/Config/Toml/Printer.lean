import EsModules.Config.Value

/-!
# TOML text of settings

Strings are written in the plainest form that needs no escapes, lists of several items over several
lines, and tables behind all other settings.
-/

namespace EsModules
namespace Config
namespace Toml

/-- The greatest number of copies of a character in a row. -/
def longestRun (c : Char) : (run : Nat) → List Char → Nat
  | run, [] => run
  | run, d :: rest => if c == d then longestRun c (run + 1) rest else max run (longestRun c 0 rest)

/-- A control character that can only be written as an escape. -/
def needsCode (c : Char) : Bool :=
  (c < ' ' && c != '\t' && c != '\n') || c == '\x7f'

/-- The form of a string. -/
inductive StringForm where
  | basic
  | literal
  | multilineBasic
  | multilineLiteral
  deriving DecidableEq, Repr, Inhabited

/-- The plainest form for a text. -/
def formOf (text : List Char) : StringForm :=
  let hasCode := text.any needsCode
  let hasBackslash := text.contains '\\'
  let hasNewline := text.contains '\n'
  let doubles := longestRun '"' 0 text
  let singles := longestRun '\'' 0 text
  if !hasCode && !hasBackslash && doubles == 0 && !hasNewline then .basic
  else if !hasCode && singles == 0 && !hasNewline then .literal
  else if !hasCode && !hasBackslash && doubles ≤ 2 then .multilineBasic
  else if !hasCode && singles ≤ 2 then .multilineLiteral
  else if hasNewline then .multilineBasic
  else .basic

/-- A character by its code. -/
def codeText (c : Char) : List Char :=
  '\\' :: 'u' :: ((Nat.toDigits 16 c.toNat).leftpad 4 '0').map Char.toUpper

/-- The text of a basic string.  In a string of several lines only the third quote in a row needs
an escape, and line breaks stay as they are. -/
def basicText (multiline : Bool) : (quotes : Nat) → List Char → List Char
  | _, [] => []
  | quotes, c :: rest =>
      if c == '"' then
        if multiline && quotes < 2 then c :: basicText multiline (quotes + 1) rest
        else '\\' :: c :: basicText multiline 0 rest
      else
        let text :=
          if c == '\\' then ['\\', '\\']
          else if c == '\x08' then ['\\', 'b']
          else if c == '\t' then ['\\', 't']
          else if c == '\n' then if multiline then ['\n'] else ['\\', 'n']
          else if c == '\x0c' then ['\\', 'f']
          else if c == '\r' then ['\\', 'r']
          else if needsCode c then codeText c
          else [c]
        text ++ basicText multiline 0 rest

/-- A string. -/
def stringText (text : String) : String :=
  let cs := text.toList
  let lead := if cs.contains '\n' then ['\n'] else []
  let threeDouble := ['"', '"', '"']
  let threeSingle := ['\'', '\'', '\'']
  String.ofList <| match formOf cs with
    | .basic => '"' :: basicText false 0 cs ++ ['"']
    | .literal => '\'' :: cs ++ ['\'']
    | .multilineBasic => threeDouble ++ lead ++ basicText true 0 cs ++ threeDouble
    | .multilineLiteral => threeSingle ++ lead ++ cs ++ threeSingle

/-- A list; one with several items has a line for each of them. -/
def listText : List String → String
  | [] => "[]"
  | [item] => "[" ++ item ++ "]"
  | items => "[\n" ++ String.join (items.map fun item => "    " ++ item ++ ",\n") ++ "]"

mutual

/-- A value in one line, apart from its lists. -/
def valueText : Value → String
  | .unit => ""
  | .bool b => if b then "true" else "false"
  | .signed n => toString n
  | .unsigned n => toString n
  | .float digits => digits
  | .char c => stringText (String.singleton c)
  | .string s => stringText s
  | .list items => listText (itemTexts items)
  | .dict fields => "\x7b " ++ String.intercalate ", " (entryTexts fields) ++ " \x7d"

/-- The texts of several values. -/
def itemTexts : List Value → List String
  | [] => []
  | v :: rest => valueText v :: itemTexts rest

/-- The texts of the entries of an inline table. -/
def entryTexts : List (String × Value) → List String
  | [] => []
  | (key, v) :: rest => (key ++ " = " ++ valueText v) :: entryTexts rest

end

/-- The lines of some settings. -/
def settingLines (settings : List (String × Value)) : String :=
  String.join (settings.map fun (key, v) => key ++ " = " ++ valueText v ++ "\n")

/-- The entries of a setting that is a table. -/
def tableEntries? : Value → Option Fields
  | .dict fields => some fields
  | _ => none

/-- The text of some settings, tables last. -/
def render (settings : List (String × Value)) : String :=
  let plain := settings.filter fun (_, v) => (tableEntries? v).isNone
  let tables := settings.filterMap fun (key, v) => (tableEntries? v).map fun fields => (key, fields)
  settingLines plain
    ++ String.join (tables.map fun (key, fields) => "\n[" ++ key ++ "]\n" ++ settingLines fields)

end Toml
end Config
end EsModules
