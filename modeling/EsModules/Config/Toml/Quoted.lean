import EsModules.Text.Reader

/-!
# Strings in TOML

Basic strings have escapes, literal strings have none, and both come in a form that spans lines.
-/

namespace EsModules
namespace Config
namespace Toml

open Text

/-- A character that may stand in a string or a comment: no control character but the tab. -/
def isPlain (c : Char) : Bool :=
  c == '\t' || (' ' ≤ c && c != '\x7f')

/-- The character for the letter of a short escape. -/
def shortEscape? : Char → Option Char
  | 'b' => some '\x08'
  | 't' => some '\t'
  | 'n' => some '\n'
  | 'f' => some '\x0c'
  | 'r' => some '\r'
  | '"' => some '"'
  | '\\' => some '\\'
  | _ => none

/-- A character with the code of some hexadecimal digits. -/
def codeEscape (digits : Nat) : Reader Char := do
  match charOfCode? (← hexNumber digits 0) with
  | some c => return c
  | none => failure

/-- An escape behind its backslash. -/
def escape : Reader Char := do
  let c ← Reader.next
  match shortEscape? c with
  | some value => return value
  | none =>
      if c == 'u' then codeEscape 4
      else if c == 'U' then codeEscape 8
      else failure

/-- A line break. -/
def newline : Reader Unit := do
  if ← Reader.accept "\n" then return ()
  if ← Reader.accept "\r\n" then return ()
  failure

/-- A line break stands in front. -/
def isNewline (here : List Char) : Bool :=
  here.head? == some '\n' || "\r\n".toList.isPrefixOf here

/-- The rest of a basic string. -/
def basicRest : Reader (List Char) :=
  Reader.loop [] fun text => do
    match ← Reader.next with
    | '"' => return .inr text.reverse
    | '\\' => return .inl ((← escape) :: text)
    | c => if isPlain c then return .inl (c :: text) else failure

/-- The rest of a literal string. -/
def literalRest : Reader (List Char) := do
  let text ← Reader.takeWhile fun c => isPlain c && c != '\''
  Reader.expect '\''
  return text

/-- The run of quotes at this place of a multi-line string.  Three of them close the string; up to
two more belong to its text. -/
def quotes (mark : Char) (text : List Char) : Reader (List Char ⊕ List Char) := do
  let run ← Reader.takeWhile (· == mark)
  if run.length < 3 then return .inl (run ++ text)
  if run.length ≤ 5 then return .inr (run.drop 3 ++ text).reverse
  failure

/-- A character or line break of a multi-line string. -/
def lineChar (text : List Char) : Reader (List Char) := do
  if isNewline (← get) then
    newline
    return '\n' :: text
  let c ← Reader.next
  if isPlain c then return c :: text
  failure

/-- Blanks behind a backslash at the end of a line, with all line breaks that follow. -/
def foldedBreak : Reader Unit := do
  Reader.skipWhile fun c => c == ' ' || c == '\t'
  newline
  Reader.loop () fun _ => do
    Reader.skipWhile fun c => c == ' ' || c == '\t'
    if isNewline (← get) then
      newline
      return .inl ()
    return .inr ()

/-- A backslash of a multi-line basic string. -/
def multilineEscape (text : List Char) : Reader (List Char) := do
  Reader.expect '\\'
  match ← Reader.peek? with
  | some c =>
      if c == ' ' || c == '\t' || c == '\n' || c == '\r' then
        foldedBreak
        return text
      return (← escape) :: text
  | none => failure

/-- The rest of a multi-line basic string. -/
def multilineBasicRest : Reader (List Char) := do
  if isNewline (← get) then newline
  Reader.loop [] fun text => do
    match ← Reader.peek? with
    | some '"' => quotes '"' text
    | some '\\' => return .inl (← multilineEscape text)
    | _ => return .inl (← lineChar text)

/-- The rest of a multi-line literal string. -/
def multilineLiteralRest : Reader (List Char) := do
  if isNewline (← get) then newline
  Reader.loop [] fun text => do
    match ← Reader.peek? with
    | some '\'' => quotes '\'' text
    | _ => return .inl (← lineChar text)

/-- A string of one line. -/
def singleLine : Reader String := do
  match ← Reader.next with
  | '"' => return String.ofList (← basicRest)
  | '\'' => return String.ofList (← literalRest)
  | _ => failure

/-- A string of any form. -/
def quoted : Reader String := do
  if ← Reader.accept "\"\"\"" then return String.ofList (← multilineBasicRest)
  if ← Reader.accept "'''" then return String.ofList (← multilineLiteralRest)
  singleLine

end Toml
end Config
end EsModules
