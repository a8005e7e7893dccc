import EsModules.Config.Toml.Quoted
import EsModules.Config.Toml.Scalar
import EsModules.Config.Toml.Table

/-!
# TOML documents

Reads a document into the data it stands for.
-/

namespace EsModules
namespace Config
namespace Toml

open Text

/-- Drops blanks within a line. -/
def skipBlanks : Reader Unit :=
  Reader.skipWhile fun c => c == ' ' || c == '\t'

/-- Drops a comment, if there is one. -/
def skipComment : Reader Unit := do
  if (← Reader.peek?) == some '#' then Reader.skipWhile isPlain

/-- Drops blanks, comments and line breaks. -/
def skipLines : Reader Unit :=
  Reader.loop () fun _ => do
    skipBlanks
    skipComment
    if isNewline (← get) then
      newline
      return .inl ()
    return .inr ()

/-- A character of a key without quotes. -/
def isKeyChar (c : Char) : Bool :=
  c.isAlphanum || c == '_' || c == '-'

/-- One part of a key. -/
def simpleKey : Reader String := do
  match ← Reader.peek? with
  | some c =>
      if c == '"' || c == '\'' then singleLine
      else
        let name ← Reader.takeWhile isKeyChar
        if name.isEmpty then failure
        return String.ofList name
  | none => failure

/-- A key with its dots. -/
def dottedKey : Reader (List String) :=
  Reader.loop [] fun parts => do
    skipBlanks
    let parts := (← simpleKey) :: parts
    skipBlanks
    if ← Reader.accept "." then return .inl parts
    return .inr parts.reverse

/-- The items of a list behind its bracket. -/
def listRest (value : Reader Value) : Reader Value :=
  Reader.loop [] fun items => do
    skipLines
    if ← Reader.accept "]" then return .inr (.list items.reverse)
    let items := (← value) :: items
    skipLines
    if ← Reader.accept "," then return .inl items
    Reader.expect ']'
    return .inr (.list items.reverse)

/-- A key and its value. -/
def assignment (value : Reader Value) (entries : Entries) : Reader Entries := do
  let path ← dottedKey
  Reader.expect '='
  skipBlanks
  let v ← value
  match entries.assign v path with
  | some entries => return entries
  | none => failure

/-- The entries of an inline table behind its brace. -/
def inlineTableRest (value : Reader Value) : Reader Value := do
  skipBlanks
  if ← Reader.accept "\x7d" then return .dict []
  let entries ← Reader.loop ([] : Entries) fun entries => do
    let entries ← assignment value entries
    skipBlanks
    if ← Reader.accept "," then return .inl entries
    Reader.expect '\x7d'
    return .inr entries
  return (Node.table .named entries).data

/-- A value in at most `depth` brackets and braces. -/
def value : (depth : Nat) → Reader Value
  | 0 => failure
  | depth + 1 => do
      match ← Reader.peek? with
      | some '"' => return .string (← quoted)
      | some '\'' => return .string (← quoted)
      | some '[' =>
          let _ ← Reader.next
          listRest (value depth)
      | some '\x7b' =>
          let _ ← Reader.next
          inlineTableRest (value depth)
      | _ =>
          let (text, rest) := splitScalar (← get)
          set rest
          match scalarValue? text with
          | some v => return v
          | none => failure

/-- What has been read of a document: its entries and the table that assignments go to. -/
structure Progress where
  entries : Entries
  table : List String

/-- Changes the entries of a document. -/
def Progress.update
    (p : Progress)
    (table : List String)
    (change : Option Entries) :
    Reader Progress :=
  match change with
  | some entries => return { p with entries, table }
  | none => failure

/-- A header of a table or of the next table of a list. -/
def header (p : Progress) : Reader Progress := do
  let isElement ← Reader.accept "[["
  if !isElement then Reader.expect '['
  let path ← dottedKey
  Reader.expect ']'
  if isElement then Reader.expect ']'
  let key := path.getLast?.getD ""
  let begin := if isElement then Entries.beginElement key else Entries.begin key
  p.update path (Entries.at begin path.dropLast p.entries)

/-- One line of a document without its comment. -/
def line (p : Progress) : Reader Progress := do
  match ← Reader.peek? with
  | none => return p
  | some c =>
      if c == '#' || isNewline (← get) then return p
      if c == '[' then header p
      else
        let path ← dottedKey
        Reader.expect '='
        skipBlanks
        let v ← value (← get).length
        p.update p.table (Entries.at (Entries.assign v path) p.table p.entries)

/-- A whole document. -/
def document : Reader Fields := do
  let _ ← Reader.accept "\ufeff"
  let p ← Reader.loop (Progress.mk [] []) fun p => do
    skipBlanks
    let p ← line p
    skipBlanks
    skipComment
    if ← Reader.atEnd then return .inr p
    newline
    return .inl p
  return Node.dataOfFields p.entries

/-- The data of a document. -/
def parse? (text : String) : Option Fields :=
  document.all? text

end Toml
end Config
end EsModules
