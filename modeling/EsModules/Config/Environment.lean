import EsModules.Config.Toml.Quoted
import EsModules.Config.Value
import EsModules.Path
import EsModules.Text.Blank
import EsModules.Text.Decimal

/-!
# Settings from the environment

A variable with the common beginning sets one field.  Its text is a boolean, a number, a character
or string in quotes, a list, a dictionary, or else the string itself.
-/

namespace EsModules
namespace Config
namespace Environment

open Text

/-- The beginning of the variables that hold settings. -/
def variableStart : String := "MODSHIFT_"

/-- The field that a variable sets: `OUT_DIR` stands for `outDir`. -/
def fieldName : (upper : Bool) → List Char → List Char
  | _, [] => []
  | upper, c :: rest =>
      if c == '_' then fieldName true rest
      else (if upper then c.toUpper else c.toLower) :: fieldName false rest

/-- The name of a variable behind the common beginning, of which the case does not count. -/
def variableField? (name : String) : Option String :=
  let start := name.toList.take variableStart.length
  if start.map Char.toUpper == variableStart.toList then
    some (String.ofList (fieldName false (name.toList.drop variableStart.length)))
  else none

/-- A blank of the value format. -/
def isSpace (c : Char) : Bool :=
  c == ' ' || c == '\t' || c == '\n' || c == '\r' || c == '\x0c'

/-- A character that ends a value without quotes. -/
def isSeparator (c : Char) : Bool :=
  c == ',' || c == '[' || c == ']' || c == '\x7b' || c == '\x7d'

/-- Decimal digits, of which there is at least one. -/
def isDigits (text : List Char) : Bool :=
  !text.isEmpty && text.all Char.isDigit

/-- A number with a point in it. -/
def float? (text : List Char) : Option Value := do
  let (negative, body) := match text with
    | '-' :: rest => (true, rest)
    | '+' :: rest => (false, rest)
    | _ => (false, text)
  let (mantissa, tail) := body.span fun c => c != 'e' && c != 'E'
  let (whole, behind) := mantissa.span (· != '.')
  let fraction := behind.drop 1
  if !isDigits (whole ++ fraction) then none
  let exponent ← match tail with
    | [] => some 0
    | _ :: '-' :: digits =>
        if isDigits digits then some (-((String.ofList digits).toNat?.getD 0 : Int)) else none
    | _ :: '+' :: digits =>
        if isDigits digits then some ((String.ofList digits).toNat?.getD 0 : Int) else none
    | _ :: digits =>
        if isDigits digits then some ((String.ofList digits).toNat?.getD 0 : Int) else none
  return .float (plainDecimal negative whole fraction exponent)

/-- An integer of 64 bits; only a negative one counts as signed. -/
def integer? : List Char → Option Value
  | '-' :: digits => do
      if !isDigits digits then none
      let n := (String.ofList digits).toNat?.getD 0
      if signedLimit < n then none
      return .signed (-(n : Int))
  | text => do
      let digits := if text.head? == some '+' then text.drop 1 else text
      if !isDigits digits then none
      let n := (String.ofList digits).toNat?.getD 0
      if unsignedLimit ≤ n then none
      return .unsigned n

/-- A value without quotes. -/
def bareValue (text : List Char) : Value :=
  let text := dropEndWhile isBlank (text.dropWhile isBlank)
  let number :=
    (if text.contains '.' then float? text else none).orElse fun _ => integer? text
  number.getD (.string (String.ofList text))

/-- A string in quotes. -/
def quoted : Reader String := do
  Reader.expect '"'
  return String.ofList (← Reader.loop [] fun text => do
    match ← Reader.next with
    | '"' => return .inr text.reverse
    | '\\' => return .inl ((← Toml.escape) :: text)
    | c => return .inl (c :: text))

/-- A character in quotes. -/
def quotedChar : Reader Char := do
  Reader.expect '\''
  let c ← Reader.next
  Reader.expect '\''
  return c

/-- Items between an opening and a closing mark.  A comma may stand before the closing mark. -/
def items {α : Type} (left : Char) (item : Reader α) (right : Char) : Reader (List α) := do
  Reader.expect left
  Reader.loop [] fun items => do
    if (← Reader.peek?) == some right then
      let _ ← Reader.next
      return .inr items.reverse
    let items := (← item) :: items
    if ← Reader.accept "," then return .inl items
    Reader.expect right
    return .inr items.reverse

/-- The key of a dictionary. -/
def key : Reader String := do
  Reader.skipWhile isSpace
  let name ←
    if (← Reader.peek?) == some '"' then quoted
    else do
      let name ← Reader.takeWhile fun c => c.isAlphanum || c == '_' || c == '-'
      if name.isEmpty then failure
      pure (String.ofList name)
  Reader.skipWhile isSpace
  return name

/-- An entry of a dictionary. -/
def entry (value : Reader Value) : Reader (String × Value) := do
  let name ← key
  Reader.expect '='
  return (name, ← value)

/-- A value in at most `depth` brackets and braces. -/
def value : (depth : Nat) → Reader Value
  | 0 => failure
  | depth + 1 => do
      Reader.skipWhile isSpace
      let v ← do
        if ← Reader.accept "true" then pure (.bool true)
        else if ← Reader.accept "false" then pure (.bool false)
        else match ← Reader.peek? with
          | some '\x7b' =>
              pure (.dict (Fields.ofList (← items '\x7b' (entry (value depth)) '\x7d')))
          | some '[' => pure (.list (← items '[' (value depth) ']'))
          | some '"' => pure (.string (← quoted))
          | some '\'' => pure (.char (← quotedChar))
          | _ => pure (bareValue (← Reader.takeWhile (!isSeparator ·)))
      Reader.skipWhile isSpace
      return v

/-- The value that the text of a variable stands for. -/
def parseValue (text : String) : Value :=
  ((value (text.length + 1)).all? text).getD (.string text)

/-- The parts of a field name with dots in it. -/
def fieldPath (name : String) : List String :=
  (Path.splitAt '.' name.toList).map String.ofList

/-- A value inside the dictionaries that a path of keys names. -/
def nest : List String → Value → Value
  | [], v => v
  | key :: rest, v => .dict [(key, nest rest v)]

/-- The settings of one variable. -/
def variableSettings (name text : String) : Fields :=
  match variableField? name with
  | none => []
  | some field =>
      let path := fieldPath field
      if path.contains "" then []
      else match nest path (parseValue text) with
        | .dict fields => fields
        | _ => []

/-- The settings of all variables, the later ones over the earlier ones. -/
def settings (environment : List (String × String)) : Fields :=
  environment.foldl (fun fields (name, text) => Fields.over (variableSettings name text) fields) []

end Environment
end Config
end EsModules
