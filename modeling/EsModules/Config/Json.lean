import EsModules.Config.Value
import EsModules.Text.Decimal
import EsModules.Text.Reader

/-!
# JSON documents

Reads a JSON object into the data it stands for.  Of two members with one name the later counts.
-/

namespace EsModules
namespace Config
namespace Json

open Text

/-- Drops blanks and line breaks. -/
def skipSpace : Reader Unit :=
  Reader.skipWhile fun c => c == ' ' || c == '\t' || c == '\n' || c == '\r'

/-- The character for the letter of a short escape. -/
def shortEscape? : Char → Option Char
  | 'b' => some '\x08'
  | 't' => some '\t'
  | 'n' => some '\n'
  | 'f' => some '\x0c'
  | 'r' => some '\r'
  | '"' => some '"'
  | '\\' => some '\\'
  | '/' => some '/'
  | _ => none

/-- A character by its code.  Codes beyond the first plane are written as a pair. -/
def codeEscape : Reader Char := do
  let first ← hexNumber 4 0
  let code ←
    if 0xD800 ≤ first && first < 0xDC00 then do
      Reader.expect '\\'
      Reader.expect 'u'
      let second ← hexNumber 4 0
      if 0xDC00 ≤ second && second < 0xE000 then
        pure (0x10000 + (first - 0xD800) * 0x400 + (second - 0xDC00))
      else failure
    else pure first
  match charOfCode? code with
  | some c => return c
  | none => failure

/-- An escape behind its backslash. -/
def escape : Reader Char := do
  let c ← Reader.next
  match shortEscape? c with
  | some value => return value
  | none => if c == 'u' then codeEscape else failure

/-- The rest of a string. -/
def stringRest : Reader String :=
  Reader.loop [] fun text => do
    match ← Reader.next with
    | '"' => return .inr (String.ofList text.reverse)
    | '\\' => return .inl ((← escape) :: text)
    | c => if c < ' ' then failure else return .inl (c :: text)

/-- At least one digit. -/
def digits : Reader (List Char) := do
  let ds ← Reader.takeWhile Char.isDigit
  if ds.isEmpty then failure
  return ds

/-- The digits behind a point. -/
def fraction : Reader (Option (List Char)) := do
  if ← Reader.accept "." then return some (← digits)
  return none

/-- The exponent of a number. -/
def exponent : Reader (Option Int) := do
  match ← Reader.peek? with
  | some c =>
      if c == 'e' || c == 'E' then
        let _ ← Reader.next
        let negative ← Reader.accept "-"
        if !negative then
          let _ ← Reader.accept "+"
        let n : Int := (String.ofList (← digits)).toNat?.getD 0
        return some (if negative then -n else n)
      return none
  | none => return none

/-- The value of an integer literal, which is a float when it does not fit into 64 bits. -/
def integerValue (negative : Bool) (whole : List Char) : Value :=
  let n := (String.ofList whole).toNat?.getD 0
  if negative then
    if n == 0 || signedLimit < n then .float (plainDecimal true whole [] 0)
    else .signed (-(n : Int))
  else if n < unsignedLimit then .unsigned n
  else .float (plainDecimal false whole [] 0)

/-- A number. -/
def number : Reader Value := do
  let negative ← Reader.accept "-"
  let whole ← digits
  if whole.head? == some '0' && 1 < whole.length then failure
  let fraction ← fraction
  let exponent ← exponent
  if fraction.isNone && exponent.isNone then return integerValue negative whole
  return .float (plainDecimal negative whole (fraction.getD []) (exponent.getD 0))

/-- Items behind an opening mark, separated by commas. -/
def itemsRest {α : Type} (item : Reader α) (close : Char) : Reader (List α) := do
  skipSpace
  if (← Reader.peek?) == some close then
    let _ ← Reader.next
    return []
  Reader.loop [] fun items => do
    let items := (← item) :: items
    skipSpace
    if ← Reader.accept "," then return .inl items
    Reader.expect close
    return .inr items.reverse

/-- A member of an object. -/
def pair (value : Reader Value) : Reader (String × Value) := do
  skipSpace
  Reader.expect '"'
  let key ← stringRest
  skipSpace
  Reader.expect ':'
  return (key, ← value)

/-- The members of an object. -/
def object (value : Reader Value) : Reader Fields := do
  Reader.expect '\x7b'
  return Fields.ofList (← itemsRest (pair value) '\x7d')

/-- A value in at most `depth` brackets and braces. -/
def value : (depth : Nat) → Reader Value
  | 0 => failure
  | depth + 1 => do
      skipSpace
      match ← Reader.peek? with
      | some '"' =>
          let _ ← Reader.next
          return .string (← stringRest)
      | some '[' =>
          let _ ← Reader.next
          return .list (← itemsRest (value depth) ']')
      | some '\x7b' => return .dict (← object (value depth))
      | some 't' => if ← Reader.accept "true" then return .bool true else failure
      | some 'f' => if ← Reader.accept "false" then return .bool false else failure
      | some 'n' => if ← Reader.accept "null" then return .unit else failure
      | _ => number

/-- The greatest number of brackets and braces around a value. -/
def depthLimit : Nat := 127

/-- A whole document, which is an object. -/
def document : Reader Fields := do
  skipSpace
  let fields ← object (value depthLimit)
  skipSpace
  return fields

/-- The data of a document. -/
def parse? (text : String) : Option Fields :=
  document.all? text

end Json
end Config
end EsModules
