import EsModules.Config.Value
import EsModules.Text.Decimal

/-!
# Booleans, numbers and dates in TOML

A scalar that is not a string is a run of letters, digits and signs, read as a whole.
-/

namespace EsModules
namespace Config
namespace Toml

/-- The digits of a number in which single underscores may stand between digits. -/
def digitsOf? (isDigit : Char → Bool) : List Char → Option (List Char)
  | [] => none
  | [c] => if isDigit c then some [c] else none
  | c :: '_' :: rest => if isDigit c then (digitsOf? isDigit rest).map (c :: ·) else none
  | c :: rest => if isDigit c then (digitsOf? isDigit rest).map (c :: ·) else none

/-- The number that digits stand for. -/
def valueOf (base : Nat) (digits : List Char) : Nat :=
  digits.foldl (fun n c =>
    let digit := if c.isDigit then c.toNat - '0'.toNat else c.toLower.toNat - 'a'.toNat + 10
    n * base + digit) 0

/-- A sign in front of a number, and the rest. -/
def splitSign : List Char → Bool × List Char
  | '-' :: rest => (true, rest)
  | '+' :: rest => (false, rest)
  | text => (false, text)

/-- An integer that fits into 64 bits with sign. -/
def bounded? (n : Int) : Option Value :=
  if -(signedLimit : Int) ≤ n && n < (signedLimit : Int) then some (.signed n) else none

/-- Decimal digits without a needless zero in front. -/
def wholeDigits? (text : List Char) : Option (List Char) := do
  let digits ← digitsOf? Char.isDigit text
  if digits.head? == some '0' && 1 < digits.length then none
  return digits

/-- A hexadecimal digit. -/
def isHexDigit (c : Char) : Bool :=
  c.isDigit || ('a' ≤ c.toLower && c.toLower ≤ 'f')

/-- An integer. -/
def integer? : List Char → Option Value
  | '0' :: 'x' :: rest => do
      bounded? (valueOf 16 (← digitsOf? isHexDigit rest))
  | '0' :: 'o' :: rest => do
      bounded? (valueOf 8 (← digitsOf? (fun c => '0' ≤ c && c ≤ '7') rest))
  | '0' :: 'b' :: rest => do
      bounded? (valueOf 2 (← digitsOf? (fun c => c == '0' || c == '1') rest))
  | text => do
      let (negative, body) := splitSign text
      let n : Int := valueOf 10 (← wholeDigits? body)
      bounded? (if negative then -n else n)

/-- The exponent of a number. -/
def exponent? (text : List Char) : Option Int := do
  let (negative, body) := splitSign text
  let n : Int := valueOf 10 (← digitsOf? Char.isDigit body)
  return if negative then -n else n

/-- A number with a fraction or an exponent. -/
def float? (text : List Char) : Option Value := do
  let (negative, body) := splitSign text
  if body == "inf".toList then
    return .float (if negative then "-inf" else "inf")
  if body == "nan".toList then return .float "NaN"
  let (mantissa, tail) := body.span fun c => c != 'e' && c != 'E'
  let (whole, behind) := mantissa.span (· != '.')
  let whole ← wholeDigits? whole
  let fraction ← match behind with
    | [] => if tail.isEmpty then none else some []
    | _ :: digits => digitsOf? Char.isDigit digits
  let exponent ← match tail with
    | [] => some 0
    | _ :: digits => exponent? digits
  return .float (Text.plainDecimal negative whole fraction exponent)

/-- Digits of a fixed count whose number lies in a range. -/
def field? (count low high : Nat) (text : List Char) : Option (List Char) :=
  let digits := text.take count
  if digits.length == count && digits.all Char.isDigit && low ≤ valueOf 10 digits
      && valueOf 10 digits ≤ high then
    some (text.drop count)
  else none

/-- The text behind a given character. -/
def behind? (c : Char) : List Char → Option (List Char)
  | d :: rest => if c == d then some rest else none
  | [] => none

/-- The number of days of a month. -/
def monthLength (year month : Nat) : Nat :=
  if month == 2 then
    if (year % 4 == 0 && year % 100 != 0) || year % 400 == 0 then 29 else 28
  else if month == 4 || month == 6 || month == 9 || month == 11 then 30
  else 31

/-- The text behind a date. -/
def date? (text : List Char) : Option (List Char) := do
  let month ← behind? '-' (← field? 4 0 9999 text)
  let day ← behind? '-' (← field? 2 1 12 month)
  field? 2 1 (monthLength (valueOf 10 (text.take 4)) (valueOf 10 (month.take 2))) day

/-- The text behind a fraction of a second. -/
def secondFraction? : List Char → Option (List Char)
  | '.' :: c :: rest => if c.isDigit then some (rest.dropWhile Char.isDigit) else none
  | '.' :: [] => none
  | text => some text

/-- The text behind a time of day. -/
def time? (text : List Char) : Option (List Char) := do
  let minute ← behind? ':' (← field? 2 0 23 text)
  let second ← behind? ':' (← field? 2 0 59 minute)
  secondFraction? (← field? 2 0 60 second)

/-- The text behind the offset of a time zone. -/
def offset? : List Char → Option (List Char)
  | [] => some []
  | c :: rest =>
      if c == 'Z' || c == 'z' then some rest
      else if c == '+' || c == '-' then do
        field? 2 0 59 (← behind? ':' (← field? 2 0 23 rest))
      else none

/-- The key under which a date is handed on. -/
def dateKey : String := "$__toml_private_datetime"

/-- A date, a time, or both. -/
def dateTime? (text : List Char) : Option Value := do
  let rest ← match date? text with
    | some [] => some []
    | some (c :: rest) =>
        if c == 'T' || c == 't' || c == ' ' then do offset? (← time? rest) else none
    | none => time? text
  if rest.isEmpty then return .dict [(dateKey, .string (String.ofList text))]
  none

/-- A character of a boolean, a number or a date. -/
def isScalarChar (c : Char) : Bool :=
  c.isAlphanum || c == '_' || c == '+' || c == '-' || c == '.' || c == ':'

/-- The characters of a scalar and the rest.  A time may follow a date behind one blank. -/
def splitScalar (text : List Char) : List Char × List Char :=
  let (front, rest) := text.span isScalarChar
  match rest with
  | ' ' :: c :: _ =>
      if c.isDigit && date? front == some [] then
        let (back, rest) := (rest.drop 1).span isScalarChar
        (front ++ ' ' :: back, rest)
      else (front, rest)
  | _ => (front, rest)

/-- A boolean, a number or a date. -/
def scalarValue? (text : List Char) : Option Value :=
  if text == "true".toList then some (.bool true)
  else if text == "false".toList then some (.bool false)
  else (integer? text).orElse fun _ => (float? text).orElse fun _ => dateTime? text

end Toml
end Config
end EsModules
