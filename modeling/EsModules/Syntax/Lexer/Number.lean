import EsModules.Syntax.Lexer.Escape
import EsModules.Text.IdentifierChar

/-!
# Numbers

The length of a numeric literal.  Digits may be parted by single underscores, except in the old
octal form with a leading zero, and no digit or identifier may follow directly.
-/

namespace EsModules
namespace Syntax
namespace Numeric

/-- The length of the digits at the front, with single separators between them. -/
def digitRun (p : Char → Bool) : List Char → Option Nat
  | '_' :: d :: rest => if p d then (digitRun p rest).map (· + 2) else none
  | ['_'] => none
  | c :: rest => if p c then (digitRun p rest).map (· + 1) else some 0
  | [] => some 0

/-- Like `digitRun`, with at least one digit, which comes first. -/
def digits (p : Char → Bool) (cs : List Char) : Option Nat :=
  match cs with
  | c :: _ => if p c then digitRun p cs else none
  | [] => none

/-- The length of an exponent, zero if there is none. -/
def exponent (cs : List Char) : Option Nat :=
  match cs with
  | e :: rest =>
      if e == 'e' || e == 'E' then
        match rest with
        | '+' :: behind => (digits Char.isDigit behind).map (· + 2)
        | '-' :: behind => (digits Char.isDigit behind).map (· + 2)
        | _ => (digits Char.isDigit rest).map (· + 1)
      else some 0
  | [] => some 0

/-- The length of the digits behind a decimal point and of the exponent. -/
def fraction (cs : List Char) : Option Nat := do
  let whole ← match cs with
    | c :: _ => if c.isDigit then digitRun Char.isDigit cs else some 0
    | [] => some 0
  let power ← exponent (cs.drop whole)
  some (whole + power)

/-- The length of an integer with a base mark such as `0x`. -/
def radix (p : Char → Bool) (cs : List Char) : Option Nat := do
  let n ← digits p cs
  if (cs.drop n).head? == some 'n' then some (n + 3) else some (n + 2)

/-- The length of a number that starts with a zero and another digit. -/
def oldOctal (cs : List Char) : Option Nat :=
  let n := (cs.takeWhile Char.isDigit).length
  let decimal := (cs.take n).any fun c => c == '8' || c == '9'
  match cs.drop n with
  | '.' :: rest => if decimal then (fraction rest).map (n + 1 + ·) else some n
  | 'e' :: rest => if decimal then (exponent ('e' :: rest)).map (n + ·) else some n
  | _ => some n

/-- The length of a number that starts with a digit. -/
def whole (cs : List Char) : Option Nat := do
  let n ← digits Char.isDigit cs
  match cs.drop n with
  | '.' :: rest => (fraction rest).map (n + 1 + ·)
  | 'n' :: _ => some (n + 1)
  | rest => (exponent rest).map (n + ·)

/-- The length of a number, whatever follows it. -/
def length (cs : List Char) : Option Nat :=
  match cs with
  | '.' :: rest => do
      let n ← digits Char.isDigit rest
      let power ← exponent (rest.drop n)
      some (1 + n + power)
  | '0' :: c :: rest =>
      if c == 'x' || c == 'X' then radix isHexDigit rest
      else if c == 'o' || c == 'O' then radix isOctalDigit rest
      else if c == 'b' || c == 'B' then radix (fun d => d == '0' || d == '1') rest
      else if c.isDigit then oldOctal cs
      else if c == '_' then none
      else whole cs
  | _ => whole cs

/-- A number and the place behind it. -/
def read (cursor : Cursor) : Option Cursor := do
  let n ← length cursor.rest
  let behind := cursor.skip n
  match behind.rest with
  | c :: _ => if c.isDigit || Text.isIdentifierStart c then none else some behind
  | [] => some behind

end Numeric
end Syntax
end EsModules
