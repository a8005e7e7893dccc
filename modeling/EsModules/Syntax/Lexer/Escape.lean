import EsModules.Syntax.Lexer.Gap

/-!
# Escape sequences

The escapes of identifiers, strings and templates.  A string denotes a sequence of code points in
which surrogates may stand alone; `spell` writes such a sequence as a text.
-/

namespace EsModules
namespace Syntax

/-- The value of a hexadecimal digit. -/
def hexDigit? (c : Char) : Option Nat :=
  if '0' ≤ c && c ≤ '9' then some (c.toNat - '0'.toNat)
  else if 'a' ≤ c && c ≤ 'f' then some (c.toNat - 'a'.toNat + 10)
  else if 'A' ≤ c && c ≤ 'F' then some (c.toNat - 'A'.toNat + 10)
  else none

/-- A hexadecimal digit. -/
def isHexDigit (c : Char) : Bool :=
  (hexDigit? c).isSome

/-- The number that hexadecimal digits write. -/
def hexValue (digits : List Char) : Nat :=
  digits.foldl (fun n c => 16 * n + (hexDigit? c).getD 0) 0

/-- Four hexadecimal digits. -/
def fourHexDigits (cursor : Cursor) : Option (Nat × Cursor) :=
  let digits := cursor.rest.take 4
  if digits.length == 4 && digits.all isHexDigit then some (hexValue digits, cursor.skip 4)
  else none

/-- The part of a Unicode escape behind the letter `u`. -/
def codePointEscape (cursor : Cursor) : Option (Nat × Cursor) :=
  match cursor.rest with
  | '{' :: rest =>
      let digits := rest.takeWhile isHexDigit
      let behind := rest.drop digits.length
      if !digits.isEmpty && behind.head? == some '}' && hexValue digits ≤ 0x10ffff then
        some (hexValue digits, cursor.skip (digits.length + 2))
      else none
  | _ => fourHexDigits cursor

/-- A code point that is half of a surrogate pair. -/
def isSurrogate (code : Nat) : Bool :=
  0xd800 ≤ code && code ≤ 0xdfff

/-- The Unicode escape of a string behind the letter `u`.  Two escapes of four digits that write a
surrogate pair denote one code point. -/
def stringUnicodeEscape (cursor : Cursor) : Option (Nat × Cursor) :=
  match fourHexDigits cursor with
  | none => codePointEscape cursor
  | some (high, behind) =>
      if 0xd800 ≤ high && high ≤ 0xdbff then
        match behind.rest with
        | '\\' :: 'u' :: _ =>
            match fourHexDigits (behind.skip 2) with
            | some (low, last) =>
                if 0xdc00 ≤ low && low ≤ 0xdfff then
                  some (0x10000 + (high - 0xd800) * 0x400 + (low - 0xdc00), last)
                else some (high, behind)
            | none => some (high, behind)
        | _ => some (high, behind)
      else some (high, behind)

/-- An octal digit. -/
def isOctalDigit (c : Char) : Bool :=
  '0' ≤ c && c ≤ '7'

/-- The octal digits of an escape: at most three, for a value below 256. -/
def octalDigits (cs : List Char) : List Char :=
  match cs with
  | c :: _ => (cs.take (if c ≤ '3' then 3 else 2)).takeWhile isOctalDigit
  | [] => []

/-- The escape of a string behind its backslash: the code points it denotes, none for a line
continuation. -/
def stringEscape (cursor : Cursor) : Option (List Nat × Cursor) :=
  match cursor.rest with
  | [] => none
  | '\r' :: '\n' :: _ => some ([], cursor.skip 2)
  | 'n' :: _ => some ([10], cursor.skip 1)
  | 't' :: _ => some ([9], cursor.skip 1)
  | 'b' :: _ => some ([8], cursor.skip 1)
  | 'v' :: _ => some ([11], cursor.skip 1)
  | 'f' :: _ => some ([12], cursor.skip 1)
  | 'r' :: _ => some ([13], cursor.skip 1)
  | 'x' :: rest =>
      let digits := rest.take 2
      if digits.length == 2 && digits.all isHexDigit then
        some ([hexValue digits], cursor.skip 3)
      else none
  | 'u' :: _ => (stringUnicodeEscape (cursor.skip 1)).map fun (code, behind) => ([code], behind)
  | c :: rest =>
      if isLineTerminator c then some ([], ⟨cursor.offset + c.utf8Size, rest⟩)
      else if isOctalDigit c then
        let digits := octalDigits (c :: rest)
        some ([digits.foldl (fun n d => 8 * n + (d.toNat - '0'.toNat)) 0],
          cursor.skip digits.length)
      else some ([c.toNat], ⟨cursor.offset + c.utf8Size, rest⟩)

/-- The escape of a template behind its backslash is well formed. -/
def templateEscapeOk (cs : List Char) : Bool :=
  match cs with
  | 'x' :: rest => (rest.take 2).length == 2 && (rest.take 2).all isHexDigit
  | 'u' :: rest => (codePointEscape ⟨0, rest⟩).isSome
  | '0' :: c :: _ => !c.isDigit
  | c :: _ => c == '0' || !c.isDigit
  | [] => true

/-- Four lower-case hexadecimal digits. -/
def hexFour (n : Nat) : List Char :=
  [Nat.digitChar (n / 4096 % 16), Nat.digitChar (n / 256 % 16), Nat.digitChar (n / 16 % 16),
   Nat.digitChar (n % 16)]

/-- Writes code points as a text.  If a surrogate stands alone, it is written as the replacement
character and its four digits, and so is the replacement character itself. -/
def spell (codes : List Nat) : String :=
  if codes.any isSurrogate then
    String.ofList <| codes.flatMap fun code =>
      if isSurrogate code || code == 0xfffd then '\ufffd' :: hexFour code else [Char.ofNat code]
  else String.ofList (codes.map Char.ofNat)

end Syntax
end EsModules
