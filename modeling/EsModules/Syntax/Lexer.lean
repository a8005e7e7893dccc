import EsModules.Syntax.Token
import EsModules.Syntax.Lexer.Word
import EsModules.Syntax.Lexer.Number
import EsModules.Syntax.Lexer.Delimited

/-!
# Reading tokens

`Token.read` passes a gap and reads the token behind it.  A slash is always read as an operator
and a closing brace as a punctuator; the grammar asks for a regular expression or the rest of a
template where one may stand.
-/

namespace EsModules
namespace Syntax

/-- The punctuators, every one before its own prefixes. -/
def marks : List String :=
  [">>>=", "...", "===", "!==", "**=", "<<=", ">>=", ">>>", "&&=", "||=", "??=", "=>", "==", "!=",
   "**", "<=", ">=", "<<", ">>", "&&", "||", "??", "?.", "++", "--", "+=", "-=", "*=", "/=", "%=",
   "&=", "|=", "^=", "\x7b", "\x7d", "(", ")", "[", "]", ";", ",", "<", ">", "+", "-", "*", "/",
   "%", "&", "|", "^", "!", "~", "?", ":", "=", ".", "@"]

/-- The longest punctuator at the front.  A question mark, a point and a digit are a question mark
and a number. -/
def mark? (cs : List Char) : Option String :=
  match cs with
  | '?' :: '.' :: d :: _ =>
      if d.isDigit then some "?" else some "?."
  | _ => marks.find? fun m => m.toList.isPrefixOf cs

namespace Token

/-- The token at a place that no gap precedes, with at most `limit` characters. -/
def readHere (limit : Nat) (newline : Bool) (cursor : Cursor) : Option (Token × Cursor) :=
  let made (kind : TokenKind) (text : String) (escaped : Bool) (behind : Cursor) :=
    some (⟨kind, ⟨cursor.offset, behind.offset⟩, text, newline, escaped⟩, behind)
  match cursor.rest with
  | [] => made .finish "" false cursor
  | c :: rest =>
      if Text.isIdentifierStart c || c == '\\' then do
        let w ← Word.read limit cursor
        made .word (String.ofList w.letters) w.escaped w.behind
      else if c.isDigit || (c == '.' && (rest.head?.map Char.isDigit).getD false) then do
        let behind ← Numeric.read cursor
        made .number "" false behind
      else if c == '"' || c == '\'' then do
        let (codes, behind) ← quotedCodes c limit (cursor.skip 1)
        made .string (spell codes) (codes.any isSurrogate) behind
      else if c == '\x60' then do
        let e ← readTemplate false (cursor.offset + 1) rest
        made (.template e.closed) "" e.malformed e.behind
      else if c == '#' then do
        let w ← Word.read limit (cursor.skip 1)
        made .privateName (String.ofList w.letters) w.escaped w.behind
      else do
        let m ← mark? cursor.rest
        made .mark m false (cursor.skip m.length)

/-- The next token and the place behind it. -/
def read (limit : Nat) (cursor : Cursor) : Option (Token × Cursor) := do
  let (newline, here) ← skipGap .space false cursor.offset cursor.rest
  readHere limit newline here

end Token
end Syntax
end EsModules
