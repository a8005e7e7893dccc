import EsModules.Syntax.Lexer.Escape

/-!
# Strings, templates and regular expressions

The literals that end at a delimiter of their own.
-/

namespace EsModules
namespace Syntax

/-- The code points of a string up to its closing quote, read in at most `limit` steps. -/
def quotedCodes (quote : Char) : Nat → Cursor → Option (List Nat × Cursor)
  | 0, _ => none
  | _ + 1, ⟨_, []⟩ => none
  | limit + 1, ⟨offset, c :: rest⟩ =>
      if c == quote then some ([], ⟨offset + 1, rest⟩)
      else if c == '\n' || c == '\r' then none
      else if c == '\\' then do
        let (codes, behind) ← stringEscape ⟨offset + 1, rest⟩
        let (more, last) ← quotedCodes quote limit behind
        some (codes ++ more, last)
      else do
        let (more, last) ← quotedCodes quote limit ⟨offset + c.utf8Size, rest⟩
        some (c.toNat :: more, last)

/-- How a stretch of a template ends. -/
structure TemplateEnd where
  /-- The template is over; otherwise an expression follows. -/
  closed : Bool
  /-- Some escape of the stretch is malformed. -/
  malformed : Bool
  behind : Cursor
  deriving Repr

/-- Reads a stretch of a template up to its closing mark or the next expression. -/
def readTemplate : Bool → Nat → List Char → Option TemplateEnd
  | malformed, offset, '\x60' :: rest => some ⟨true, malformed, ⟨offset + 1, rest⟩⟩
  | malformed, offset, '$' :: '{' :: rest => some ⟨false, malformed, ⟨offset + 2, rest⟩⟩
  | malformed, offset, '\\' :: c :: rest =>
      readTemplate (malformed || !templateEscapeOk (c :: rest)) (offset + 1 + c.utf8Size) rest
  | malformed, offset, c :: rest => readTemplate malformed (offset + c.utf8Size) rest
  | _, _, [] => none

/-- Reads the body of a regular expression up to its closing slash; a slash in a character class
does not close it. -/
def readRegexBody : Bool → Nat → List Char → Option Cursor
  | _, _, [] => none
  | inClass, offset, '\\' :: c :: rest =>
      if isLineTerminator c then none
      else readRegexBody inClass (offset + 1 + c.utf8Size) rest
  | inClass, offset, c :: rest =>
      if isLineTerminator c then none
      else if c == '/' && !inClass then some ⟨offset + 1, rest⟩
      else readRegexBody (c == '[' || (inClass && c != ']')) (offset + c.utf8Size) rest

/-- Reads a regular expression behind its opening slash.  Its flags are distinct letters of
`dgimsuvy`. -/
def readRegex (cursor : Cursor) : Option Cursor := do
  let behind ← readRegexBody false cursor.offset cursor.rest
  let flags := behind.rest.takeWhile fun c => c.isAlphanum || c == '$' || c == '_'
  if flags.all ("dgimsuvy".toList.contains ·) && decide flags.Nodup then
    some (behind.skip flags.length)
  else none

end Syntax
end EsModules
