import EsModules.Syntax.Span
import EsModules.Text.Interval

/-!
# Gaps between tokens

White space, line terminators and comments separate tokens.  Whether a gap holds a line
terminator decides automatic semicolon insertion, so it is reported along with the end of the
gap.
-/

namespace EsModules
namespace Syntax

/-- Line feed, carriage return, line separator and paragraph separator. -/
def isLineTerminator (c : Char) : Bool :=
  c == '\n' || c == '\r' || c == '\u2028' || c == '\u2029'

/-- Spaces, tabs and the other blank characters that do not end a line. -/
def isSpace (c : Char) : Bool :=
  if c.toNat < 0x80 then c == ' ' || c == '\t' || c == '\x0b' || c == '\x0c'
  else Text.inIntervals
    [(0x85, 0x85), (0xa0, 0xa0), (0x1680, 0x1680), (0x2000, 0x200b), (0x202f, 0x202f),
     (0x205f, 0x205f), (0x3000, 0x3000), (0xfeff, 0xfeff)] c.toNat

/-- The part of a gap that is being passed. -/
inductive GapPart where
  | space
  | lineComment
  | blockComment
  deriving DecidableEq, Repr

/-- Passes a gap: whether it holds a line terminator, and where it ends.  A block comment that is
not closed has no end. -/
def skipGap : GapPart → Bool → Nat → List Char → Option (Bool × Cursor)
  | .space, newline, offset, '/' :: '/' :: rest =>
      skipGap .lineComment newline (offset + 2) rest
  | .space, newline, offset, '/' :: '*' :: rest =>
      skipGap .blockComment newline (offset + 2) rest
  | .space, newline, offset, c :: rest =>
      if isLineTerminator c then skipGap .space true (offset + c.utf8Size) rest
      else if isSpace c then skipGap .space newline (offset + c.utf8Size) rest
      else some (newline, ⟨offset, c :: rest⟩)
  | .lineComment, newline, offset, c :: rest =>
      if isLineTerminator c then skipGap .space true (offset + c.utf8Size) rest
      else skipGap .lineComment newline (offset + c.utf8Size) rest
  | .blockComment, newline, offset, '*' :: '/' :: rest =>
      skipGap .space newline (offset + 2) rest
  | .blockComment, newline, offset, c :: rest =>
      skipGap .blockComment (newline || isLineTerminator c) (offset + c.utf8Size) rest
  | .blockComment, _, _, [] => none
  | _, newline, offset, [] => some (newline, ⟨offset, []⟩)

/-- The rest of a line, without its terminator. -/
def lineEnd : Nat → List Char → Cursor
  | offset, [] => ⟨offset, []⟩
  | offset, c :: rest =>
      if isLineTerminator c then ⟨offset, c :: rest⟩ else lineEnd (offset + c.utf8Size) rest

end Syntax
end EsModules
