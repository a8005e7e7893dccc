import EsModules.Syntax.Lexer.Escape
import EsModules.Text.IdentifierChar

/-!
# Words

An identifier or reserved word, spelled with plain characters or with Unicode escapes.
-/

namespace EsModules
namespace Syntax

/-- The characters a word spells, whether an escape was among them, and what follows. -/
structure Word where
  letters : List Char
  escaped : Bool
  behind : Cursor
  deriving Repr

namespace Word

/-- Puts one more character in front of a word. -/
def push (c : Char) (escaped : Bool) (w : Word) : Word :=
  ⟨c :: w.letters, escaped || w.escaped, w.behind⟩

/-- The characters of a word after its first one, at most `limit` of them. -/
def readTail : Nat → Cursor → Option Word
  | 0, _ => none
  | _ + 1, ⟨offset, []⟩ => some ⟨[], false, ⟨offset, []⟩⟩
  | limit + 1, ⟨offset, c :: rest⟩ =>
      if Text.isIdentifierPart c then
        (readTail limit ⟨offset + c.utf8Size, rest⟩).map (push c false)
      else
        match c, rest with
        | '\\', 'u' :: _ =>
            match codePointEscape ⟨offset + 2, rest.drop 1⟩ with
            | some (code, behind) =>
                if Text.isIdentifierPart (Char.ofNat code) then
                  (readTail limit behind).map (push (Char.ofNat code) true)
                else none
            | none => none
        | '\\', _ => none
        | _, _ => some ⟨[], false, ⟨offset, c :: rest⟩⟩

/-- A whole word of at most `limit` characters. -/
def read (limit : Nat) (cursor : Cursor) : Option Word :=
  match cursor.rest with
  | '\\' :: 'u' :: _ =>
      match codePointEscape (cursor.skip 2) with
      | some (code, behind) =>
          if Text.isIdentifierStart (Char.ofNat code) then
            (readTail limit behind).map (push (Char.ofNat code) true)
          else none
      | none => none
  | c :: rest =>
      if Text.isIdentifierStart c then
        (readTail limit ⟨cursor.offset + c.utf8Size, rest⟩).map (push c false)
      else none
  | [] => none

end Word

end Syntax
end EsModules
