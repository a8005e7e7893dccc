/-!
# Byte spans

Positions in a source text are counted in bytes of its UTF-8 form.  A span holds the bytes from
`start` up to, and without, `stop`.
-/

namespace EsModules
namespace Syntax

/-- The bytes from `start` up to `stop`. -/
structure Span where
  start : Nat
  stop : Nat
  deriving DecidableEq, Repr, Inhabited

/-- A place in a source text: the bytes before it and the characters after it. -/
structure Cursor where
  offset : Nat
  rest : List Char
  deriving DecidableEq, Repr, Inhabited

namespace Cursor

/-- The beginning of a text. -/
def start (text : List Char) : Cursor :=
  ⟨0, text⟩

/-- Moves over `n` characters of one byte each. -/
def skip (cursor : Cursor) (n : Nat) : Cursor :=
  ⟨cursor.offset + n, cursor.rest.drop n⟩

end Cursor

end Syntax
end EsModules
