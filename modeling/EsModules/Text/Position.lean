import EsModules.Syntax.Span

/-!
# Bytes and slices

Places in a text are given as byte offsets.  This module measures texts and cuts pieces out of them.
-/

namespace EsModules
namespace Text

/-- The number of bytes of a list of characters in UTF-8. -/
def byteLength (cs : List Char) : Nat :=
  cs.foldr (fun c bytes => c.utf8Size + bytes) 0

/-- The characters behind the first `n` bytes, unless `n` lies inside a character or behind the
end. -/
def dropBytes : Nat → List Char → Option (List Char)
  | 0, cs => some cs
  | _ + 1, [] => none
  | n + 1, c :: cs => if c.utf8Size ≤ n + 1 then dropBytes (n + 1 - c.utf8Size) cs else none

/-- The characters of the first `n` bytes, unless `n` lies inside a character or behind the
end. -/
def takeBytes : Nat → List Char → Option (List Char)
  | 0, _ => some []
  | _ + 1, [] => none
  | n + 1, c :: cs =>
      if c.utf8Size ≤ n + 1 then (takeBytes (n + 1 - c.utf8Size) cs).map (c :: ·) else none

/-- The piece of a text that a span covers, unless the span does not fit the text. -/
def slice? (text : List Char) (span : Syntax.Span) : Option (List Char) :=
  if span.start ≤ span.stop then do
    takeBytes (span.stop - span.start) (← dropBytes span.start text)
  else none

/-- The piece of a text that a span covers, empty if the span does not fit the text. -/
def slice (text : String) (span : Syntax.Span) : String :=
  String.ofList ((slice? text.toList span).getD [])

end Text
end EsModules
