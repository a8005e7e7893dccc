import EsModules.Edit

/-!
# Mappings

A mapping ties a place of the output to the place of the source it comes from.  Kept text has one
mapping at its beginning and one at the beginning of each of its further lines, as far as a
character other than a line feed stands there; replaced text has one at its beginning; inserted
text has none.
-/

namespace EsModules

/-- A line and a column, counted from zero; columns count UTF-16 units. -/
structure Place where
  line : Nat
  column : Nat
  deriving DecidableEq, Repr, Inhabited

namespace Place

/-- The number of UTF-16 units of a character. -/
def units (c : Char) : Nat :=
  if c.toNat < 0x10000 then 1 else 2

/-- The place behind a character. -/
def step (p : Place) (c : Char) : Place :=
  if c == '\n' then ⟨p.line + 1, 0⟩ else ⟨p.line, p.column + units c⟩

/-- The place behind a text. -/
def advance (p : Place) (text : List Char) : Place :=
  text.foldl step p

end Place

/-- A place of the output and the place of the source it comes from. -/
structure Mapping where
  generated : Place
  origin : Place
  /-- The identifier that stood there. -/
  name : Option String
  deriving DecidableEq, Repr, Inhabited

namespace Mapping

/-- The mappings of kept text; `fresh` until the line has one. -/
def ofKept : Bool → Place → Place → List Char → List Mapping
  | _, _, _, [] => []
  | fresh, generated, origin, c :: rest =>
      let more := ofKept (c == '\n') (generated.step c) (origin.step c) rest
      if c == '\n' then more
      else if fresh then ⟨generated, origin, none⟩ :: more
      else more

/-- The mappings of one piece. -/
def ofPiece (generated origin : Place) : Piece → List Mapping
  | .kept text => ofKept true generated origin text
  | .replaced source text named =>
      if text.isEmpty then []
      else [⟨generated, origin, if named then some (String.ofList source) else none⟩]
  | .inserted _ => []

/-- The mappings of pieces that follow one another. -/
def ofPieces : Place → Place → List Piece → List Mapping
  | _, _, [] => []
  | generated, origin, piece :: rest =>
      ofPiece generated origin piece
        ++ ofPieces (generated.advance piece.output) (origin.advance piece.source) rest

end Mapping
end EsModules
