import EsModules.Syntax.Span
import EsModules.Text.Position
import EsModules.Transpile.Error

/-!
# Edits of a text

Edits are recorded in any order against byte spans of a text.  Applying them cuts the text into
pieces: stretches that are kept, stretches that are replaced, and insertions between them.  Edits
that overlap, or reach behind the end, are refused.
-/

namespace EsModules

open Syntax

/-- Replaces the bytes of a span by a text.  An empty span inserts, an empty text removes. -/
structure Edit where
  span : Span
  text : String
  /-- The replaced text is an identifier whose name the source map keeps. -/
  named : Bool
  deriving DecidableEq, Repr, Inhabited

namespace Edit

/-- Replaces a span. -/
def replace (span : Span) (text : String) : Edit :=
  ⟨span, text, false⟩

/-- Replaces an identifier and keeps its name in the source map. -/
def rename (span : Span) (text : String) : Edit :=
  ⟨span, text, true⟩

/-- Removes a span. -/
def remove (span : Span) : Edit :=
  ⟨span, "", false⟩

/-- Inserts a text at an offset. -/
def insert (offset : Nat) (text : String) : Edit :=
  ⟨⟨offset, offset⟩, text, false⟩

/-- The edit inserts at a single place. -/
def isInsertion (e : Edit) : Bool :=
  e.span.start == e.span.stop

/-- The edit starts before another one, or at the same place and ends no later. -/
def atOrBefore (a b : Edit) : Bool :=
  a.span.start < b.span.start || (a.span.start == b.span.start && a.span.stop ≤ b.span.stop)

/-- Puts an edit in front of the first one that it does not come behind. -/
def insertSorted (e : Edit) : List Edit → List Edit
  | [] => [e]
  | other :: rest =>
      if e.atOrBefore other then e :: other :: rest else other :: insertSorted e rest

/-- The edits by their start and end; edits of the same span keep their order. -/
def sort (edits : List Edit) : List Edit :=
  edits.foldr insertSorted []

/-- The start of the first sorted edit that begins before `cursor`, where the edits before it
end, or ends behind `length`. -/
def firstConflict (length : Nat) : Nat → List Edit → Option Nat
  | _, [] => none
  | cursor, e :: rest =>
      if e.span.start < cursor || length < e.span.stop then some e.span.start
      else firstConflict length (max cursor e.span.stop) rest

end Edit

/-- A stretch of an edited text. -/
inductive Piece where
  /-- Text that is kept. -/
  | kept (text : List Char)
  /-- Text that stands for another one. -/
  | replaced (source text : List Char) (named : Bool)
  /-- Text between two places of the source. -/
  | inserted (text : List Char)
  deriving DecidableEq, Repr, Inhabited

namespace Piece

/-- The text of the source that a piece covers. -/
def source : Piece → List Char
  | kept text => text
  | replaced source _ _ => source
  | inserted _ => []

/-- The text that a piece puts in its place. -/
def output : Piece → List Char
  | kept text => text
  | replaced _ text _ => text
  | inserted text => text

/-- Cuts a text behind its first `n` bytes. -/
def splitBytes : Nat → List Char → List Char × List Char
  | 0, cs => ([], cs)
  | _ + 1, [] => ([], [])
  | n + 1, c :: cs =>
      let (front, back) := splitBytes (n + 1 - c.utf8Size) cs
      (c :: front, back)

/-- The pieces of the text `rest`, which begins at the byte `offset`, under sorted edits. -/
def cut : Nat → List Char → List Edit → List Piece
  | _, rest, [] => [kept rest]
  | offset, rest, e :: edits =>
      if e.isInsertion && e.text == "" then cut offset rest edits
      else
        let (before, here) := splitBytes (e.span.start - offset) rest
        if e.isInsertion then
          kept before :: inserted e.text.toList :: cut e.span.start here edits
        else
          let (source, behind) := splitBytes (e.span.stop - e.span.start) here
          kept before :: replaced source e.text.toList e.named :: cut e.span.stop behind edits

end Piece

/-- The pieces of an edited text. -/
def editPieces (text : String) (edits : List Edit) : Except TranspileError (List Piece) :=
  let chars := text.toList
  let sorted := Edit.sort edits
  match Edit.firstConflict (Text.byteLength chars) 0 sorted with
  | some offset => .error (.conflictingEdit offset)
  | none => .ok (Piece.cut 0 chars sorted)

end EsModules
