import EsModules.SourceMap.Document
import EsModules.Text.JsonString

/-!
# Source maps

A source map of version 3 with a single source, as JSON and as a data URL.
-/

namespace EsModules

/-- A source map with one source. -/
structure SourceMap where
  /-- The name of the output. -/
  file : Option String
  source : String
  content : String
  mappings : List Mapping
  deriving DecidableEq, Repr, Inhabited

namespace SourceMap

/-- A JSON list of strings. -/
def jsonStrings (texts : List String) : String :=
  "[" ++ String.intercalate "," (texts.map Text.jsonString) ++ "]"

/-- The source map as JSON. -/
def json (map : SourceMap) : String :=
  let file := match map.file with
    | some file => "\"file\":" ++ Text.jsonString file ++ ","
    | none => ""
  "\x7b\"version\":3," ++ file
    ++ "\"names\":" ++ jsonStrings (names map.mappings)
    ++ ",\"sources\":" ++ jsonStrings [map.source]
    ++ ",\"sourcesContent\":" ++ jsonStrings [map.content]
    ++ ",\"mappings\":" ++ Text.jsonString (encodeMappings map.mappings) ++ "\x7d"

/-- Reads a source map with one source whose content is given. -/
def ofJson? (json : String) : Option SourceMap := do
  let document ← Document.read? json
  match document.sources, document.contents with
  | [source], [some content] =>
      return ⟨document.file, source, content, document.tokens.filterMap document.mapping?⟩
  | _, _ => failure

/-- The bytes of a text in base 64, padded to a multiple of four digits. -/
def base64 : List UInt8 → List Char
  | a :: b :: c :: rest =>
      let n := a.toNat * 65536 + b.toNat * 256 + c.toNat
      base64Digit (n / 262144) :: base64Digit (n / 4096 % 64) :: base64Digit (n / 64 % 64)
        :: base64Digit (n % 64) :: base64 rest
  | [a, b] =>
      let n := a.toNat * 65536 + b.toNat * 256
      [base64Digit (n / 262144), base64Digit (n / 4096 % 64), base64Digit (n / 64 % 64), '=']
  | [a] =>
      let n := a.toNat * 65536
      [base64Digit (n / 262144), base64Digit (n / 4096 % 64), '=', '=']
  | [] => []

/-- The source map as a data URL. -/
def dataUrl (map : SourceMap) : String :=
  "data:application/json;charset=utf-8;base64,"
    ++ String.ofList (base64 map.json.toUTF8.toList)

end SourceMap

/-- A text after its edits, with its source map. -/
structure Rendered where
  code : String
  map : SourceMap
  deriving DecidableEq, Repr, Inhabited

namespace Rendered

/-- Applies edits to a text and puts a header before it and a footer behind it.  The source map is
the one that is read back from its JSON. -/
def ofEdits
    (text : String)
    (edits : List Edit)
    (header footer : String)
    (source : String)
    (file : Option String) :
    Except TranspileError Rendered := do
  let pieces ← editPieces text edits
  let body := String.ofList (pieces.flatMap Piece.output)
  let start := (⟨0, 0⟩ : Place).advance header.toList
  let mappings := Mapping.ofPieces start ⟨0, 0⟩ pieces
  match SourceMap.ofJson? (SourceMap.json ⟨file, source, text, mappings⟩) with
  | some map => return ⟨header ++ body ++ footer, map⟩
  | none => throw (.sourceMap "the map cannot be read back")

/-- The code with a comment at the end that says where its source map is. -/
def codeWithMapLink (r : Rendered) (link : String) : String :=
  let code := String.ofList (r.code.toList.reverse.dropWhile (· == '\n')).reverse
  code ++ "\n//# sourceMappingURL=" ++ link ++ "\n"

/-- The code with its source map in a comment at the end. -/
def inlineCode (r : Rendered) : String :=
  r.codeWithMapLink r.map.dataUrl

end Rendered
end EsModules
