import EsModules.Config.Json
import EsModules.SourceMap.Tokens

/-!
# Source maps as documents

Reads the JSON of a source map of version 3: its tables, and its mappings as tokens.
-/

namespace EsModules
namespace SourceMap

/-- What a source map says. -/
structure Document where
  file : Option String
  names : List String
  sources : List String
  /-- The content of each source, as far as it is given. -/
  contents : List (Option String)
  tokens : List Token
  deriving DecidableEq, Repr

namespace Document

open Config

/-- A text. -/
def text? : Value → Option String
  | .string text => some text
  | _ => none

/-- A text that may be missing. -/
def content? : Value → Option (Option String)
  | .string text => some (some text)
  | .unit => some none
  | _ => none

/-- A text that may be left out. -/
def member? : Option Value → Option (Option String)
  | some value => (text? value).map some
  | none => some none

/-- The items of a list. -/
def list? {α : Type} (item? : Value → Option α) : Value → Option (List α)
  | .list items => items.mapM item?
  | _ => none

/-- Reads a source map of version 3. -/
def read? (json : String) : Option Document := do
  let fields ← Json.parse? json
  match fields.get? "version" with
  | some (.unsigned 3) => pure ()
  | _ => failure
  let file ← member? (fields.get? "file")
  let names ← list? text? (← fields.get? "names")
  let sources ← list? text? (← fields.get? "sources")
  let contents ← list? content? (← fields.get? "sourcesContent")
  let mappings ← text? (← fields.get? "mappings")
  return ⟨file, names, sources, contents, ← readMappings mappings.toList⟩

/-- The mapping that a token stands for.  A token without a source stands for none. -/
def mapping? (d : Document) (t : Token) : Option Mapping :=
  t.origin.map fun (_, origin) => ⟨t.generated, origin, t.name.bind (d.names[·]?)⟩

end Document
end SourceMap
end EsModules
