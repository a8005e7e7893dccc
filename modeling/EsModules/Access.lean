import EsModules.Format
import EsModules.Syntax.Tree
import EsModules.Text.Numeral

/-!
# Access to imported bindings

An imported binding is read from the handle of its module each time it is used.
-/

namespace EsModules

open Syntax

/-- The name can be written behind a point. -/
def isIdentifierName (name : String) : Bool :=
  match name.toList with
  | [] => false
  | first :: rest =>
      (first == '_' || first == '$' || Text.isAlphabetic first)
        && rest.all fun c => c == '_' || c == '$' || Text.isAlphanumeric c

/-- The expression that reads an imported binding from the handle of its module. -/
def accessExpression (handle : String) (kind : ImportKind) (format : FormatOptions) : String :=
  match kind with
  | .default =>
      let key := format.quote "default"
      s!"({handle}[{key}] || {handle})"
  | .named name =>
      if isIdentifierName name then s!"{handle}.{name}" else s!"{handle}[{format.quote name}]"
  | .whole => handle

end EsModules
