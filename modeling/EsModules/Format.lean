import EsModules.Text.Quoted

/-!
# Formatting of generated code

Only code that the transpiler writes itself is affected; text of the module is kept as it is.
-/

namespace EsModules

/-- One level of indentation. -/
inductive IndentStyle where
  | tabs
  | spaces (width : Nat)
  deriving DecidableEq, Repr, Inhabited

/-- How generated code is written, and which names its source map carries. -/
structure FormatOptions where
  quoteStyle : Text.QuoteStyle := .double
  indent : IndentStyle := .spaces 2
  /-- The name of the source in the source map. -/
  sourceFileName : Option String := none
  /-- The name of the output in the source map. -/
  sourceMapName : Option String := none
  deriving DecidableEq, Repr, Inhabited

namespace IndentStyle

/-- One level of indentation as text. -/
def unit : IndentStyle → String
  | tabs => "\t"
  | spaces width => String.ofList (List.replicate width ' ')

end IndentStyle

namespace FormatOptions

/-- Several levels of indentation. -/
def indentBy (format : FormatOptions) (depth : Nat) : String :=
  String.join (List.replicate depth format.indent.unit)

/-- A text as a string literal in the chosen quotation marks. -/
def quote (format : FormatOptions) (text : String) : String :=
  Text.quote format.quoteStyle text

end FormatOptions
end EsModules
