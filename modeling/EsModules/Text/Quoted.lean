/-!
# String literals

How a text is written as a JavaScript string literal.
-/

namespace EsModules
namespace Text

/-- The quotation mark of a string literal. -/
inductive QuoteStyle where
  | single
  | double
  deriving DecidableEq, Repr, Inhabited

/-- The quotation mark itself. -/
def QuoteStyle.mark : QuoteStyle → Char
  | single => '\''
  | double => '"'

/-- A character of a string literal: line ends, tabs, backslashes and the quotation mark itself
are escaped. -/
def quoteChar (mark c : Char) : List Char :=
  if c == '\\' then ['\\', '\\']
  else if c == '\n' then ['\\', 'n']
  else if c == '\r' then ['\\', 'r']
  else if c == '\t' then ['\\', 't']
  else if c == '\u2028' then ['\\', 'u', '2', '0', '2', '8']
  else if c == '\u2029' then ['\\', 'u', '2', '0', '2', '9']
  else if c == mark then ['\\', c]
  else [c]

/-- A text as a string literal. -/
def quote (style : QuoteStyle) (text : String) : String :=
  String.ofList (style.mark :: text.toList.flatMap (quoteChar style.mark) ++ [style.mark])

end Text
end EsModules
