import EsModules.Syntax.Span

/-!
# Tokens

The lexical units of a module.  Identifiers and reserved words are one kind, `word`: which words
are reserved depends on the place where they stand, so the grammar decides it.
-/

namespace EsModules
namespace Syntax

/-- The lexical class of a token. -/
inductive TokenKind where
  /-- An identifier or a reserved word. -/
  | word
  /-- A private name with its number sign. -/
  | privateName
  | number
  | string
  /-- A stretch of a template; `closed` when it ends the template. -/
  | template (closed : Bool)
  | regex
  /-- A punctuator. -/
  | mark
  /-- The end of the text. -/
  | finish
  deriving DecidableEq, Repr, Inhabited

/-- One token with its place. -/
structure Token where
  kind : TokenKind
  span : Span
  /-- The name a word spells, the value of a string, or the punctuator itself. -/
  text : String
  /-- A line terminator stands between the previous token and this one. -/
  newline : Bool
  /-- A word spelled with escapes, a string with a surrogate that stands alone, or a template
  stretch with a malformed escape. -/
  escaped : Bool
  deriving DecidableEq, Repr, Inhabited

namespace Token

/-- The token is the punctuator `mark`. -/
def isMark (t : Token) (mark : String) : Bool :=
  t.kind == .mark && t.text == mark

/-- The token is the word `word`, however it is spelled. -/
def isWord (t : Token) (word : String) : Bool :=
  t.kind == .word && t.text == word

end Token

/-- Words that never name a binding. -/
def reservedWords : List String :=
  ["break", "case", "catch", "class", "const", "continue", "debugger", "default", "delete", "do",
   "else", "enum", "export", "extends", "false", "finally", "for", "function", "if", "import",
   "in", "instanceof", "new", "null", "return", "super", "switch", "this", "throw", "true", "try",
   "typeof", "var", "void", "while", "with"]

/-- The token may name a binding in some context. -/
def Token.isName (t : Token) : Bool :=
  t.kind == .word && !reservedWords.contains t.text

end Syntax
end EsModules
