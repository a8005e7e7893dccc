import EsModules.Syntax.Grammar.Statement
import EsModules.Text.Position

/-!
# Reading a module

`Program.parse` ties the productions together and reads a whole text as a module.  Depth of
nesting is bounded by the length of the text, so the bound handed to the productions is never
what makes them refuse.
-/

namespace EsModules
namespace Syntax

/-- The grammar for texts that nest at most `depth` productions. -/
def grammar : Nat → Grammar
  | 0 =>
      { assignment := fun _ => Parser.refuse
        binary := fun _ _ => Parser.refuse
        unary := fun _ => Parser.refuse
        operand := fun _ => Parser.refuse
        callee := fun _ => Parser.refuse
        pattern := fun _ => Parser.refuse
        statement := fun _ _ => Parser.refuse }
  | depth + 1 =>
      { assignment := fun c s => Parser.assignment (grammar depth) c s
        binary := fun c level s => Parser.binary (grammar depth) c level s
        unary := fun c s => Parser.unary (grammar depth) c s
        operand := fun c s => Parser.operand (grammar depth) c s
        callee := fun c s => Parser.callee (grammar depth) c s
        pattern := fun c s => Parser.pattern (grammar depth) c s
        statement := fun c place s => Parser.statement (grammar depth) c place s }

namespace Program

/-- The hashbang line at the beginning of a text, and the place behind it. -/
def hashbang? (text : List Char) : Option Span × Cursor :=
  match text with
  | '#' :: '!' :: rest =>
      let behind := lineEnd 2 rest
      (some ⟨0, behind.offset⟩, behind)
  | _ => (none, .start text)

/-- The statements up to the end of the text. -/
def statements (g : Grammar) : Parser (List Item) :=
  Parser.loop [] fun acc => do
    if (← Parser.token).kind == .finish then return .inr acc.reverse
    let item ← g.statement .module .list
    return .inl (item :: acc)

/-- The statement consists of one string literal. -/
def isDirective : Item → Bool
  | .statement _ text _ => text
  | _ => false

/-- The length of the longest text that is read: its places fit in 32 bits. -/
def maxBytes : Nat :=
  4294967295

/-- Reads a text as a module.  All public names are distinct. -/
def parse (text : String) : Except Fault Program := do
  let chars := text.toList
  if maxBytes < Text.byteLength chars then throw ⟨0, []⟩
  let limit := chars.length + 2
  let (hashbang, begin) := hashbang? chars
  match Token.read limit begin with
  | none => throw ⟨begin.offset, []⟩
  | some (token, behind) =>
      let start : ParseState := ⟨token, behind, begin.offset, limit, [], []⟩
      let (items, last) ← (statements (grammar (8 * limit))).run start
      if !last.openShorthands.isEmpty then throw ⟨0, []⟩
      if !decide (items.flatMap Item.publicNames).Nodup then throw ⟨0, []⟩
      return {
        hashbang := hashbang
        directives := (items.takeWhile isDirective).map Item.span
        items := items.dropWhile isDirective }

end Program
end Syntax
end EsModules
