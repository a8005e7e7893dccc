import EsModules.Syntax.Tree
import EsModules.Syntax.Parser

/-!
# The grammar as a record

Expressions, patterns and statements contain one another.  Each family of productions is written
against a `Grammar`, the record of the productions it needs from the others, and the families are
tied together at the end.
-/

namespace EsModules
namespace Syntax

/-- What the surroundings allow at a place. -/
structure Context where
  /-- The operator `in` may be used. -/
  inOperator : Bool
  /-- The word `yield` is an operator. -/
  inGenerator : Bool
  /-- The word `await` is an operator. -/
  inAsync : Bool
  /-- A `return` statement may be used. -/
  inFunction : Bool
  /-- A bracket does not continue the expression. -/
  inDecorator : Bool
  deriving DecidableEq, Repr, Inhabited

namespace Context

/-- The top level of a module. -/
def module : Context :=
  ⟨true, false, true, false, false⟩

/-- Inside brackets of any kind. -/
def bracketed (c : Context) : Context :=
  { c with inOperator := true, inDecorator := false }

/-- The parameters and the body of a function. -/
def function (c : Context) (async generator : Bool) : Context :=
  { c.bracketed with inAsync := async, inGenerator := generator }

end Context

/-- The form of an expression, as far as later productions ask for it. -/
inductive Shape where
  /-- An identifier without parentheses. -/
  | name (name : String)
  /-- A string literal without parentheses. -/
  | text
  /-- A prefix operator or `await` with its operand, without parentheses. -/
  | unary
  /-- An expression with `&&` or `||` on top, without parentheses. -/
  | logical
  /-- A test for a private name. -/
  | privateTest
  /-- A dynamic import. -/
  | dynamicImport
  | other
  deriving DecidableEq, Repr, Inhabited

/-- How an expression can be assigned to. -/
inductive Target where
  | none
  /-- A name or a property. -/
  | simple
  /-- An array or object literal that reads as a pattern, with the places of the shorthand
  properties in it. -/
  | pattern (shorthands : List Nat)
  deriving DecidableEq, Repr, Inhabited

mutual

/-- Reads the shorthand properties at some places as targets of an assignment. -/
def retarget (places : List Nat) : Node → Node
  | .property key value => .property key (retargetAll places value)
  | .shorthand span name =>
      if places.contains span.start then .target span name [] else .shorthand span name
  | node => node

/-- The same in several pieces of code. -/
def retargetAll (places : List Nat) : List Node → List Node
  | [] => []
  | node :: rest => retarget places node :: retargetAll places rest

end

/-- An expression. -/
structure Expr where
  shape : Shape
  target : Target
  /-- An assignment with a plain equals sign, without parentheses. -/
  assigned : Bool
  code : List Node
  deriving Repr, Inhabited

namespace Expr

/-- An expression of no particular form. -/
def plain (code : List Node) : Expr :=
  ⟨.other, .none, false, code⟩

/-- A property of another value. -/
def property (code : List Node) : Expr :=
  ⟨.other, .simple, false, code⟩

/-- The shorthands of an expression as an assignment target. -/
def targetShorthands? (e : Expr) : Option (List Nat) :=
  match e.target with
  | .none => Option.none
  | .simple => some []
  | .pattern shorthands => some shorthands

/-- The code of an expression that is assigned to. -/
def targetCode (e : Expr) : List Node :=
  retargetAll (e.targetShorthands?.getD []) e.code

/-- The shorthands of an expression as an element of a pattern, where it may have a default. -/
def elementShorthands? (e : Expr) : Option (List Nat) :=
  if e.assigned then some [] else e.targetShorthands?

/-- The same expression between parentheses: it no longer reads as a pattern. -/
def parenthesized (e : Expr) : Expr :=
  ⟨.other, if e.target == .simple then .simple else .none, false, e.code⟩

end Expr

/-- A binding pattern as it is read, with the code in it. -/
structure Binder where
  pattern : Pattern
  code : List Node
  deriving Repr, Inhabited

/-- The pattern is a single identifier. -/
def Binder.single (b : Binder) : Bool :=
  match b.pattern with
  | .name _ => true
  | _ => false

/-- Where a statement stands. -/
inductive Place where
  /-- In a list of statements. -/
  | list
  /-- As the body of another statement. -/
  | body
  deriving DecidableEq, Repr, Inhabited

/-- The productions that refer to one another. -/
structure Grammar where
  /-- An expression without commas outside brackets. -/
  assignment : Context → Parser Expr
  /-- An expression whose binary operators bind tighter than the given level. -/
  binary : Context → Nat → Parser Expr
  /-- An operand of a binary operator. -/
  unary : Context → Parser Expr
  /-- A call, property or simpler operand: what can stand left of an assignment. -/
  operand : Context → Parser Expr
  /-- The operand of `new` with the properties behind it. -/
  callee : Context → Parser Expr
  /-- A binding pattern without default. -/
  pattern : Context → Parser Binder
  statement : Context → Place → Parser Item

namespace Parser

/-- Consumes an identifier in the place of a binding or reference. -/
def identifier (c : Context) : Parser Token := do
  let t ← token
  require t.isName
  require !((c.inAsync && t.text == "await") || (c.inGenerator && t.text == "yield"))
  shift
  return t

/-- Claims the shorthand initializers of an assignment target. -/
def settle (offsets : List Nat) : Parser Unit :=
  modify fun s => { s with openShorthands := s.openShorthands.filter (!offsets.contains ·) }

/-- The shorthands of an expression that is assigned to. -/
def assignTo (e : Expr) : Parser Unit := do
  match e.targetShorthands? with
  | some shorthands => settle shorthands
  | none => refuse

/-- An expression that is updated in place: a name or a property. -/
def updateTarget (e : Expr) : Parser Unit :=
  require (e.target == .simple)

/-- Expressions with commas between them. -/
def expression (g : Grammar) (c : Context) : Parser Expr := do
  let first ← g.assignment c
  if !(← atMark ",") then return first
  let code ← loop first.code fun code => do
    if ← eatMark "," then
      let e ← g.assignment c
      return .inl (code ++ e.code)
    else return .inr code
  return .plain code

end Parser
end Syntax
end EsModules
