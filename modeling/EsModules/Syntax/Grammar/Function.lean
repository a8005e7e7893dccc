import EsModules.Syntax.Grammar.Pattern

/-!
# Functions

Parameters and bodies, shared by function declarations and expressions, arrow functions and
methods.
-/

namespace EsModules
namespace Syntax
namespace Parser

/-- The parameters of a function. -/
structure Parameters where
  patterns : List Pattern
  code : List Node
  count : Nat
  /-- The last one takes the remaining arguments. -/
  hasRest : Bool

/-- One parameter, and whether it takes the remaining arguments. -/
def parameter (g : Grammar) (c : Context) : Parser (Binder × Bool) := do
  if ← atMark "..." then
    let p ← restElement g c ")"
    return (⟨.rest p.pattern, p.code⟩, true)
  else return (← bindingElement g c, false)

/-- Parameters between parentheses. -/
def parameters (g : Grammar) (c : Context) : Parser Parameters := do
  expectMark "("
  let (items, _) ← commaList ")" (parameter g c)
  return ⟨items.map (·.1.pattern), items.flatMap (·.1.code), items.length, items.any (·.2)⟩

/-- The statements between braces. -/
def braced (g : Grammar) (c : Context) : Parser (List Node) := do
  expectMark "\x7b"
  let items ← itemsUntil "\x7d" (g.statement c .list)
  return items.flatMap Item.code

/-- The body of a function between braces. -/
def functionBody (g : Grammar) (c : Context) : Parser (List Node) :=
  braced g { c.bracketed with inFunction := true }

/-- The parameters and the body of a function whose name has been read. -/
def functionRest
    (g : Grammar)
    (c : Context)
    (declared : Bool)
    (start : Nat)
    (name : Option String)
    (async generator : Bool) :
    Parser (Parameters × Node) := do
  let inner := c.function async generator
  let ps ← parameters g inner
  let body ← functionBody g inner
  return (ps, .function declared (← spanFrom start) name ps.patterns ps.code body)

/-- A function from the word `function` on.  The name of a declaration is read in the context
outside, that of an expression in its own. -/
def functionFrom
    (g : Grammar)
    (c : Context)
    (declared nameRequired async : Bool)
    (start : Nat) :
    Parser (Option String × Node) := do
  expectWord "function"
  let generator ← eatMark "*"
  let nameContext := if declared then c else c.function async generator
  let name ←
    if (← token).isName then pure (some (← identifier nameContext).text)
    else pure none
  require (name.isSome || !nameRequired)
  let (_, node) ← functionRest g c declared start name async generator
  return (name, node)

/-- The words `async function` stand on one line. -/
def atAsyncFunction : Parser Bool := do
  if ← atWord "async" then peekIs fun t => t.isWord "function" && !t.newline
  else return false

/-- A function with an optional leading `async`. -/
def functionHere
    (g : Grammar)
    (c : Context)
    (declared nameRequired : Bool) :
    Parser (Option String × Node) := do
  let start ← here
  let async ← eatWord "async"
  functionFrom g c declared nameRequired async start

/-- The kinds of methods. -/
inductive MethodKind where
  | plain
  | getter
  | setter
  deriving DecidableEq

/-- A method behind its key.  A getter has no parameter, a setter exactly one. -/
def method
    (g : Grammar)
    (c : Context)
    (kind : MethodKind)
    (async generator : Bool) :
    Parser Node := do
  let start ← here
  let (ps, node) ← functionRest g c false start none async generator
  match kind with
  | .plain => return node
  | .getter =>
      require (ps.count == 0)
      return node
  | .setter =>
      require (ps.count == 1 && !ps.hasRest)
      return node

/-- The body of an arrow function, from the arrow on. -/
def arrowBody (g : Grammar) (c : Context) (async : Bool) : Parser (List Node) := do
  require !(← token).newline
  expectMark "=>"
  let inner := { c with inAsync := async, inGenerator := false, inDecorator := false }
  if ← atMark "\x7b" then functionBody g inner
  else return (← g.assignment inner).code

/-- An arrow function with a single name as its parameter, which has been read. -/
def simpleArrow
    (g : Grammar)
    (c : Context)
    (start : Nat)
    (async : Bool)
    (name : String) :
    Parser Expr := do
  let body ← arrowBody g c async
  return .plain [.function false (← spanFrom start) none [.name name] [] body]

/-- The head of an arrow function with parenthesized parameters, up to the arrow. -/
def arrowHead (g : Grammar) (c : Context) : Parser (Bool × Parameters) := do
  let async ← eatWord "async"
  let ps ← parameters g { c.bracketed with inAsync := c.inAsync || async }
  let t ← token
  require (t.isMark "=>" && !t.newline)
  return (async, ps)

/-- The tokens behind an opening parenthesis can begin a list of parameters. -/
def parametersMayFollow : Parser Bool := do
  expectMark "("
  let second ← token
  if second.isMark ")" || second.isMark "..." || second.isMark "[" || second.isMark "\x7b" then
    return true
  if !second.isName then return false
  shift
  let third ← token
  return third.isMark "," || third.isMark "=" || third.isMark ")"

/-- An arrow function with parenthesized parameters may begin here. -/
def parenthesizedArrowMayFollow : Parser Bool := do
  if ← atWord "async" then
    advance
    let t ← token
    if t.newline || !t.isMark "(" then return false
    parametersMayFollow
  else if ← atMark "(" then parametersMayFollow
  else return false

/-- An arrow function with parenthesized parameters, if one begins here. -/
def parenthesizedArrow? (g : Grammar) (c : Context) : Parser (Option Expr) := do
  if !((← lookahead parenthesizedArrowMayFollow).getD false) then return none
  let start ← here
  if (← get).ruledOut.contains start then return none
  match ← attempt (arrowHead g c) with
  | none =>
      modify fun s => { s with ruledOut := start :: s.ruledOut }
      return none
  | some (async, ps) =>
      let body ← arrowBody g c async
      return some (.plain [.function false (← spanFrom start) none ps.patterns ps.code body])

/-- An arrow function of the form `async x => …` begins here. -/
def asyncArrowFollows : Parser Bool := do
  expectWord "async"
  let t ← token
  if t.newline || !t.isName then return false
  shift
  let arrow ← token
  return arrow.isMark "=>" && !arrow.newline

/-- An arrow function of the form `async x => …`, if one begins here. -/
def asyncArrow? (g : Grammar) (c : Context) : Parser (Option Expr) := do
  if !((← lookahead asyncArrowFollows).getD false) then return none
  let start ← here
  expectWord "async"
  let t ← identifier c
  return some (← simpleArrow g c start true t.text)

end Parser
end Syntax
end EsModules
