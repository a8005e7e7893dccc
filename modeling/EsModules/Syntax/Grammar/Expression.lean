import EsModules.Syntax.Grammar.Class

/-!
# Expressions

Operands, properties and calls, operators by their binding strength, and assignments.
-/

namespace EsModules
namespace Syntax
namespace Parser

/-- The operators of an assignment. -/
def assignmentMarks : List String :=
  ["=", "+=", "-=", "*=", "/=", "%=", "**=", "<<=", ">>=", ">>>=", "&=", "|=", "^=", "&&=", "||=",
   "??="]

/-- The binding strength of a binary operator. -/
def strength? (t : Token) : Option Nat :=
  match t.kind with
  | .word => if t.text == "in" || t.text == "instanceof" then some 8 else none
  | .mark =>
      match t.text with
      | "??" => some 1
      | "||" => some 2
      | "&&" => some 3
      | "|" => some 4
      | "^" => some 5
      | "&" => some 6
      | "==" => some 7
      | "!=" => some 7
      | "===" => some 7
      | "!==" => some 7
      | "<" => some 8
      | ">" => some 8
      | "<=" => some 8
      | ">=" => some 8
      | "<<" => some 9
      | ">>" => some 9
      | ">>>" => some 9
      | "+" => some 10
      | "-" => some 10
      | "*" => some 11
      | "/" => some 11
      | "%" => some 11
      | "**" => some 12
      | _ => none
  | _ => none

/-- The token is an operand when it stands behind `await` or `yield` on the same line. -/
def startsOperand (t : Token) : Bool :=
  !t.newline && (strength? t).isNone
    && (t.kind == .word || t.kind == .number || t.kind == .string)

/-- One argument of a call, or one element of an array, behind an optional spread. -/
def spreadable (g : Grammar) (c : Context) : Parser (Expr × Bool) := do
  let spread ← eatMark "..."
  return (← g.assignment c.bracketed, spread)

/-- The arguments of a call, from the opening parenthesis on. -/
def arguments (g : Grammar) (c : Context) : Parser (List Node) := do
  expectMark "("
  let (items, _) ← commaList ")" (spreadable g c)
  return items.flatMap (·.1.code)

/-- The rest of a template from the stretch that is the current token on.  A malformed escape is
allowed only in a tagged template. -/
def template (g : Grammar) (c : Context) (tagged : Bool) : Parser (List Node) :=
  loop [] fun code => do
    let t ← token
    require (tagged || !t.escaped)
    shift
    if t.kind == .template true then return .inr code
    let e ← expression g c.bracketed
    require (← atMark "\x7d")
    resumeTemplate
    return .inl (code ++ e.code)

/-- A regular expression whose first slash begins the current token. -/
def regex : Parser Expr := do
  resumeRegex
  shift
  return .plain []

/-- One element of an array literal. -/
inductive Element where
  | hole
  | item (e : Expr)
  | spread (e : Expr)

namespace Element

/-- The code of an element. -/
def code : Element → List Node
  | hole => []
  | item e => e.code
  | spread e => e.code

/-- The shorthands of the elements read as a pattern; a spread comes last and has no comma behind
it. -/
def shorthands? : List Element → Bool → Option (List Nat)
  | [], _ => some []
  | [spread e], comma => if comma then none else e.targetShorthands?
  | spread _ :: _ :: _, _ => none
  | hole :: rest, comma => shorthands? rest comma
  | item e :: rest, comma => do
      let first ← e.elementShorthands?
      let others ← shorthands? rest comma
      return first ++ others

end Element

/-- One element of an array literal, which may be left out. -/
def element (g : Grammar) (c : Context) : Parser Element := do
  if ← atMark "," then return .hole
  let (e, spread) ← spreadable g c
  return if spread then .spread e else .item e

/-- A literal that reads as a pattern if its parts do. -/
def literal (shorthands : Option (List Nat)) (code : List Node) : Expr :=
  ⟨.other, (shorthands.map Target.pattern).getD .none, false, code⟩

/-- An array literal, from the opening bracket on. -/
def array (g : Grammar) (c : Context) : Parser Expr := do
  expectMark "["
  let (elements, comma) ← commaList "]" (element g c)
  return literal (Element.shorthands? elements comma) (elements.flatMap Element.code)

/-- One property of an object literal: its code, and its shorthands if it reads as a pattern. -/
structure Property where
  spread : Bool
  shorthands : Option (List Nat)
  code : List Node

/-- A property behind the key: a method, a value or a shorthand. -/
def propertyRest
    (g : Grammar)
    (c : Context)
    (async generator : Bool)
    (key : Key) :
    Parser Property := do
  if async || generator || (← atMark "(") then
    let node ← method g c .plain async generator
    return ⟨false, none, [.property key.code [node]]⟩
  if ← eatMark ":" then
    let e ← g.assignment c.bracketed
    return ⟨false, e.elementShorthands?, [.property key.code e.code]⟩
  match key.word with
  | none => refuse
  | some t =>
      require t.isName
      require !((c.inAsync && t.text == "await") || (c.inGenerator && t.text == "yield"))
      if ← eatMark "=" then
        let e ← g.assignment c.bracketed
        modify fun s => { s with openShorthands := t.span.start :: s.openShorthands }
        return ⟨false, some [t.span.start], [.target t.span t.text e.code]⟩
      else return ⟨false, some [t.span.start], [.shorthand t.span t.text]⟩

/-- One property of an object literal. -/
def property (g : Grammar) (c : Context) : Parser Property := do
  if ← eatMark "..." then
    let e ← g.assignment c.bracketed
    return ⟨true, if e.target == .simple then some [] else none, e.code⟩
  let objectKey : Parser Key := do
    let key ← propertyKey g c
    require !key.isPrivate
    return key
  if ← eatModifier "get" false then
    let key ← objectKey
    let node ← method g c .getter false false
    return ⟨false, none, [.property key.code [node]]⟩
  if ← eatModifier "set" false then
    let key ← objectKey
    let node ← method g c .setter false false
    return ⟨false, none, [.property key.code [node]]⟩
  let async ← eatModifier "async" true
  let generator ← eatMark "*"
  let key ← objectKey
  propertyRest g c async generator key

/-- The shorthands of the properties read as a pattern; a spread comes last and has no comma behind
it. -/
def Property.shorthands? : List Property → Bool → Option (List Nat)
  | [], _ => some []
  | p :: rest, comma => do
      if p.spread && (comma || !rest.isEmpty) then none
      let first ← p.shorthands
      let others ← shorthands? rest comma
      return first ++ others

/-- An object literal, from the opening brace on. -/
def object (g : Grammar) (c : Context) : Parser Expr := do
  expectMark "\x7b"
  let (properties, comma) ← commaList "\x7d" (property g c)
  return literal (Property.shorthands? properties comma) (properties.flatMap (·.code))

/-- An expression between parentheses. -/
def parenthesized (g : Grammar) (c : Context) : Parser Expr := do
  expectMark "("
  let e ← expression g c.bracketed
  expectMark ")"
  return e.parenthesized

/-- The arguments of a dynamic import, from the opening parenthesis on. -/
def importCall (g : Grammar) (c : Context) : Parser Expr := do
  expectMark "("
  let source ← g.assignment c.bracketed
  let options ←
    if (← eatMark ",") && !(← atMark ")") then pure (← g.assignment c.bracketed).code
    else pure []
  let _ ← eatMark ","
  expectMark ")"
  return ⟨.dynamicImport, .none, false, source.code ++ options⟩

/-- An expression that begins with the word `import`. -/
def importExpression (g : Grammar) (c : Context) : Parser Expr := do
  expectWord "import"
  if ← eatMark "." then
    if ← eatWord "meta" then return .plain []
    if (← eatWord "source") || (← eatWord "defer") then importCall g c
    else refuse
  else importCall g c

/-- The word `super`, which a property or a call must follow. -/
def superExpression : Parser Expr := do
  expectWord "super"
  let t ← token
  require (t.isMark "." || t.isMark "[" || t.isMark "(")
  return .plain []

/-- An expression that begins with the word `new`. -/
def newExpression (g : Grammar) (c : Context) : Parser Expr := do
  expectWord "new"
  if ← eatMark "." then
    expectWord "target"
    return .plain []
  let callee ← g.callee c
  require (callee.shape != .dynamicImport)
  let args ← if ← atMark "(" then arguments g c else pure []
  return .plain (callee.code ++ args)

/-- An operand in the form of a word. -/
def wordExpression (g : Grammar) (c : Context) (t : Token) : Parser Expr := do
  match t.text with
  | "this" | "null" | "true" | "false" =>
      advance
      return .plain []
  | "function" =>
      let (_, node) ← functionHere g c false false
      return .plain [node]
  | "import" => importExpression g c
  | "super" => superExpression
  | "new" => newExpression g c
  | _ =>
      if ← atAsyncFunction then
        let (_, node) ← functionHere g c false false
        return .plain [node]
      let name ← identifier c
      return ⟨.name name.text, .simple, false, [.reference name.span name.text]⟩

/-- The property behind a point. -/
def dottedName : Parser Unit := do
  let t ← token
  require (t.kind == .word || t.kind == .privateName)
  shift

/-- A property between brackets. -/
def indexed (g : Grammar) (c : Context) : Parser (List Node) := do
  expectMark "["
  let e ← expression g c.bracketed
  expectMark "]"
  return e.code

/-- An expression with the properties, templates and calls read behind it so far. -/
structure Chain where
  value : Expr
  /-- An optional step was among them. -/
  optional : Bool

/-- One more optional step behind `?.`. -/
def optionalStep (g : Grammar) (c : Context) (calls : Bool) (code : List Node) :
    Parser Chain := do
  expectMark "?."
  if ← atMark "[" then
    return ⟨.plain (code ++ (← indexed g c)), true⟩
  if calls && (← atMark "(") then
    return ⟨.plain (code ++ (← arguments g c)), true⟩
  dottedName
  return ⟨.plain code, true⟩

/-- The properties, templates and, if `calls`, calls behind an expression. -/
def chain (g : Grammar) (c : Context) (calls : Bool) (first : Expr) : Parser Chain :=
  loop ⟨first, false⟩ fun ch => do
    let made (code : List Node) : Expr := if ch.optional then .plain code else .property code
    let t ← token
    if t.isMark "." then
      advance
      dottedName
      return .inl ⟨made ch.value.code, ch.optional⟩
    else if t.isMark "[" && !c.inDecorator then
      let index ← indexed g c
      return .inl ⟨made (ch.value.code ++ index), ch.optional⟩
    else if t.isMark "?." then
      return .inl (← optionalStep g c calls ch.value.code)
    else if t.kind == .template true || t.kind == .template false then
      require !ch.optional
      let code ← template g c true
      return .inl ⟨.plain (ch.value.code ++ code), ch.optional⟩
    else if calls && t.isMark "(" then
      let args ← arguments g c
      return .inl ⟨.plain (ch.value.code ++ args), ch.optional⟩
    else return .inr ch

/-- A class expression behind its decorators. -/
def classExpression (g : Grammar) (c : Context) : Parser Expr := do
  let start ← here
  let decoration ← decorators g c
  let (_, node) ← classFrom g c false start decoration
  return .plain [node]

/-- An operand without the properties and calls behind it. -/
def primary (g : Grammar) (c : Context) : Parser Expr := do
  let t ← token
  match t.kind with
  | .word =>
      if t.text == "class" then classExpression g c
      else wordExpression g c t
  | .number =>
      shift
      return .plain []
  | .string =>
      shift
      return ⟨.text, .none, false, []⟩
  | .template _ => return .plain (← template g c false)
  | .mark =>
      match t.text with
      | "(" => parenthesized g c
      | "[" => array g c
      | "\x7b" => object g c
      | "/" => regex
      | "/=" => regex
      | "@" => classExpression g c
      | _ => refuse
  | _ => refuse

/-- A call, property or simpler operand: what can stand left of an assignment. -/
def operand (g : Grammar) (c : Context) : Parser Expr := do
  let first ← primary g c
  return (← chain g c true first).value

/-- The operand of `new`: no calls, and no optional steps. -/
def callee (g : Grammar) (c : Context) : Parser Expr := do
  let first ← primary g c
  let ch ← chain g c false first
  require !ch.optional
  return ch.value

/-- The words and punctuators that stand before their operand. -/
def isPrefixOperator (t : Token) : Bool :=
  match t.kind with
  | .mark => t.text == "+" || t.text == "-" || t.text == "~" || t.text == "!"
  | .word => t.text == "delete" || t.text == "void" || t.text == "typeof"
  | _ => false

/-- The word `await` is an operator here. -/
def atAwait (c : Context) : Parser Bool := do
  if ← atWord "await" then
    if c.inAsync then return true
    peekIs startsOperand
  else return false

/-- An operand with the update operator that may stand on either side. -/
def update (g : Grammar) (c : Context) : Parser Expr := do
  let t ← token
  if t.isMark "++" || t.isMark "--" then
    advance
    let e ← g.unary c
    updateTarget e
    return .plain e.code
  let e ← operand g c
  let after ← token
  if (after.isMark "++" || after.isMark "--") && !after.newline then
    updateTarget e
    advance
    return .plain e.code
  return e

/-- An operand with the operators that stand before it. -/
def unary (g : Grammar) (c : Context) : Parser Expr := do
  if isPrefixOperator (← token) then
    advance
    let e ← g.unary c
    return ⟨.unary, .none, false, e.code⟩
  if ← atAwait c then
    require c.inAsync
    advance
    let e ← g.unary c
    return ⟨.unary, .none, false, e.code⟩
  update g c

/-- A test for a private name: `#x in` and an operand. -/
def privateTest (g : Grammar) (c : Context) (level : Nat) : Parser Expr := do
  require (level < 8)
  shift
  expectWord "in"
  let e ← g.binary c 8
  require (e.shape != .privateTest)
  return ⟨.privateTest, .none, false, e.code⟩

/-- Operators that bind tighter than `level`, with their operands.  The operator `??` does not mix
with `&&` and `||`, and `**` does not follow a prefix operator. -/
def binary (g : Grammar) (c : Context) (level : Nat) : Parser Expr := do
  let first ←
    if c.inOperator && (← token).kind == .privateName then privateTest g c level
    else unary g c
  loop first fun left => do
    let t ← token
    match strength? t with
    | none => return .inr left
    | some n =>
        if n < level || (n == level && n != 12) then return .inr left
        if t.isWord "in" && !c.inOperator then return .inr left
        advance
        require !(n == 12 && left.shape == .unary)
        let right ← g.binary c n
        require !(n == 1 && (left.shape == .logical || right.shape == .logical))
        let shape := if n == 2 || n == 3 then Shape.logical else .other
        return .inl ⟨shape, .none, false, left.code ++ right.code⟩

/-- A `yield` expression. -/
def yieldExpression (g : Grammar) (c : Context) : Parser Expr := do
  require c.inGenerator
  advance
  let t ← token
  if t.newline then return .plain []
  if ← eatMark "*" then return .plain (← g.assignment c).code
  if t.kind == .finish || t.isWord "in"
      || (t.kind == .mark && [")", "]", "\x7d", ",", ";", ":"].contains t.text) then
    return .plain []
  return .plain (← g.assignment c).code

/-- The word `yield` is an operator here. -/
def atYield (c : Context) : Parser Bool := do
  if ← atWord "yield" then
    if c.inGenerator then return true
    peekIs startsOperand
  else return false

/-- The rest of a conditional expression behind its test. -/
def conditional (g : Grammar) (c : Context) (test : Expr) : Parser Expr := do
  if ← eatMark "?" then
    let yes ← g.assignment { c with inOperator := true }
    expectMark ":"
    let no ← g.assignment c
    return .plain (test.code ++ yes.code ++ no.code)
  else return test

/-- The rest of an assignment behind its target. -/
def assignmentRest (g : Grammar) (c : Context) (left : Expr) : Parser Expr := do
  let plain ← atMark "="
  if plain then assignTo left else updateTarget left
  advance
  let right ← g.assignment c
  return ⟨.other, .none, plain, left.targetCode ++ right.code⟩

/-- An expression without commas outside brackets. -/
def assignment (g : Grammar) (c : Context) : Parser Expr := do
  if ← atYield c then return ← yieldExpression g c
  if let some e ← parenthesizedArrow? g c then return e
  if let some e ← asyncArrow? g c then return e
  let start ← here
  let left ← binary g c 0
  let t ← token
  match left.shape with
  | .name name =>
      if t.isMark "=>" then return ← simpleArrow g c start false name
  | _ => pure ()
  if t.kind == .mark && assignmentMarks.contains t.text then assignmentRest g c left
  else conditional g c left

end Parser
end Syntax
end EsModules
