import EsModules.Syntax.Grammar.Function

/-!
# Classes and decorators
-/

namespace EsModules
namespace Syntax
namespace Parser

/-- A token that can follow a modifier such as `get` or `static`: the beginning of a key. -/
def startsKey (t : Token) : Bool :=
  t.kind == .word || t.kind == .string || t.kind == .number || t.kind == .privateName
    || t.isMark "[" || t.isMark "*"

/-- Consumes the modifier `word` if a key follows it. -/
def eatModifier (word : String) (sameLine : Bool) : Parser Bool := do
  if (← atWord word) && (← peekIs fun t => startsKey t && !(sameLine && t.newline)) then
    advance
    return true
  else return false

/-- Decorators: an `@` and an operand each. -/
def decorators (g : Grammar) (c : Context) : Parser (List Node) :=
  loop [] fun code => do
    if ← eatMark "@" then
      let e ← g.operand { c with inDecorator := true }
      return .inl (code ++ e.code)
    else return .inr code

/-- The context of a field's initializer. -/
def fieldContext (c : Context) : Context :=
  { c.bracketed with inAsync := false, inGenerator := false }

/-- A static initialization block behind the word `static`. -/
def staticBlock (g : Grammar) (c : Context) : Parser (List Node) := do
  let code ← braced g
    { c.bracketed with inAsync := true, inGenerator := false, inFunction := false }
  return [.staticBlock code]

/-- A field behind its key, up to the end of the member. -/
def field (g : Grammar) (c : Context) (isStatic : Bool) (key : Key) : Parser (List Node) := do
  require !(key.name == some "constructor" && !key.isPrivate)
  require !(isStatic && key.name == some "prototype" && !key.isPrivate)
  let code ← initializer? g (fieldContext c)
  semicolon
  return key.code ++ code.getD []

/-- A method of a class behind its modifiers. -/
def classMethod
    (g : Grammar)
    (c : Context)
    (kind : MethodKind)
    (isStatic async generator : Bool)
    (key : Key) :
    Parser (List Node) := do
  let special := key.name == some "constructor" && !key.isPrivate && !isStatic
  require !(special && (kind != .plain || async || generator))
  require !(isStatic && key.name == some "prototype" && !key.isPrivate)
  let node ← method g c kind async generator
  return key.code ++ [node]

/-- The key of a class member; no private name is `constructor`. -/
def memberKey (g : Grammar) (c : Context) : Parser Key := do
  let key ← propertyKey g c
  require !(key.isPrivate && key.name == some "constructor")
  return key

/-- A member of a class behind its decorators and the word `static`. -/
def memberRest (g : Grammar) (c : Context) (isStatic : Bool) : Parser (List Node) := do
  if ← eatModifier "accessor" true then
    field g c isStatic (← memberKey g c)
  else if ← eatModifier "get" false then
    classMethod g c .getter isStatic false false (← memberKey g c)
  else if ← eatModifier "set" false then
    classMethod g c .setter isStatic false false (← memberKey g c)
  else
    let async ← eatModifier "async" true
    let generator ← eatMark "*"
    let key ← memberKey g c
    if async || generator || (← atMark "(") then
      classMethod g c .plain isStatic async generator key
    else field g c isStatic key

/-- A member of a class. -/
def member (g : Grammar) (c : Context) : Parser (List Node) := do
  if ← eatMark ";" then return []
  let decoration ← decorators g c
  if (← atWord "static") && (← peekIs (·.isMark "\x7b")) then
    advance
    return decoration ++ (← staticBlock g c)
  let isStatic ← eatModifier "static" false
  return decoration ++ (← memberRest g c isStatic)

/-- A class from the word `class` on, behind its decorators. -/
def classFrom
    (g : Grammar)
    (c : Context)
    (declared : Bool)
    (start : Nat)
    (decoration : List Node) :
    Parser (Option String × Node) := do
  let inner := { c with inDecorator := false }
  expectWord "class"
  let name ←
    if (← token).isName && !(← atWord "implements") then pure (some (← identifier inner).text)
    else pure none
  let heritage ← if ← eatWord "extends" then pure (← g.operand inner).code else pure []
  expectMark "\x7b"
  let members ← itemsUntil "\x7d" (member g inner)
  let node :=
    Node.classDef declared (← spanFrom start) name (decoration ++ heritage ++ members.flatten)
  return (name, node)

end Parser
end Syntax
end EsModules
