import EsModules.Syntax.Grammar

/-!
# Binding patterns and property keys
-/

namespace EsModules
namespace Syntax
namespace Parser

/-- The key of a property. -/
structure Key where
  /-- The name it spells, unless it is computed. -/
  name : Option String
  /-- A word, which can stand for a variable of the same name. -/
  word : Option Token
  /-- A private name. -/
  isPrivate : Bool
  code : List Node

/-- A property key: a word, string, number, computed key or private name. -/
def propertyKey (g : Grammar) (c : Context) : Parser Key := do
  let t ← token
  match t.kind with
  | .word =>
      shift
      return ⟨some t.text, some t, false, []⟩
  | .string =>
      shift
      return ⟨some t.text, none, false, []⟩
  | .number =>
      shift
      return ⟨none, none, false, []⟩
  | .privateName =>
      shift
      return ⟨some t.text, none, true, []⟩
  | _ =>
      expectMark "["
      let e ← g.assignment c.bracketed
      expectMark "]"
      return ⟨none, none, false, e.code⟩

/-- An initializer behind an equals sign, if there is one. -/
def initializer? (g : Grammar) (c : Context) : Parser (Option (List Node)) := do
  if ← eatMark "=" then
    let e ← g.assignment c
    return some e.code
  else return none

/-- A binding pattern with an optional default. -/
def bindingElement (g : Grammar) (c : Context) : Parser Binder := do
  let p ← g.pattern c
  match ← initializer? g { c with inOperator := true } with
  | some code => return ⟨.withDefault p.pattern, p.code ++ code⟩
  | none => return p

/-- The binding of the remaining elements or properties, which comes last. -/
def restElement (g : Grammar) (c : Context) (close : String) : Parser Binder := do
  expectMark "..."
  let p ← g.pattern c
  require (← atMark close)
  return p

/-- One property of an object pattern. -/
def bindingProperty (g : Grammar) (c : Context) : Parser Binder := do
  if ← atMark "..." then
    let p ← restElement g c "\x7d"
    require p.single
    return ⟨.rest p.pattern, p.code⟩
  if (← token).isName && !(← peekIs (·.isMark ":")) then
    let t ← identifier c
    match ← initializer? g c.bracketed with
    | some code => return ⟨.withDefault (.name t.text), code⟩
    | none => return ⟨.name t.text, []⟩
  let key ← propertyKey g c
  require !key.isPrivate
  expectMark ":"
  let p ← bindingElement g c
  return ⟨p.pattern, key.code ++ p.code⟩

/-- One element of an array pattern, or none if it is left out. -/
def arrayBinding (g : Grammar) (c : Context) : Parser (List Binder) := do
  if ← atMark "," then return []
  if ← atMark "..." then
    let p ← restElement g c "]"
    return [⟨.rest p.pattern, p.code⟩]
  return [← bindingElement g c]

/-- A binding pattern without default. -/
def pattern (g : Grammar) (c : Context) : Parser Binder := do
  if ← eatMark "\x7b" then
    let (properties, _) ← commaList "\x7d" (bindingProperty g c)
    return ⟨.object (properties.map (·.pattern)), properties.flatMap (·.code)⟩
  if ← eatMark "[" then
    let (elements, _) ← commaList "]" (arrayBinding g c)
    return ⟨.array (elements.flatten.map (·.pattern)), elements.flatten.flatMap (·.code)⟩
  let t ← identifier c
  return ⟨.name t.text, []⟩

end Parser
end Syntax
end EsModules
