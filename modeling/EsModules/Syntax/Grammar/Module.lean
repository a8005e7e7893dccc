import EsModules.Syntax.Grammar.Class

/-!
# Import and export declarations
-/

namespace EsModules
namespace Syntax
namespace Parser

/-- A public name: a word, or a string without lone surrogates. -/
def publicName : Parser Token := do
  let t ← token
  require (t.kind == .word || (t.kind == .string && !t.escaped))
  shift
  return t

/-- The string that names another module. -/
def moduleSource : Parser String := do
  let t ← token
  require (t.kind == .string)
  shift
  return t.text

/-- One import attribute: its key. -/
def importAttribute : Parser String := do
  let t ← token
  require (t.kind == .word || t.kind == .string)
  shift
  expectMark ":"
  let _ ← moduleSource
  return t.text

/-- The attributes of an import, if there are any; their keys are distinct. -/
def importAttributes : Parser Unit := do
  let t ← token
  if t.isWord "with" || (t.isWord "assert" && !t.newline) then
    advance
    expectMark "\x7b"
    let (keys, _) ← commaList "\x7d" importAttribute
    require (decide keys.Nodup)

/-- The part of an import or export that names the other module, up to its end. -/
def fromClause : Parser String := do
  expectWord "from"
  let source ← moduleSource
  importAttributes
  semicolon
  return source

/-- One entry of an import list. -/
def importSpecifier (c : Context) : Parser ImportBinding := do
  let t ← publicName
  if ← eatWord "as" then
    return ⟨.ofName t.text, (← identifier c).text⟩
  require (t.isName && !(c.inAsync && t.text == "await"))
  return ⟨.ofName t.text, t.text⟩

/-- A namespace import or an import list. -/
def importList (c : Context) : Parser (List ImportBinding) := do
  if ← eatMark "*" then
    expectWord "as"
    return [⟨.whole, (← identifier c).text⟩]
  expectMark "\x7b"
  return (← commaList "\x7d" (importSpecifier c)).1

/-- Passes the phase of an import, `source` before a name or `defer` before a namespace. -/
def importPhase : Parser Unit := do
  if ← atWord "source" then
    let follows ← lookahead do
      advance
      let t ← token
      if t.isWord "from" then
        advance
        atWord "from"
      else return t.isName
    if follows.getD false then advance
  else if (← atWord "defer") && (← peekIs (·.isMark "*")) then advance

/-- The bindings of an import declaration. -/
def importBindings (c : Context) : Parser (List ImportBinding) := do
  if (← token).isName then
    let t ← identifier c
    if ← eatMark "," then return ⟨.default, t.text⟩ :: (← importList c)
    return [⟨.default, t.text⟩]
  importList c

/-- An import declaration. -/
def importDeclaration (c : Context) : Parser Item := do
  let start ← here
  expectWord "import"
  if (← token).kind == .string then
    let source ← moduleSource
    importAttributes
    semicolon
    return .imports (← spanFrom start) source []
  importPhase
  let bindings ← importBindings c
  let source ← fromClause
  return .imports (← spanFrom start) source bindings

/-- One entry of an export list: the name on this side as a token, and the public name. -/
def exportSpecifier : Parser (Token × String) := do
  let t ← publicName
  if ← eatWord "as" then return (t, (← publicName).text)
  return (t, t.text)

/-- An export list, from the opening brace on.  Without another module the names on this side are
names of bindings. -/
def exportList (start : Nat) : Parser Item := do
  expectMark "\x7b"
  let (entries, _) ← commaList "\x7d" exportSpecifier
  let specifiers := entries.map fun (t, exported) => ⟨t.text, exported⟩
  if ← atWord "from" then
    let source ← fromClause
    return .exportFrom (← spanFrom start) source specifiers
  require (entries.all (·.1.isName))
  semicolon
  return .exportList (← spanFrom start) specifiers

/-- The export of all names of another module, from the star on. -/
def exportAll (start : Nat) : Parser Item := do
  expectMark "*"
  let exported ← if ← eatWord "as" then pure (some (← publicName).text) else pure none
  let source ← fromClause
  return .exportAll (← spanFrom start) source exported

/-- A class behind its decorators, which may stand before the statement it belongs to. -/
def declaredClass (g : Grammar) (c : Context) (decoration : List Node) :
    Parser (Option String × Node) := do
  let start ← here
  let more ← decorators g c
  classFrom g c true start (decoration ++ more)

/-- An interface declaration with members that carry no type. -/
def interface (g : Grammar) (c : Context) : Parser (List Node) := do
  expectWord "interface"
  let _ ← identifier c
  let heritage ←
    if ← eatWord "extends" then
      loop ([] : List Node) fun code => do
        let e ← g.operand c
        if ← eatMark "," then return .inl (code ++ e.code) else return .inr (code ++ e.code)
    else pure []
  expectMark "\x7b"
  let members ← itemsUntil "\x7d" do
    let key ← propertyKey g c
    if !(← eatMark ",") then semicolon
    return key.code
  return heritage ++ members.flatten

/-- A default export, from the word `default` on. -/
def exportDefault (g : Grammar) (c : Context) (start : Nat) (decoration : List Node) :
    Parser Item := do
  expectWord "default"
  let inner ← here
  let t ← token
  if t.isWord "class" || t.isMark "@" then
    let (name, node) ← declaredClass g c decoration
    return .exportDefault (← spanFrom start) (← spanFrom inner) (.classDef name) [node]
  require decoration.isEmpty
  if t.isWord "function" || (← atAsyncFunction) then
    let (name, node) ← functionHere g c true false
    return .exportDefault (← spanFrom start) (← spanFrom inner) (.function name) [node]
  if t.isWord "abstract" && (← peekIs fun n => n.isWord "class" && !n.newline) then
    advance
    let (name, node) ← classFrom g c true inner []
    return .exportDefault (← spanFrom start) (← spanFrom inner) (.classDef name) [node]
  if t.isWord "interface" && (← peekIs fun n => !n.newline) then
    let code ← interface g c
    return .exportDefault (← spanFrom start) (← spanFrom inner) .interface code
  let e ← g.assignment c
  let innerSpan ← spanFrom inner
  semicolon
  let value := match e.shape with
    | .name name => DefaultValue.name name
    | _ => .expression
  return .exportDefault (← spanFrom start) innerSpan value e.code

end Parser
end Syntax
end EsModules
