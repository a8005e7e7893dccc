import EsModules.Syntax.Grammar.Expression
import EsModules.Syntax.Grammar.Module

/-!
# Statements
-/

namespace EsModules
namespace Syntax
namespace Parser

/-- One declared pattern, with the code of its initializer, and whether it has one. -/
structure Declarator where
  binder : Binder
  initialized : Bool

/-- The declarator needs no further initializer. -/
def Declarator.complete (d : Declarator) (kind : VariableKind) : Bool :=
  d.initialized || (d.binder.single && (kind == .var || kind == .let))

/-- The patterns of a variable declaration, with commas between them. -/
def declarators (g : Grammar) (c : Context) (kind : VariableKind) : Parser (List Declarator) :=
  loop [] fun ds => do
    let p ← g.pattern c
    require (kind != .using || p.single)
    let code ← initializer? g c
    let d : Declarator := ⟨{ p with code := p.code ++ code.getD [] }, code.isSome⟩
    if ← eatMark "," then return .inl (ds ++ [d]) else return .inr (ds ++ [d])

/-- The variable declaration that the declarators make up. -/
def bindingsNode (kind : VariableKind) (ds : List Declarator) : Node :=
  .bindings kind (ds.map (·.binder.pattern)) (ds.flatMap (·.binder.code))

/-- The kind of the declaration that begins with a word, which is consumed. -/
def variableKind : Parser VariableKind := do
  if ← eatWord "var" then return .var
  if ← eatWord "let" then return .let
  if ← eatWord "const" then return .const
  let _ ← eatWord "await"
  expectWord "using"
  return .using

/-- A variable declaration with its semicolon. -/
def variableDeclaration (g : Grammar) (c : Context) : Parser (VariableKind × List Declarator) := do
  let kind ← variableKind
  let ds ← declarators g c kind
  require (ds.all (·.complete kind))
  semicolon
  return (kind, ds)

/-- The words `using` and a name begin a declaration. -/
def usingFollows (c : Context) : Parser Bool := do
  if ← atWord "await" then
    if !c.inAsync then return false
    advance
    if (← token).newline then return false
  expectWord "using"
  let t ← token
  return t.isName && !t.newline

/-- A declaration with `using` begins here. -/
def atUsing (c : Context) : Parser Bool :=
  return (← lookahead (usingFollows c)).getD false

/-- The word `let` begins a declaration here. -/
def letDeclares (place : Place) : Parser Bool := do
  if !(← atWord "let") then return false
  match ← peek with
  | none => return true
  | some t =>
      if t.kind == .mark && assignmentMarks.contains t.text then return false
      if (strength? t).isSome || t.isMark "." || t.isMark "(" || t.isMark ";" then return false
      return place == .list || t.isMark "["

/-- A statement that begins at `start` and ends here. -/
def made (start : Nat) (code : List Node) : Parser Item :=
  return .statement (← spanFrom start) false code

/-- A statement that is the body of another one. -/
def bodyStatement (g : Grammar) (c : Context) : Parser (List Node) :=
  return (← g.statement c .body).code

/-- A block between braces. -/
def block (g : Grammar) (c : Context) : Parser Node := do
  let start ← here
  let code ← braced g c
  return .block (← spanFrom start) code

/-- An expression between parentheses that belongs to a statement. -/
def condition (g : Grammar) (c : Context) : Parser (List Node) := do
  expectMark "("
  let e ← expression g c.bracketed
  expectMark ")"
  return e.code

/-- An `if` statement. -/
def ifStatement (g : Grammar) (c : Context) : Parser (List Node) := do
  advance
  let test ← condition g c
  let yes ← bodyStatement g c
  if ← eatWord "else" then
    let no ← bodyStatement g c
    return test ++ yes ++ no
  return test ++ yes

/-- A `while` or `with` statement. -/
def headedStatement (g : Grammar) (c : Context) : Parser (List Node) := do
  advance
  let test ← condition g c
  let body ← bodyStatement g c
  return test ++ body

/-- A `do` statement. -/
def doStatement (g : Grammar) (c : Context) : Parser (List Node) := do
  advance
  let body ← bodyStatement g c
  expectWord "while"
  let test ← condition g c
  let _ ← eatMark ";"
  return body ++ test

/-- The head and body of a loop over the keys or members of a value, from `in` or `of` on. -/
def iteration (g : Grammar) (c : Context) (isAwait : Bool) (left : List Node) :
    Parser (LoopKind × List Node) := do
  let (kind, right) ←
    if ← eatWord "of" then pure (LoopKind.members, (← g.assignment c.bracketed).code)
    else do
      expectWord "in"
      require !isAwait
      pure (LoopKind.keys, (← expression g c.bracketed).code)
  expectMark ")"
  let body ← bodyStatement g c
  return (kind, left ++ right ++ body)

/-- An expression before the punctuator `close`, which may be left out. -/
def optionalExpression (g : Grammar) (c : Context) (close : String) : Parser (List Node) := do
  if ← eatMark close then return []
  let e ← expression g c.bracketed
  expectMark close
  return e.code

/-- The rest of a loop with three parts, from the first semicolon on. -/
def counting (g : Grammar) (c : Context) (isAwait : Bool) (init : List Node) :
    Parser (LoopKind × List Node) := do
  require !isAwait
  expectMark ";"
  let test ← optionalExpression g c ";"
  let step ← optionalExpression g c ")"
  let body ← bodyStatement g c
  return (.counting, init ++ test ++ step ++ body)

/-- A declaration begins in the head of a loop. -/
def atLoopDeclaration (c : Context) : Parser Bool := do
  if (← atWord "var") || (← atWord "const") then return true
  if ← atWord "let" then peekIs fun t => t.isName || t.isMark "[" || t.isMark "\x7b"
  else if (← atWord "using") && (← peekIs (·.isWord "of")) then return false
  else atUsing c

/-- The token begins the second part of a loop over the keys or members of a value. -/
def isMembership (t : Token) : Bool :=
  t.isWord "of" || t.isWord "in"

/-- A `for` statement: its kind, its head and its body. -/
def forStatement (g : Grammar) (c : Context) : Parser (LoopKind × List Node) := do
  advance
  let isAwait ←
    if ← atWord "await" then do
      require c.inAsync
      advance
      pure true
    else pure false
  expectMark "("
  let head := { c.bracketed with inOperator := false }
  if ← atMark ";" then counting g c isAwait []
  else if ← atLoopDeclaration c then
    let kind ← variableKind
    let ds ← declarators g head kind
    let t ← token
    if isMembership t then
      require !(kind == .using && t.isWord "in")
      iteration g c isAwait [bindingsNode kind ds]
    else
      require (ds.all (·.complete kind))
      counting g c isAwait [bindingsNode kind ds]
  else
    let first ← token
    let asyncOf := first.isWord "async" && (← peekIs (·.isWord "of"))
    let e ← expression g head
    let t ← token
    if isMembership t then
      require !(t.isWord "of" && (first.isWord "let" || (asyncOf && !isAwait)))
      assignTo e
      iteration g c isAwait e.targetCode
    else counting g c isAwait e.code

/-- A `return` statement. -/
def returnStatement (g : Grammar) (c : Context) : Parser (List Node) := do
  require c.inFunction
  advance
  let t ← token
  if t.isMark ";" || t.isMark "\x7d" || t.kind == .finish || t.newline then
    semicolon
    return []
  let e ← expression g c.bracketed
  semicolon
  return e.code

/-- A `throw` statement. -/
def throwStatement (g : Grammar) (c : Context) : Parser (List Node) := do
  advance
  require !(← token).newline
  let e ← expression g c.bracketed
  semicolon
  return e.code

/-- A `break` or `continue` statement with its optional label. -/
def jumpStatement (c : Context) : Parser (List Node) := do
  advance
  let t ← token
  if t.isName && !t.newline then
    let _ ← identifier c
  semicolon
  return []

/-- A `catch` clause. -/
def handler (g : Grammar) (c : Context) : Parser Node := do
  let start ← here
  expectWord "catch"
  let p ←
    if ← eatMark "(" then do
      let p ← g.pattern c
      expectMark ")"
      pure (some p)
    else pure none
  let body ← block g c
  return .handler (← spanFrom start) (p.map (·.pattern)) ((p.map (·.code)).getD [] ++ [body])

/-- A `try` statement. -/
def tryStatement (g : Grammar) (c : Context) : Parser (List Node) := do
  advance
  let body ← block g c
  let handled ← if ← atWord "catch" then pure [← handler g c] else pure []
  let final ← if ← eatWord "finally" then pure [← block g c] else pure []
  require !(handled.isEmpty && final.isEmpty)
  return body :: (handled ++ final)

/-- One case of a switch. -/
def switchCase (g : Grammar) (c : Context) : Parser (List Node) := do
  let test ←
    if ← eatWord "default" then pure []
    else do
      expectWord "case"
      pure (← expression g c.bracketed).code
  expectMark ":"
  loop test fun code => do
    if (← atWord "case") || (← atWord "default") || (← atMark "\x7d") then return .inr code
    let item ← g.statement c .list
    return .inl (code ++ item.code)

/-- A `switch` statement. -/
def switchStatement (g : Grammar) (c : Context) : Parser (List Node) := do
  let start ← here
  advance
  let subject ← condition g c
  expectMark "\x7b"
  let cases ← itemsUntil "\x7d" (switchCase g c)
  return [.switch (← spanFrom start) subject cases.flatten]

/-- An expression statement or a labelled statement. -/
def expressionStatement (g : Grammar) (c : Context) : Parser Item := do
  let start ← here
  let e ← expression g c.bracketed
  match e.shape with
  | .name _ =>
      if ← eatMark ":" then
        let body ← bodyStatement g c
        return ← made start body
  | _ => pure ()
  semicolon
  return .statement (← spanFrom start) (e.shape == .text) e.code

/-- The declaration behind the word `export`. -/
def exportedDeclaration (g : Grammar) (c : Context) (start : Nat) (decoration : List Node) :
    Parser Item := do
  let inner ← here
  let t ← token
  if t.isWord "class" || t.isMark "@" then
    let (name, node) ← declaredClass g c decoration
    return .exportDeclaration (← spanFrom start) (← spanFrom inner) (.classDef name) [node]
  require decoration.isEmpty
  if t.isWord "var" || t.isWord "let" || t.isWord "const" then
    let (kind, ds) ← variableDeclaration g c
    return .exportDeclaration (← spanFrom start) (← spanFrom inner)
      (.bindings (ds.map (·.binder.pattern))) [bindingsNode kind ds]
  require (t.isWord "function" || (← atAsyncFunction))
  let (name, node) ← functionHere g c true true
  return .exportDeclaration (← spanFrom start) (← spanFrom inner) (.function name) [node]

/-- An export declaration behind the decorators of its class. -/
def exportStatement (g : Grammar) (c : Context) (decoration : List Node) : Parser Item := do
  let start ← here
  expectWord "export"
  if ← atWord "default" then exportDefault g c start decoration
  else if (← atMark "*") && decoration.isEmpty then exportAll start
  else if (← atMark "\x7b") && decoration.isEmpty then exportList start
  else exportedDeclaration g c start decoration

/-- A class or an export behind decorators. -/
def decorated (g : Grammar) (c : Context) : Parser Item := do
  let start ← here
  let decoration ← decorators g c
  if ← atWord "export" then exportStatement g c decoration
  else
    let (_, node) ← classFrom g c true start decoration
    made start [node]

/-- A function declaration.  As the body of another statement it is a plain function. -/
def functionDeclaration (g : Grammar) (c : Context) (place : Place) : Parser Item := do
  let start ← here
  let isPlain := (← atWord "function") && !(← peekIs (·.isMark "*"))
  require (place == .list || isPlain)
  let (_, node) ← functionHere g c true true
  made start [node]

/-- A variable declaration as a statement. -/
def variableStatement (g : Grammar) (c : Context) : Parser Item := do
  let start ← here
  let (kind, ds) ← variableDeclaration g c
  made start [bindingsNode kind ds]

/-- A statement that begins with a word. -/
def wordStatement (g : Grammar) (c : Context) (place : Place) (t : Token) : Parser Item := do
  let start := t.span.start
  match t.text with
  | "if" => made start (← ifStatement g c)
  | "while" | "with" => made start (← headedStatement g c)
  | "do" => made start (← doStatement g c)
  | "for" =>
      let (kind, code) ← forStatement g c
      let span ← spanFrom start
      return .statement span false [.loop kind span code]
  | "switch" => made start (← switchStatement g c)
  | "try" => made start (← tryStatement g c)
  | "return" => made start (← returnStatement g c)
  | "throw" => made start (← throwStatement g c)
  | "break" | "continue" => made start (← jumpStatement c)
  | "debugger" =>
      advance
      semicolon
      made start []
  | "var" => variableStatement g c
  | "const" =>
      require (place == .list)
      variableStatement g c
  | "function" => functionDeclaration g c place
  | "class" =>
      require (place == .list)
      let (_, node) ← classFrom g c true start []
      made start [node]
  | "import" =>
      if ← peekIs fun n => n.isMark "(" || n.isMark "." then expressionStatement g c
      else importDeclaration c
  | "export" => exportStatement g c []
  | _ =>
      if ← letDeclares place then variableStatement g c
      else if (← atUsing c) && place == .list then variableStatement g c
      else if ← atAsyncFunction then functionDeclaration g c place
      else expressionStatement g c

/-- A statement. -/
def statement (g : Grammar) (c : Context) (place : Place) : Parser Item := do
  let t ← token
  if t.kind == .word then wordStatement g c place t
  else if t.isMark "\x7b" then
    let node ← block g c
    made t.span.start [node]
  else if t.isMark ";" then
    advance
    made t.span.start []
  else if t.isMark "@" then
    require (place == .list)
    decorated g c
  else expressionStatement g c

end Parser
end Syntax
end EsModules
