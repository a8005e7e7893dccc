import EsModules.Syntax.Lexer

/-!
# Parsers over tokens

A parser looks at the current token and either consumes tokens and answers or refuses the text.
The state is a value, so looking ahead and trying a reading are plain function calls.
-/

namespace EsModules
namespace Syntax

/-- The place where a text stops being a module. -/
structure Fault where
  offset : Nat
  /-- Parentheses found on the way that do not begin an arrow function. -/
  ruledOut : List Nat
  deriving DecidableEq, Repr, Inhabited

/-- Where a parser stands. -/
structure ParseState where
  /-- The current token. -/
  token : Token
  /-- The place behind the current token. -/
  behind : Cursor
  /-- The end of the last token consumed. -/
  lastEnd : Nat
  /-- The number of steps a loop may take: more than the text has characters. -/
  limit : Nat
  /-- Object shorthands with an initializer that no assignment has made a default yet. -/
  openShorthands : List Nat
  /-- Parentheses known not to begin an arrow function. -/
  ruledOut : List Nat
  deriving Inhabited

/-- A parser of values of type `α`. -/
abbrev Parser (α : Type) : Type :=
  StateT ParseState (Except Fault) α

namespace Parser

/-- Refuses the text at the current token. -/
def refuse {α : Type} : Parser α :=
  fun s => .error ⟨s.token.span.start, s.ruledOut⟩

/-- Refuses the text unless the condition holds. -/
def require (condition : Bool) : Parser Unit :=
  if condition then pure () else refuse

/-- The current token. -/
def token : Parser Token :=
  fun s => .ok (s.token, s)

/-- The start of the current token. -/
def here : Parser Nat :=
  fun s => .ok (s.token.span.start, s)

/-- The span from `start` to the end of the last token consumed. -/
def spanFrom (start : Nat) : Parser Span :=
  fun s => .ok (⟨start, s.lastEnd⟩, s)

/-- Consumes the current token whatever it is, unless the text is over. -/
def shift : Parser Unit :=
  fun s =>
    if s.token.kind == .finish then .error ⟨s.behind.offset, s.ruledOut⟩
    else
      match Token.read s.limit s.behind with
      | some (token, behind) =>
          .ok ((), { s with token := token, behind := behind, lastEnd := s.token.span.stop })
      | none => .error ⟨s.behind.offset, s.ruledOut⟩

/-- Consumes the current token as a keyword or punctuator, which has no escapes. -/
def advance : Parser Unit := do
  let t ← token
  require !(t.kind == .word && t.escaped)
  shift

/-- Reads the closing brace of an expression in a template again, with the stretch of the template
behind it. -/
def resumeTemplate : Parser Unit :=
  fun s =>
    match readTemplate false s.behind.offset s.behind.rest with
    | some stretch =>
        let span := ⟨s.token.span.start, stretch.behind.offset⟩
        let token := ⟨.template stretch.closed, span, "", false, stretch.malformed⟩
        .ok ((), { s with token := token, behind := stretch.behind })
    | none => .error ⟨s.behind.offset, s.ruledOut⟩

/-- Reads the current slash again, as the beginning of a regular expression. -/
def resumeRegex : Parser Unit :=
  fun s =>
    let opened : Cursor :=
      if s.token.text == "/=" then ⟨s.behind.offset - 1, '=' :: s.behind.rest⟩ else s.behind
    match readRegex opened with
    | some behind =>
        let span := ⟨s.token.span.start, behind.offset⟩
        .ok ((), { s with token := ⟨.regex, span, "", s.token.newline, false⟩, behind := behind })
    | none => .error ⟨s.behind.offset, s.ruledOut⟩

/-- The token behind the current one, if it can be read. -/
def peek : Parser (Option Token) :=
  fun s => .ok ((Token.read s.limit s.behind).map (·.1), s)

/-- Runs a parser and goes back; `none` if it refuses. -/
def lookahead {α : Type} (p : Parser α) : Parser (Option α) :=
  fun s =>
    match p s with
    | .ok (a, _) => .ok (some a, s)
    | .error _ => .ok (none, s)

/-- Runs a parser, and goes back if it refuses, keeping what it has ruled out. -/
def attempt {α : Type} (p : Parser α) : Parser (Option α) :=
  fun s =>
    match p s with
    | .ok (a, after) => .ok (some a, after)
    | .error fault => .ok (none, { s with ruledOut := fault.ruledOut })

/-- The current token is the punctuator `mark`. -/
def atMark (mark : String) : Parser Bool :=
  return (← token).isMark mark

/-- The current token is the word `word`. -/
def atWord (word : String) : Parser Bool :=
  return (← token).isWord word

/-- Consumes the punctuator `mark` if it is the current token. -/
def eatMark (mark : String) : Parser Bool := do
  if ← atMark mark then
    advance
    return true
  else return false

/-- Consumes the word `word` if it is the current token. -/
def eatWord (word : String) : Parser Bool := do
  if ← atWord word then
    advance
    return true
  else return false

/-- Consumes the punctuator `mark`, which must be the current token. -/
def expectMark (mark : String) : Parser Unit := do
  require (← eatMark mark)

/-- Consumes the word `word`, which must be the current token. -/
def expectWord (word : String) : Parser Unit := do
  require (← eatWord word)

/-- The token behind the current one satisfies `p`. -/
def peekIs (p : Token → Bool) : Parser Bool :=
  return ((← peek).map p).getD false

/-- Ends a statement: a semicolon, or a place where one may be left out. -/
def semicolon : Parser Unit := do
  if ← eatMark ";" then return ()
  let t ← token
  require (t.isMark "\x7d" || t.kind == .finish || t.newline)

/-- Repeats a step until it gives a result, at most `n` times. -/
def iterate {σ α : Type} (step : σ → Parser (σ ⊕ α)) : Nat → σ → Parser α
  | 0, _ => refuse
  | n + 1, acc => do
      match ← step acc with
      | .inl next => iterate step n next
      | .inr result => return result

/-- Repeats a step until it gives a result.  Every step that goes on consumes a token, so the
limit of the state is never reached. -/
def loop {σ α : Type} (init : σ) (step : σ → Parser (σ ⊕ α)) : Parser α := do
  iterate step (← get).limit init

/-- The items of a list up to the punctuator `close`, with commas between them.  Answers the items
and whether a comma stands behind the last one. -/
def commaList {α : Type} (close : String) (item : Parser α) : Parser (List α × Bool) :=
  loop ([], false) fun (items, comma) => do
    if ← eatMark close then return .inr (items.reverse, comma)
    require (items.isEmpty || comma)
    let a ← item
    return .inl (a :: items, ← eatMark ",")

/-- The items up to the punctuator `close`, one after the other. -/
def itemsUntil {α : Type} (close : String) (item : Parser α) : Parser (List α) :=
  loop [] fun items => do
    if ← eatMark close then return .inr items.reverse
    let a ← item
    return .inl (a :: items)

end Parser
end Syntax
end EsModules
