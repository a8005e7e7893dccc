/-!
# Readers

A reader takes characters from the front of a text, or fails.  Readers of small data formats are
built from the steps of this module.
-/

namespace EsModules
namespace Text

/-- Reads a value from the front of a text. -/
abbrev Reader (α : Type) : Type :=
  StateT (List Char) Option α

namespace Reader

/-- The next character, which stays in front. -/
def peek? : Reader (Option Char) := do
  return (← get).head?

/-- Takes the next character. -/
def next : Reader Char := do
  match ← get with
  | [] => failure
  | c :: rest =>
      set rest
      return c

/-- Takes a given character. -/
def expect (c : Char) : Reader Unit := do
  if (← next) == c then return ()
  failure

/-- Takes the longest run of characters that satisfy `p`. -/
def takeWhile (p : Char → Bool) : Reader (List Char) :=
  modifyGet (·.span p)

/-- Drops the longest run of characters that satisfy `p`. -/
def skipWhile (p : Char → Bool) : Reader Unit :=
  modify (·.dropWhile p)

/-- Takes a given text if it stands in front, and tells whether it did. -/
def accept (text : String) : Reader Bool := do
  let here ← get
  if text.toList.isPrefixOf here then
    set (here.drop text.length)
    return true
  return false

/-- The whole text has been taken. -/
def atEnd : Reader Bool := do
  return (← get).isEmpty

/-- Repeats a step until it gives a result, at most `bound` times. -/
def iterate {σ α : Type} (step : σ → Reader (σ ⊕ α)) : (bound : Nat) → σ → Reader α
  | 0, _ => failure
  | bound + 1, state => do
      match ← step state with
      | .inl state => iterate step bound state
      | .inr result => return result

/-- Repeats a step that takes at least one character whenever it goes on. -/
def loop {σ α : Type} (start : σ) (step : σ → Reader (σ ⊕ α)) : Reader α := do
  iterate step ((← get).length + 1) start

/-- Reads a whole text. -/
def all? {α : Type} (reader : Reader α) (text : String) : Option α :=
  match reader.run text.toList with
  | some (a, []) => some a
  | _ => none

end Reader

/-- The value of a hexadecimal digit. -/
def hexValue? (c : Char) : Option Nat :=
  if '0' ≤ c && c ≤ '9' then some (c.toNat - '0'.toNat)
  else if 'a' ≤ c && c ≤ 'f' then some (c.toNat - 'a'.toNat + 10)
  else if 'A' ≤ c && c ≤ 'F' then some (c.toNat - 'A'.toNat + 10)
  else none

/-- A number of exactly `count` hexadecimal digits, added to those read before. -/
def hexNumber : (count : Nat) → (before : Nat) → Reader Nat
  | 0, before => return before
  | count + 1, before => do
      match hexValue? (← Reader.next) with
      | some digit => hexNumber count (before * 16 + digit)
      | none => failure

/-- The character with a code, which must not be a surrogate. -/
def charOfCode? (code : Nat) : Option Char :=
  if code.isValidChar then some (Char.ofNat code) else none

end Text
end EsModules
