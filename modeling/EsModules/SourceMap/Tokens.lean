import EsModules.SourceMap.Vlq

/-!
# Mappings read from text

How the mappings of a source map are read: the text is cut into lines at semicolons and lines into
segments at commas.  A segment holds one, four or five numbers, which say how far a column of the
output, a source, a line and a column of it and a name lie from those of the segment before.  The
column begins anew on each line, and an empty segment says nothing.
-/

namespace EsModules
namespace SourceMap

/-! ### Numbers -/

/-- The value of a digit of base 64. -/
def base64Value? (c : Char) : Option Nat :=
  if 'A' ≤ c && c ≤ 'Z' then some (c.toNat - 'A'.toNat)
  else if 'a' ≤ c && c ≤ 'z' then some (c.toNat - 'a'.toNat + 26)
  else if '0' ≤ c && c ≤ '9' then some (c.toNat - '0'.toNat + 52)
  else if c == '+' then some 62
  else if c == '/' then some 63
  else none

/-- The numbers that digits stand for, without signs.  A digit from 32 on has higher digits of its
number behind it. -/
def unsignedNumbers? : List Char → Option (List Nat)
  | [] => some []
  | c :: cs => do
      let digit ← base64Value? c
      let numbers ← unsignedNumbers? cs
      if digit < 32 then return digit :: numbers
      match numbers with
      | [] => none
      | high :: numbers => return (digit - 32 + 32 * high) :: numbers

/-- A number with its sign in the lowest bit. -/
def signedNumber (n : Nat) : Int :=
  if n % 2 = 0 then Int.ofNat (n / 2) else -Int.ofNat (n / 2)

/-- The numbers of a segment. -/
def numbers? (segment : List Char) : Option (List Int) :=
  (unsignedNumbers? segment).map (List.map signedNumber)

/-! ### Segments -/

/-- A place of the output, and the source, the place in it and the name that belong to it.
Sources and names are given by their index. -/
structure Token where
  generated : Place
  origin : Option (Nat × Place)
  name : Option Nat
  deriving DecidableEq, Repr

/-- The values that the next segment is relative to. -/
structure Reached where
  generated : Place
  source : Nat
  origin : Place
  name : Nat
  deriving DecidableEq, Repr

/-- The number at a distance from another one; none is negative. -/
def moved? (before : Nat) (distance : Int) : Option Nat :=
  (Int.ofNat before + distance).toNat?

namespace Reached

/-- The beginning of the next line. -/
def nextLine (r : Reached) : Reached :=
  { r with generated := ⟨r.generated.line + 1, 0⟩ }

/-- The token for the numbers of a segment, and the values that the next one is relative to. -/
def token? (r : Reached) : List Int → Option (Token × Reached)
  | [column] => do
      let generated := ⟨r.generated.line, ← moved? r.generated.column column⟩
      return (⟨generated, none, none⟩, { r with generated })
  | column :: source :: line :: originColumn :: name => do
      let generated := ⟨r.generated.line, ← moved? r.generated.column column⟩
      let source ← moved? r.source source
      let origin := ⟨← moved? r.origin.line line, ← moved? r.origin.column originColumn⟩
      match name with
      | [] => return (⟨generated, some (source, origin), none⟩, ⟨generated, source, origin, r.name⟩)
      | [name] =>
          let name ← moved? r.name name
          return (⟨generated, some (source, origin), some name⟩, ⟨generated, source, origin, name⟩)
      | _ => none
  | _ => none

end Reached

/-- The segments of a line that are not empty. -/
def segmentsOf (line : List Char) : List (List Char) :=
  (line.splitOn ',').filter (· != [])

/-- The tokens of the segments of a line. -/
def readSegments : Reached → List (List Char) → Option (List Token × Reached)
  | r, [] => some ([], r)
  | r, segment :: rest => do
      let (token, r) ← r.token? (← numbers? segment)
      let (tokens, r) ← readSegments r rest
      return (token :: tokens, r)

/-- The tokens of lines. -/
def readLines : Reached → List (List Char) → Option (List Token)
  | _, [] => some []
  | r, line :: rest => do
      let (tokens, r) ← readSegments r (segmentsOf line)
      return tokens ++ (← readLines r.nextLine rest)

/-- The tokens of a text, relative to what came before it. -/
def readFrom (r : Reached) (text : List Char) : Option (List Token) :=
  readLines r (text.splitOn ';')

/-- The tokens of the mappings of a source map. -/
def readMappings (text : List Char) : Option (List Token) :=
  readFrom ⟨⟨0, 0⟩, 0, ⟨0, 0⟩, 0⟩ text

end SourceMap
end EsModules
