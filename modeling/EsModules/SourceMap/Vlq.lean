import EsModules.SourceMap.Mapping

/-!
# Mappings as text

A source map writes its mappings line by line.  Lines end at a semicolon, the mappings of a line
are parted by commas, and each is a row of numbers, all but the first column of a line relative to
the mapping before.  Numbers are written in digits of base 32, lowest first, with the sign in the
lowest bit.
-/

namespace EsModules
namespace SourceMap

/-- The digit of base 64 for a value. -/
def base64Digit (n : Nat) : Char :=
  if n < 26 then Char.ofNat (n + 65)
  else if n < 52 then Char.ofNat (n - 26 + 97)
  else if n < 62 then Char.ofNat (n - 52 + 48)
  else if n == 62 then '+'
  else '/'

/-- The digits of a number, lowest first; all but the last are marked as having more behind
them. -/
def vlqDigits : Nat → Nat → List Char
  | 0, n => [base64Digit (n % 32)]
  | limit + 1, n =>
      if n < 32 then [base64Digit n]
      else base64Digit (n % 32 + 32) :: vlqDigits limit (n / 32)

/-- A signed number. -/
def vlq (n : Int) : List Char :=
  let m := if n < 0 then 2 * n.natAbs + 1 else 2 * n.natAbs
  vlqDigits m m

/-- The distance from one number to another. -/
def delta (before after : Nat) : List Char :=
  vlq (Int.ofNat after - Int.ofNat before)

/-- The values that the next mapping is relative to. -/
structure Base where
  generated : Place
  origin : Place
  name : Nat
  /-- The current line has no mapping yet. -/
  fresh : Bool
  deriving Repr, Inhabited

/-- The names that mappings carry, each once, in the order of their first mention. -/
def names (mappings : List Mapping) : List String :=
  (mappings.filterMap (·.name)).foldl (fun ns n => if ns.contains n then ns else ns ++ [n]) []

/-- The text of mappings, relative to what came before. -/
def segments (table : List String) : Base → List Mapping → List Char
  | _, [] => []
  | base, m :: rest =>
      let skipped := m.generated.line - base.generated.line
      let column := if skipped == 0 then base.generated.column else 0
      let separator := if base.fresh || skipped != 0 then [] else [',']
      let index := m.name.map fun n => table.findIdx (· == n)
      let name := (index.map (delta base.name)).getD []
      List.replicate skipped ';' ++ separator
        ++ delta column m.generated.column
        ++ vlq 0
        ++ delta base.origin.line m.origin.line
        ++ delta base.origin.column m.origin.column
        ++ name
        ++ segments table ⟨m.generated, m.origin, index.getD base.name, false⟩ rest

/-- The text of all mappings of a source map. -/
def encodeMappings (mappings : List Mapping) : String :=
  String.ofList (segments (names mappings) ⟨⟨0, 0⟩, ⟨0, 0⟩, 0, true⟩ mappings)

end SourceMap
end EsModules
