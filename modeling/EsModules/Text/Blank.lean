import EsModules.Text.Interval

/-!
# Blank characters

The characters with the property White_Space, and the trimming of a text by it.
-/

namespace EsModules
namespace Text

/-- The characters with the property White_Space. -/
def blankIntervals : List (Nat × Nat) :=
    [(0x9, 0xd), (0x20, 0x20), (0x85, 0x85), (0xa0, 0xa0), (0x1680, 0x1680), (0x2000, 0x200a),
     (0x2028, 0x2029), (0x202f, 0x202f), (0x205f, 0x205f), (0x3000, 0x3000)]

/-- A character with the property White_Space. -/
def isBlank (c : Char) : Bool :=
  inIntervals blankIntervals c.toNat

/-- Drops the characters at the end that satisfy `p`. -/
def dropEndWhile (p : Char → Bool) (cs : List Char) : List Char :=
  (cs.reverse.dropWhile p).reverse

/-- A text without the blank characters at its end. -/
def trimEnd (text : String) : String :=
  String.ofList (dropEndWhile isBlank text.toList)

/-- A text of blank characters only. -/
def isBlankText (text : String) : Bool :=
  text.toList.all isBlank

end Text
end EsModules
