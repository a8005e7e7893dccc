/-!
# Intervals of code points

A character class of the Unicode standard is a union of closed intervals of code points.  This
module decides membership in such a union.
-/

namespace EsModules
namespace Text

/-- Whether a code point lies in one of the closed intervals. -/
def inIntervals (intervals : List (Nat × Nat)) (code : Nat) : Bool :=
  intervals.any fun i => i.1 ≤ code && code ≤ i.2

end Text
end EsModules
