/-!
# Decimal text of numbers

Exact fractions are rounded to binary floating point and to a fixed number of decimal places.
Both roundings go to the nearest neighbour, and a tie goes to the even one.
-/

namespace EsModules
namespace Text

/-- A nonnegative fraction. -/
structure Fraction where
  num : Nat
  den : Nat
  deriving DecidableEq, Repr, Inhabited

/-- The integer nearest to `num / den`; a tie goes to the even neighbour. -/
def roundDiv (num den : Nat) : Nat :=
  let quotient := num / den
  let twice := 2 * (num % den)
  if twice < den then quotient
  else if twice == den then quotient + quotient % 2
  else quotient + 1

namespace Fraction

/-- The sum of two fractions. -/
def add (a b : Fraction) : Fraction :=
  ⟨a.num * b.den + b.num * a.den, a.den * b.den⟩

/-- The nearest fraction with 53 binary digits. -/
def toBinary (a : Fraction) : Fraction :=
  if a.num == 0 then ⟨0, 1⟩
  else
    let up := 53 + a.den.log2
    let down := a.num.log2
    -- `num / den` times the scale has 53 or 54 binary digits.
    let scaled : Fraction := ⟨a.num <<< up, a.den <<< down⟩
    let extra := if 1 <<< 53 ≤ scaled.num / scaled.den then 2 else 1
    ⟨roundDiv scaled.num (scaled.den * extra) * extra <<< down, 1 <<< up⟩

/-- The fraction with a fixed number of decimal places. -/
def fixed (places : Nat) (a : Fraction) : String :=
  let units := roundDiv (a.num * Nat.pow 10 places) a.den
  let digits := (Nat.toDigits 10 units).leftpad (places + 1) '0'
  let whole := digits.take (digits.length - places)
  String.ofList (whole ++ '.' :: digits.drop (digits.length - places))

end Fraction

/-- The text of a decimal number without an exponent and without needless zeros. -/
def plainDecimal (negative : Bool) (whole fraction : List Char) (exponent : Int) : String :=
  let digits := (whole ++ fraction).dropWhile (· == '0')
  let point := (whole.length : Int) + exponent - ((whole ++ fraction).length - digits.length)
  let digits := (digits.reverse.dropWhile (· == '0')).reverse
  let front := point.toNat
  let body :=
    if digits.isEmpty then ['0']
    else if point ≤ 0 then '0' :: '.' :: List.replicate (-point).toNat '0' ++ digits
    else if digits.length ≤ front then digits ++ List.replicate (front - digits.length) '0'
    else digits.take front ++ '.' :: digits.drop front
  String.ofList (if negative then '-' :: body else body)

end Text
end EsModules
