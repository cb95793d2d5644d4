import Stencil.Number.Rounding
import Stencil.Number.Shortest

/-!
# The text of a double

Positional for values from 0.0001 up to but not including 10 ^ 16, with at least one digit on
either side of the point; beyond these bounds one digit, the other digits behind a point, and a
signed exponent of at least two digits.
-/

namespace Stencil.Binary64

/-- The digits of a number without the zeros at its end. -/
def trimZeros (ds : List Char) : List Char := (ds.reverse.dropWhile (· == '0')).reverse

/-- An exponent of ten with its sign and at least two digits. -/
def exponentText (e : Int) : List Char :=
  let ds := Nat.toDigits 10 e.natAbs
  (if e < 0 then '-' else '+') :: List.replicate (2 - ds.length) '0' ++ ds

/-- Significant digits and the place of the point in positional or exponent form. -/
def layout (ds : List Char) (place : Int) : List Char :=
  if -4 < place && place ≤ 16 then
    if place ≤ 0 then "0.".toList ++ List.replicate (-place).toNat '0' ++ ds
    else
      let n := place.toNat
      let whole := ds.take n ++ List.replicate (n - ds.length) '0'
      let fraction := ds.drop n
      whole ++ '.' :: (if fraction.isEmpty then ['0'] else fraction)
  else
    ds.take 1 ++ (if ds.length ≤ 1 then [] else '.' :: ds.drop 1) ++ 'e' :: exponentText (place - 1)

/-- The text of a double. -/
def text : Binary64 → String
  | .finite s m e =>
    let body :=
      if m = 0 then "0.0".toList
      else
        let d := shortest m e
        let ds := Nat.toDigits 10 d.1
        layout (trimZeros ds) (ds.length + d.2)
    String.ofList (if s then '-' :: body else body)
  | .infinite s => if s then "-inf" else "inf"
  | .nan _ => "nan"

end Stencil.Binary64
