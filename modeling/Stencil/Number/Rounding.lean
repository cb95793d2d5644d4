import Stencil.Number.Binary64
import Stencil.Text.Digit

/-!
# From decimals to doubles

A decimal numeral denotes the double nearest to its value; a value half-way between two doubles
goes to the one with the even mantissa, and one beyond the largest double to infinity.
-/

namespace Stencil.Binary64

/-- The quotient rounded to the nearest whole number, a tie to the even neighbour. -/
def roundDiv (num den : Nat) : Nat :=
  let q := num / den
  let r := num % den
  if 2 * r < den then q else if den < 2 * r then q + 1 else q + q % 2

/-- The double nearest to `num / den`. Its exponent puts the mantissa below `2 ^ 53` and is never
smaller than that of the smallest positive double. -/
def ofRatio (negative : Bool) (num den : Nat) : Binary64 :=
  if num = 0 || den = 0 then zero negative else
  let l : Int := (num.log2 : Int) - den.log2
  let top : Int := if den * Nat.pow 2 l.toNat ≤ num * Nat.pow 2 (-l).toNat then l else l - 1
  let e : Int := max (top - 52) (-1074)
  let m := roundDiv (num * Nat.pow 2 (-e).toNat) (den * Nat.pow 2 e.toNat)
  let carried := m = Nat.pow 2 53
  let m' := if carried then Nat.pow 2 52 else m
  let e' := if carried then e + 1 else e
  if e' > 971 then .infinite negative else .finite negative m' e'

/-- The double nearest to `coefficient * 10 ^ exponent`. -/
def ofDecimal (negative : Bool) (coefficient : Nat) (exponent : Int) : Binary64 :=
  ofRatio negative (coefficient * Nat.pow 10 exponent.toNat)
    (Nat.pow 10 (-exponent).toNat)

/-- The double that a positional numeral denotes: an optional minus sign, digits, a point, digits.
The digits may be of any script. -/
def ofPositional (negative : Bool) (whole fraction : List Char) : Binary64 :=
  ofDecimal negative (Text.digitsValue (whole ++ fraction)) (-(fraction.length : Int))

/-- Reads a numeral in the notation of `Binary64.text`: positional or with a decimal exponent, or
one of the words for the infinities and NaN. The payload is given to a NaN that is read. -/
def ofText? (payload : Nat) (s : String) : Option Binary64 :=
  let cs := s.toList
  let negative := cs.head? == some '-'
  let body := if negative then cs.drop 1 else cs
  if body = "inf".toList then some (.infinite negative)
  else if body = "nan".toList then some (.nan payload)
  else
    let plain := body.takeWhile (· != 'e')
    let power := (body.dropWhile (· != 'e')).drop 1
    let powerNegative := power.head? == some '-'
    let powerDigits := if powerNegative || power.head? == some '+' then power.drop 1 else power
    let whole := plain.takeWhile (· != '.')
    let fraction := (plain.dropWhile (· != '.')).drop 1
    if (whole ++ fraction).isEmpty || !(whole ++ fraction ++ powerDigits).all Text.isPlainDigit then
      none
    else
      let p : Int := Text.digitsValue powerDigits
      let p := if powerNegative then -p else p
      some (ofDecimal negative (Text.digitsValue (whole ++ fraction)) (p - fraction.length))

end Stencil.Binary64
