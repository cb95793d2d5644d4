import Stencil.Number.Binary64

/-!
# The shortest decimal of a double

Every finite double is written with the fewest significant digits that read back as the same
double; among numerals of that length the nearest one is taken, and of two equally near ones the
one with the even last digit. A numeral reads back when it lies in the interval of the reals that
round to the double; the ends of that interval belong to it when the mantissa is even.
-/

namespace Stencil.Binary64

/-- The number of decimal digits of a whole number. -/
def digitCount (n : Nat) : Nat := (Nat.toDigits 10 n).length

/-- The place of the decimal point: `10 ^ (p - 1) ≤ num / den < 10 ^ p` for positive numbers. -/
def pointPlace (num den : Nat) : Int :=
  if den ≤ num then digitCount (num / den)
  else 1 - (digitCount ((den - 1) / num) : Int)

/-- The reals that round to a double, over a common denominator. -/
structure Interval where
  low : Nat
  value : Nat
  high : Nat
  den : Nat
  closed : Bool

/-- The interval of `mantissa * 2 ^ exponent`. Below a power of two the doubles lie twice as
dense. -/
def interval (mantissa : Nat) (exponent : Int) : Interval :=
  let e := exponent - 2
  let below := if mantissa = Nat.pow 2 52 && decide (exponent > -1074) then 1 else 2
  let scale := Nat.pow 2 e.toNat
  { low := (4 * mantissa - below) * scale
    value := 4 * mantissa * scale
    high := (4 * mantissa + 2) * scale
    den := Nat.pow 2 (-e).toNat
    closed := mantissa % 2 == 0 }

/-- Whether `c * up / down` lies in the interval. -/
def Interval.has (i : Interval) (up down c : Nat) : Bool :=
  let x := c * up * i.den
  if i.closed then decide (i.low * down ≤ x) && decide (x ≤ i.high * down)
  else decide (i.low * down < x) && decide (x < i.high * down)

/-- The numeral with `count` digits that reads back and lies nearest, if there is one: digits and a
power of ten. -/
def decimalOfLength? (i : Interval) (place : Int) (count : Nat) : Option (Nat × Int) :=
  let unit := place - count
  let up := Nat.pow 10 unit.toNat
  let down := Nat.pow 10 (-unit).toNat
  let num := i.value * down
  let den := i.den * up
  let lower := num / den
  let r := num % den
  match i.has up down lower, i.has up down (lower + 1) with
  | true, true =>
    let upper := if 2 * r = den then lower % 2 == 1 else decide (den < 2 * r)
    some (if upper then lower + 1 else lower, unit)
  | true, false => some (lower, unit)
  | false, true => some (lower + 1, unit)
  | false, false => none

/-- The shortest decimal that reads back, as digits and a power of ten. Seventeen digits always
suffice. -/
def shortest (mantissa : Nat) (exponent : Int) : Nat × Int :=
  let i := interval mantissa exponent
  let place := pointPlace i.value i.den
  ((List.range 17).findSome? fun k => decimalOfLength? i place (k + 1)).getD (0, 0)

end Stencil.Binary64
