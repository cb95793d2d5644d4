/-!
# Double-precision numbers

A double is kept as a sign, a whole mantissa and a power of two, so that comparing it with another
double or with an integer is exact arithmetic on whole numbers.
-/

namespace Stencil

/-- A double-precision number. A finite one is `mantissa * 2 ^ exponent` with a sign; a NaN carries
a payload that tells one occurrence from another. -/
inductive Binary64
  | finite (negative : Bool) (mantissa : Nat) (exponent : Int)
  | infinite (negative : Bool)
  | nan (payload : Nat)
  deriving DecidableEq, Repr, Inhabited

/-- A point of the extended number line: a whole multiple of a power of two, or an infinity. -/
inductive Exact
  | dyadic (mantissa exponent : Int)
  | infinite (negative : Bool)
  deriving DecidableEq, Repr, Inhabited

namespace Exact

/-- An integer as a point of the line. -/
def ofInt (n : Int) : Exact := .dyadic n 0

/-- Order on the extended line. Multiples of different powers are brought to the smaller one. -/
def compare : Exact → Exact → Ordering
  | .dyadic m e, .dyadic n f =>
    Ord.compare (m * Int.pow 2 (e - f).toNat) (n * Int.pow 2 (f - e).toNat)
  | .infinite s, .dyadic _ _ => if s then .lt else .gt
  | .dyadic _ _, .infinite s => if s then .gt else .lt
  | .infinite s, .infinite t => if s = t then .eq else if s then .lt else .gt

end Exact

namespace Binary64

/-- The zero of the given sign. -/
def zero (negative : Bool) : Binary64 := .finite negative 0 0

/-- The number as a point of the line; a NaN is none. -/
def point? : Binary64 → Option Exact
  | .finite s m e => some (.dyadic (if s then -(m : Int) else m) e)
  | .infinite s => some (.infinite s)
  | .nan _ => none

/-- Either zero. -/
def isZero : Binary64 → Bool
  | .finite _ m _ => m == 0
  | _ => false

end Binary64

end Stencil
