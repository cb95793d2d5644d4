/-!
# Character sets as ranges of code points

Character classes outside the ASCII block are given by tables of ranges; this module holds the
type of such a table and its membership test.
-/

namespace Stencil.Text

/-- A set of characters: ranges of code points, both ends included. -/
abbrev Ranges := List (Nat × Nat)

/-- A character is in the set when some range covers its code point. -/
def Ranges.has (rs : Ranges) (c : Char) : Bool :=
  rs.any fun r => decide (r.1 ≤ c.toNat) && decide (c.toNat ≤ r.2)

theorem Ranges.has_iff (rs : Ranges) (c : Char) :
    rs.has c = true ↔ ∃ r ∈ rs, r.1 ≤ c.toNat ∧ c.toNat ≤ r.2 := by
  simp [Ranges.has]

end Stencil.Text
