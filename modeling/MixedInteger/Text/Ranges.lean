/-!
# Sets of characters

A set of characters is a list of ranges of codes, both ends belonging to a range.
-/

namespace MixedInteger.Text

/-- The first and the last code of each range, in increasing order. -/
structure Ranges where
  bounds : List (Nat × Nat)

namespace Ranges

def covers (r : Ranges) (c : Char) : Bool :=
  r.bounds.any fun b => b.1 ≤ c.toNat && c.toNat ≤ b.2

end Ranges

end MixedInteger.Text
