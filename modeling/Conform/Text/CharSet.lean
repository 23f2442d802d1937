/-!
# Sets of characters given by ranges

A `CharSet` is a list of ranges of code points, both ends included.  The modules beside this one
hold the sets of a character standard that reading and writing need.
-/

namespace Conform

/-- A set of characters, as ranges of code points. -/
structure CharSet where
  ranges : List (Nat × Nat)

def CharSet.contains (s : CharSet) (c : Char) : Bool :=
  s.ranges.any fun r => r.1 ≤ c.toNat && c.toNat ≤ r.2

end Conform
