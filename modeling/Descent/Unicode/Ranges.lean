/-!
# Sets of code points

A set of code points is given by the closed ranges it consists of. The tables beside this module are
such sets.
-/

namespace Descent.Unicode

/-- A set of code points: the first and the last of each range. -/
abbrev Ranges := List (Nat × Nat)

/-- Whether the character lies in one of the ranges. -/
def Ranges.covers (ranges : Ranges) (c : Char) : Bool :=
  ranges.any fun r => r.1 ≤ c.toNat && c.toNat ≤ r.2

end Descent.Unicode
