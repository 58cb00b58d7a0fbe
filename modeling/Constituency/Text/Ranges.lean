import Constituency.Sorted

/-!
# Sets of characters given by ranges

A property of characters is written as an ascending array of disjoint ranges of
code points, first and last included. Membership is one bisection.
-/

namespace Constituency.Text

/-- Ascending, disjoint ranges of code points. -/
abbrev Ranges := Array (Nat × Nat)

/-- Whether some range holds the character. -/
def Ranges.holds (ranges : Ranges) (c : Char) : Bool :=
  match ranges[Sorted.lowerBound (fun range => decide (range.2 < c.toNat)) ranges]? with
  | some range => decide (range.1 ≤ c.toNat)
  | none => false

end Constituency.Text
