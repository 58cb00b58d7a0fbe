import Constituency.Rule.Basic

/-!
# Orders of rules

Rules are compared by their left symbol, by their right side, or by both, the
one or the other first. A right side that begins another one is the lesser.
-/

namespace Constituency.Rule

variable {W : Type}

/-- By the left symbol. -/
def compareLeft (a b : Rule W) : Ordering :=
  compare a.left b.left

/-- By the right side, symbol by symbol. -/
def compareRight (a b : Rule W) : Ordering :=
  compare a.right b.right

/-- By the left symbol, then by the right side. -/
def compareLeftFirst (a b : Rule W) : Ordering :=
  (compareLeft a b).then (compareRight a b)

/-- By the right side, then by the left symbol. -/
def compareRightFirst (a b : Rule W) : Ordering :=
  (compareRight a b).then (compareLeft a b)

/-- Sorts rules; rules that compare equal keep their order. -/
def sort (order : Rule W → Rule W → Ordering) (rules : List (Rule W)) : List (Rule W) :=
  rules.mergeSort (fun a b => (order a b).isLE)

end Constituency.Rule
