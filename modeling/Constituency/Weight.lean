import Constituency.Decimal.Numeral

/-!
# Rule weights

Every rule carries a weight. Plain grammars weigh nothing, probabilistic ones
carry a probability and the number of times the rule was counted. Two weights
are composed when one rule is applied inside another, and the rules that a
conversion adds have a weight that changes no product.
-/

namespace Constituency

/-- What conversions need of a weight. -/
class Weight (W : Type) where
  /-- The weight of a rule whose only right symbol is expanded at once by a second rule. -/
  compose : W → W → W
  /-- The weight of a rule for a helper symbol. -/
  neutral : W

instance : Weight Unit where
  compose _ _ := ()
  neutral := ()

/-- The arithmetic of probabilities. -/
class ProbabilityNumber (R : Type) extends Add R, Mul R where
  /-- The probability of the impossible. -/
  zero : R
  /-- The probability of the certain. -/
  one : R
  /-- A count out of a total. -/
  ratio : Nat → Nat → R
  /-- Where a sum of probabilities starts. -/
  emptySum : R

/-- Sums start at negative zero, which every addend replaces. -/
instance : ProbabilityNumber Float where
  zero := 0.0
  one := 1.0
  ratio count total := count.toFloat / total.toFloat
  emptySum := -0.0

/-- The probability of a rule, and how often it was counted. -/
structure Probability (R : Type) where
  /-- The probability. -/
  value : R
  /-- The number of uses counted so far. -/
  count : Nat
  deriving BEq, DecidableEq, Repr

namespace Probability

variable {R : Type}

/-- A probability that was not counted. -/
def ofValue (value : R) : Probability R := ⟨value, 0⟩

/-- Counts one more use. -/
def countOnce (p : Probability R) : Probability R := { p with count := p.count + 1 }

/-- Makes the probability the share of the count in a total. -/
def share [ProbabilityNumber R] (p : Probability R) (total : Nat) : Probability R :=
  { p with value := ProbabilityNumber.ratio p.count total }

instance [ProbabilityNumber R] : Weight (Probability R) where
  compose outer inner := ofValue (outer.value * inner.value)
  neutral := ofValue ProbabilityNumber.one

end Probability

/-- How a weight is written behind a rule, and read back. -/
class WeightText (W : Type) where
  /-- What follows the right side. -/
  trailer : W → String
  /-- The weight for the bracketed number of a rule, if it has one; none where one is required. -/
  ofBracket : Option Float → Option W

/-- Plain rules show no weight and pass over a bracketed one. -/
instance : WeightText Unit where
  trailer _ := ""
  ofBracket _ := some ()

/-- Probabilistic rules end with their probability in brackets. -/
instance : WeightText (Probability Float) where
  trailer p := " [" ++ Decimal.numeral p.value ++ "]"
  ofBracket := Option.map Probability.ofValue

end Constituency
