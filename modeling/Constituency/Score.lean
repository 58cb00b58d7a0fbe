import Constituency.Weight

/-!
# Scores of derivations

Charts add up one score for each rule of a derivation. For a probability that
is its natural logarithm; plain rules add nothing. A pruned chart keeps the
better of two derivations.
-/

namespace Constituency

/-- The arithmetic and the ranking of scores. -/
class Score (S : Type) where
  /-- The score of a word, and of anything that adds nothing. -/
  zero : S
  /-- The score of two parts together. -/
  add : S → S → S
  /-- A score that none is worse than. -/
  lowest : S
  /-- Whether the first score is better than the second. -/
  better : S → S → Bool
  /-- Whether two scores are equally good. -/
  ties : S → S → Bool

/-- Logarithms of probabilities; that of zero is the lowest, and an undefined one is neither better
than another score nor ties with any. -/
instance : Score Float where
  zero := 0.0
  add := (· + ·)
  lowest := -1.0 / 0.0
  better a b := decide (b < a)
  ties a b := a == b

/-- Weights with scores of type `S`. -/
class WeightScore (W : Type) (S : outParam Type) where
  /-- What one use of a rule adds. -/
  ofWeight : W → S

instance : WeightScore Unit Float where
  ofWeight _ := 0.0

instance : WeightScore (Probability Float) Float where
  ofWeight p := p.value.log

end Constituency
