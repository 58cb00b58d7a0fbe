import Constituency.Decimal.Binary64

/-!
# The fewest decimal digits that name a binary value

A decimal names a binary value when it lies in the interval of reals that round
to it. Among the decimals with the fewest significant digits that do, the one
nearest to the value is taken, the larger one when two are equally near.
-/

namespace Constituency.Decimal

/-- A whole number times a power of ten. -/
structure Digits where
  /-- The digits, read as one whole number. -/
  whole : Nat
  /-- The power of ten of the last digit. -/
  exponent : Int
  deriving DecidableEq, Repr

/-- A positive value in quarters of its last place, with the quarters below and above it that
round to it; the ends belong to the interval when the significand is even. -/
structure Interval where
  /-- The value, four quarters for each unit of the significand. -/
  value : Nat
  /-- Quarters down to the lower end. -/
  below : Nat
  /-- Quarters up to the upper end. -/
  above : Nat
  /-- Whether the ends round to the value. -/
  closed : Bool
  /-- The power of two of one quarter. -/
  exponent : Int

/-- The reals that round to a significand times a power of two; below a power of two the
neighbour is twice as near. -/
def Interval.of (significand : Nat) (exponent : Int) : Interval where
  value := 4 * significand
  below := if significand = fullSignificand ∧ leastExponent < exponent then 1 else 2
  above := 2
  closed := significand % 2 == 0
  exponent := exponent - 2

/-- Whether a decimal lies in the interval. -/
def Interval.holds (interval : Interval) (d : Digits) : Bool :=
  let place := d.whole * (powerAbove 10 d.exponent * powerBelow 2 interval.exponent)
  let quarter := powerAbove 2 interval.exponent * powerBelow 10 d.exponent
  let low := (interval.value - interval.below) * quarter
  let high := (interval.value + interval.above) * quarter
  if interval.closed then low ≤ place && place ≤ high else low < place && place < high

/-- The least power of ten above the value; the search starts just below it. -/
def Interval.magnitude (interval : Interval) : Int :=
  let bits : Int := (interval.value.log2 : Int) + interval.exponent
  let start : Int := bits * 30103 / 100000 - 1
  let exceeds (k : Int) : Bool :=
    interval.value * powerAbove 2 interval.exponent * powerBelow 10 k
      < powerAbove 10 k * powerBelow 2 interval.exponent
  (((List.range 6).map (fun (i : Nat) => start + i)).find? exceeds).getD (start + 6)

/-- Of the two neighbours of the value with a given last place, the nearer one that names it. -/
def Interval.neighbour? (interval : Interval) (exponent : Int) : Option Digits :=
  let value :=
    interval.value * (powerAbove 2 interval.exponent * powerBelow 10 exponent)
  let place := powerAbove 10 exponent * powerBelow 2 interval.exponent
  let floor := value / place
  let lower : Digits := ⟨floor, exponent⟩
  let upper : Digits := ⟨floor + 1, exponent⟩
  if 2 * (value % place) < place then
    if interval.holds lower then some lower
    else if interval.holds upper then some upper else none
  else if interval.holds upper then some upper
  else if interval.holds lower then some lower else none

/-- The digits of a positive value; seventeen always suffice. -/
def shortest (significand : Nat) (exponent : Int) : Digits :=
  let interval := Interval.of significand exponent
  let magnitude := interval.magnitude
  ((List.range 17).findSome? (fun (n : Nat) => interval.neighbour? (magnitude - 1 - n))).getD
    ⟨interval.value, 0⟩

end Constituency.Decimal
