/-!
# Binary floating-point values of 64 bits

A finite value is a whole significand times a power of two. Comparisons and
rounding are exact, over the natural numbers: a power with an integer exponent
is a quotient of two natural powers, one of which is one.
-/

namespace Constituency.Decimal

/-- What a word of 64 bits stands for. -/
inductive Binary64 where
  /-- Not a number. -/
  | undefined
  /-- An infinity. -/
  | unbounded (negative : Bool)
  /-- A significand times a power of two, zero included. -/
  | finite (negative : Bool) (significand : Nat) (exponent : Int)
  deriving DecidableEq, Repr

/-- The least exponent of a finite value. -/
def leastExponent : Int := -1074

/-- The significand from which on a value has the full precision. -/
def fullSignificand : Nat := 0x10000000000000

/-- The first word with a minus sign. -/
def negativeWord : Nat := 0x8000000000000000

/-- The word of positive infinity. -/
def unboundedWord : Nat := 2047 * fullSignificand

/-- Reads the sign, the exponent field and the fraction field of a word. -/
def Binary64.ofWord (word : Nat) : Binary64 :=
  let negative := decide (negativeWord ≤ word)
  let field := word / fullSignificand % 2048
  let fraction := word % fullSignificand
  if field = 2047 then if fraction = 0 then .unbounded negative else .undefined
  else if field = 0 then .finite negative fraction leastExponent
  else .finite negative (fullSignificand + fraction) (field - 1075)

/-- What a floating-point number stands for. -/
def Binary64.ofFloat (x : Float) : Binary64 :=
  .ofWord x.toBits.toNat

/-- The numerator of a power with an integer exponent. -/
def powerAbove (base : Nat) (exponent : Int) : Nat :=
  Nat.pow base exponent.toNat

/-- The denominator of a power with an integer exponent. -/
def powerBelow (base : Nat) (exponent : Int) : Nat :=
  Nat.pow base (-exponent).toNat

/-- The whole number nearest to a quotient; a half goes to the even neighbour. -/
def roundHalfEven (num den : Nat) : Nat :=
  let floor := num / den
  let twice := 2 * (num % den)
  if twice < den then floor
  else if den < twice then floor + 1
  else floor + floor % 2

/-- The word of the value nearest to a positive quotient, ties to the even significand. -/
def nearestWord (num den : Nat) : Nat :=
  let magnitude : Int := (num.log2 : Int) - den.log2
  let low : Int := max (magnitude - 53) leastExponent
  let exponent : Int :=
    if num * powerBelow 2 low < 2 * fullSignificand * (den * powerAbove 2 low) then low else low + 1
  let significand := roundHalfEven (num * powerBelow 2 exponent) (den * powerAbove 2 exponent)
  min ((exponent - leastExponent).toNat * fullSignificand + significand) unboundedWord

end Constituency.Decimal
