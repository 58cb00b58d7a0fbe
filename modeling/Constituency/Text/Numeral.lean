/-!
# Numerals of bounded natural numbers

A count is written with the digits zero to nine, after a plus sign if one
wishes, and stays below two to the sixty-fourth power. The digits are read from
the left, so the first fault met is the one reported.
-/

namespace Constituency.Text

/-- Why a text is not the numeral of a count. -/
inductive NumeralError where
  /-- A character is not a digit, or no digit is there. -/
  | invalidDigit
  /-- The number reaches the limit. -/
  | tooLarge
  deriving DecidableEq, Repr

/-- The wording of the fault. -/
def NumeralError.message : NumeralError → String
  | .invalidDigit => "invalid digit found in string"
  | .tooLarge => "number too large to fit in target type"

/-- The first number too large for a count. -/
def countLimit : Nat := 0x10000000000000000

/-- Reads further digits behind the number read so far. -/
def readDigits (value : Nat) : List Char → Except NumeralError Nat
  | [] => .ok value
  | c :: cs =>
    if c.isDigit then
      let next := value * 10 + (c.toNat - '0'.toNat)
      if next < countLimit then readDigits next cs else .error .tooLarge
    else .error .invalidDigit

/-- Reads the numeral of a count. -/
def readCount (s : String) : Except NumeralError Nat :=
  let digits :=
    match s.toList with
    | '+' :: rest => rest
    | all => all
  if digits.isEmpty then .error .invalidDigit else readDigits 0 digits

end Constituency.Text
