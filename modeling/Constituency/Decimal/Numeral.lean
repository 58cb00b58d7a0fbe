import Constituency.Decimal.Shortest

/-!
# Decimal numerals

Numbers are printed with the fewest digits that read back, always by position
and never with an exponent. They are read with an optional sign, fraction and
exponent and rounded once, to the nearest value.
-/

namespace Constituency.Decimal

/-- Writes the digits by position: zeros fill up to the point on either side, and none ends a
fraction. -/
def Digits.positional (d : Digits) : String :=
  let digits := Nat.toDigits 10 d.whole
  if 0 ≤ d.exponent then
    String.ofList (digits ++ List.replicate d.exponent.toNat '0')
  else
    let places := (-d.exponent).toNat
    let padded := List.replicate (places + 1 - digits.length) '0' ++ digits
    let whole := padded.take (padded.length - places)
    let fraction := ((padded.drop (padded.length - places)).reverse.dropWhile (· == '0')).reverse
    if fraction.isEmpty then String.ofList whole
    else String.ofList (whole ++ '.' :: fraction)

/-- The sign of a negative number. -/
def signed (negative : Bool) (text : String) : String :=
  if negative then "-" ++ text else text

/-- The numeral of a floating-point number. -/
def numeral (x : Float) : String :=
  match Binary64.ofFloat x with
  | .undefined => "NaN"
  | .unbounded negative => signed negative "inf"
  | .finite negative significand exponent =>
    if significand = 0 then signed negative "0"
    else signed negative (shortest significand exponent).positional

/-- The number that digits spell. -/
def wholeOf (digits : List Char) : Nat :=
  digits.foldl (fun value c => value * 10 + (c.toNat - '0'.toNat)) 0

/-- Beyond these powers of ten every positive decimal rounds to zero or to infinity. -/
def decimalReach : Int := 400

/-- The word of the value nearest to a decimal. -/
def Digits.nearestWord (d : Digits) : Nat :=
  let magnitude : Int := (Nat.toDigits 10 d.whole).length + d.exponent
  if d.whole = 0 || magnitude < -decimalReach then 0
  else if decimalReach < magnitude then unboundedWord
  else Decimal.nearestWord (d.whole * powerAbove 10 d.exponent) (powerBelow 10 d.exponent)

/-- Reads an exponent behind its letter: digits after an optional sign. -/
def readExponent? (cs : List Char) : Option Int :=
  let digits (rest : List Char) : Option Int :=
    if !rest.isEmpty && rest.all Char.isDigit then some (wholeOf rest) else none
  match cs with
  | '-' :: rest => (digits rest).map (fun n => -n)
  | '+' :: rest => digits rest
  | rest => digits rest

/-- Reads digits with an optional point among them, then an optional exponent. -/
def readDigits? (cs : List Char) : Option Digits :=
  let whole := cs.takeWhile Char.isDigit
  let afterWhole := cs.dropWhile Char.isDigit
  let (fraction, rest) :=
    match afterWhole with
    | '.' :: more => (more.takeWhile Char.isDigit, more.dropWhile Char.isDigit)
    | more => ([], more)
  let digits (exponent : Int) : Digits :=
    ⟨wholeOf (whole ++ fraction), exponent - fraction.length⟩
  if whole.isEmpty && fraction.isEmpty then none
  else
    match rest with
    | [] => some (digits 0)
    | c :: more => if c == 'e' || c == 'E' then (readExponent? more).map digits else none

/-- The names of the values that are not finite, in lower case. -/
def specialWord? (name : String) : Option Nat :=
  if name == "inf" || name == "infinity" then some unboundedWord
  else if name == "nan" then some (unboundedWord + fullSignificand / 2)
  else none

/-- Reads the numeral of a floating-point number. -/
def read? (s : String) : Option Float :=
  let (negative, rest) :=
    match s.toList with
    | '-' :: more => (true, more)
    | '+' :: more => (false, more)
    | more => (false, more)
  let word? :=
    match readDigits? rest with
    | some d => some d.nearestWord
    | none => specialWord? (String.ofList (rest.map Char.toLower))
  word?.map (fun word => Float.ofBits (UInt64.ofNat (word + if negative then negativeWord else 0)))

end Constituency.Decimal
