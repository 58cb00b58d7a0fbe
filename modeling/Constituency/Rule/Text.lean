import Constituency.Rule.Basic
import Constituency.Text.Blank
import Constituency.Text.Quoted

/-!
# The text of rules

A rule is written as its left symbol, an arrow and its right symbols, with the
weight in brackets at the end. A rule file holds one rule on each line that is
not blank.
-/

namespace Constituency

/-- Why a line is not a rule. -/
inductive RuleError where
  /-- There is no arrow. -/
  | missingArrow (line : String)
  /-- The left side is not one word. -/
  | badLeftSide (line : String)
  /-- The bracket does not hold a number. -/
  | badProbability (text line : String)
  /-- The number in the bracket is not a probability. -/
  | outOfRange (value : Float) (line : String)
  /-- There is no bracket where one is required. -/
  | missingProbability (line : String)
  /-- There is no symbol behind the arrow. -/
  | emptyRightSide (left : Symbol)

/-- The wording of a fault in a rule. -/
def RuleError.message : RuleError → String
  | .missingArrow line => "missing -> in rule " ++ Text.quoted line
  | .badLeftSide line => "bad left side in rule " ++ Text.quoted line
  | .badProbability text line =>
    "bad probability " ++ Text.quoted text ++ " in rule " ++ Text.quoted line ++
      ": invalid float literal"
  | .outOfRange value line =>
    "probability " ++ Decimal.numeral value ++ " out of range in rule " ++ Text.quoted line
  | .missingProbability line => "missing [probability] in rule " ++ Text.quoted line
  | .emptyRightSide left => "rule " ++ left.name ++ " has an empty right side"

namespace Rule

variable {W : Type}

/-- The text of a rule. -/
def text [WeightText W] (r : Rule W) : String :=
  r.left.name ++ " ->" ++ String.join (r.right.map (" " ++ ·.name)) ++ WeightText.trailer r.weight

/-- The text before the first arrow and the text behind it. -/
def splitArrow? : List Char → Option (List Char × List Char)
  | '-' :: '>' :: rest => some ([], rest)
  | c :: rest => (splitArrow? rest).map (fun sides => (c :: sides.1, sides.2))
  | [] => none

/-- What a bracket opened just before holds, if it holds one word and nothing follows it. -/
def bracketed? (cs : List Char) : Option (List Char) :=
  let inside := fun c => !Text.isBlank c && c != ']'
  let body := Text.dropBlanks cs
  let word := body.takeWhile inside
  match Text.dropBlanks (body.dropWhile inside) with
  | ']' :: rest => if !word.isEmpty && rest.all Text.isBlank then some word else none
  | _ => none

/-- Cuts off the bracket at the end of a right side. -/
def splitBracket : List Char → List Char × Option (List Char)
  | [] => ([], none)
  | c :: rest =>
    match if c == '[' then bracketed? rest else none with
    | some word => ([], some word)
    | none =>
      let (before, bracket) := splitBracket rest
      (c :: before, bracket)

/-- Reads the number in the bracket of a rule, which must lie between zero and one. -/
def readProbability (line : String) : Option (List Char) → Except RuleError (Option Float)
  | none => .ok none
  | some word =>
    let text := String.ofList word
    match Decimal.read? text with
    | none => .error (.badProbability text line)
    | some p => if 0.0 ≤ p && p ≤ 1.0 then .ok (some p) else .error (.outOfRange p line)

/-- Makes a rule of its sides. -/
def ofSides (left : Symbol) (right : List Symbol) (weight : W) : Except RuleError (Rule W) :=
  match ofSides? left right weight with
  | some r => .ok r
  | none => .error (.emptyRightSide left)

/-- Reads a rule. The sides are looked at first, then the bracket, then the length. -/
def read [WeightText W] (line : String) : Except RuleError (Rule W) := do
  let some (before, behind) := splitArrow? line.toList | throw (.missingArrow line)
  let left := Text.trimChars before
  if left.isEmpty || left.any Text.isBlank then throw (.badLeftSide line)
  let (body, bracket) := splitBracket behind
  let value ← readProbability line bracket
  let some weight := WeightText.ofBracket value | throw (.missingProbability line)
  ofSides ⟨String.ofList left⟩ ((Text.wordsOf body).map Symbol.mk) weight

end Rule

/-- Why a text is not a list of rules: the first line that is not a rule. -/
structure RulesError where
  /-- The number of the line. -/
  line : Nat
  /-- What is wrong with it. -/
  cause : RuleError

/-- The wording of a fault in a rule file. -/
def RulesError.message (e : RulesError) : String :=
  "rule line " ++ toString e.line ++ ": " ++ e.cause.message

/-- Reads one rule from each line that is not blank. -/
def Rule.readAll {W : Type} [WeightText W] (source : String) : Except RulesError (List (Rule W)) :=
  (Text.filledLines source).mapM fun (number, line) =>
    match Rule.read line with
    | .ok r => .ok r
    | .error cause => .error ⟨number, cause⟩

end Constituency
