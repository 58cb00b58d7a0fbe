import Constituency.Symbol

/-!
# Faults

What stops an operation that was called outside its domain, or that finds its
own data out of order. The second kind does not occur in grammars built by the
operations of this library.
-/

namespace Constituency

/-- Why an operation stopped. -/
inductive Fault where
  /-- No rule has the number. -/
  | noSuchRule
  /-- No node has the number. -/
  | noSuchNode
  /-- A span does not fit into a chart. -/
  | outsideChart (first last length : Nat)
  /-- A rule of the left index is not in the right index. -/
  | unindexedRule (left : Symbol) (right : List Symbol)
  /-- A rule would have no right side. -/
  | emptyRightSide (left : Symbol)
  /-- A rule that counts as long has no two leading symbols. -/
  | noLeadingPair (left : Symbol)
  /-- The indices of a converted grammar disagree. -/
  | indicesOutOfSync
  deriving DecidableEq, Repr

/-- The wording of a fault. -/
def Fault.message : Fault → String
  | .noSuchRule => "Invalid RuleId"
  | .noSuchNode => "Invalid NodeIdx"
  | .outsideChart first last length =>
    "span " ++ toString first ++ ".." ++ toString last ++ " outside chart of " ++ toString length
  | .unindexedRule left right =>
    "rule " ++ left.name ++ " ->" ++ String.join (right.map (" " ++ ·.name)) ++
      " is missing from the right index"
  | .emptyRightSide left => "rule " ++ left.name ++ " has an empty right side"
  | .noLeadingPair left => "long rule " ++ left.name ++ " has no leading pair"
  | .indicesOutOfSync => "indices out of sync after conversion"

end Constituency
