import Constituency.Symbol
import Constituency.Weight

/-!
# Grammar rules

A rule expands its left symbol into the symbols of its right side. Its kind
follows from the length of the right side and, for a single symbol, from
whether that symbol is a word or a category of the grammar.
-/

namespace Constituency

/-- The shape of a right side. -/
inductive RuleKind where
  /-- One word. -/
  | terminal
  /-- One category. -/
  | unit
  /-- Two symbols. -/
  | binary
  /-- Three symbols or more. -/
  | long
  deriving DecidableEq, Repr

/-- The kind that the length alone tells; a single symbol passes for a word. -/
def RuleKind.ofLength : Nat → RuleKind
  | 0 => .terminal
  | 1 => .terminal
  | 2 => .binary
  | _ => .long

/-- A grammar rule with its weight. -/
structure Rule (W : Type) where
  /-- The category expanded. -/
  left : Symbol
  /-- What it is expanded into. -/
  right : List Symbol
  /-- The shape of the right side. -/
  kind : RuleKind
  /-- The weight of one use. -/
  weight : W
  deriving BEq, DecidableEq, Repr

/-- Replaces the first occurrence of two neighbours by one symbol. -/
def mergePair? (first second new : Symbol) : List Symbol → Option (List Symbol)
  | a :: b :: rest =>
    if a = first ∧ b = second then some (new :: rest)
    else (mergePair? first second new (b :: rest)).map (a :: ·)
  | _ => none

namespace Rule

variable {W : Type}

/-- A rule of provisional kind; none if the right side is empty. -/
def ofSides? (left : Symbol) (right : List Symbol) (weight : W) : Option (Rule W) :=
  if right.isEmpty then none else some ⟨left, right, .ofLength right.length, weight⟩

/-- Whether the rule expands a category into itself. -/
def isLoop (r : Rule W) : Bool :=
  r.kind == .unit && r.right.head? == some r.left

/-- The kind of a right side, in a grammar where `heads` tells the left symbols. -/
def kindAmong (heads : Symbol → Bool) : List Symbol → RuleKind
  | [s] => if s.isWordlike || !heads s then .terminal else .unit
  | right => .ofLength right.length

/-- The rule with the kind it has in a grammar where `heads` tells the left symbols. -/
def assignKind (heads : Symbol → Bool) (r : Rule W) : Rule W :=
  { r with kind := kindAmong heads r.right }

/-- Replaces the first occurrence of two neighbours on the right side; a right side that comes
down to two symbols makes a binary rule. -/
def mergePair (first second new : Symbol) (r : Rule W) : Rule W :=
  match mergePair? first second new r.right with
  | some right => { r with right, kind := if right.length = 2 then .binary else r.kind }
  | none => r

end Rule

end Constituency
