import Constituency.Store.Basic

/-!
# Looking up rules

Rules are looked up by their left symbol or by their right side. Each answer is
the stretch of a sorted list that compares equal, in the order of that list.
-/

namespace Constituency.Store

variable {W : Type}

/-- The numbers of the rules with a left symbol, in the order of the left list. -/
def idsWithLeft (s : Store W) (left : Symbol) : List RuleNumber :=
  (Sorted.run (s.compareAt (compare ·.left left)) s.byLeft).toList

/-- The numbers of the rules with a right side, in the order of the right list. -/
def idsWithRight (s : Store W) (right : List Symbol) : List RuleNumber :=
  (Sorted.run (s.compareAt (compare ·.right right)) s.byRight).toList

/-- The rules with a left symbol. -/
def withLeft (s : Store W) (left : Symbol) : List (Rule W) :=
  (s.idsWithLeft left).filterMap s.rule?

/-- The rules with a right side, whatever their kind. -/
def withRight (s : Store W) (right : List Symbol) : List (Rule W) :=
  (s.idsWithRight right).filterMap s.rule?

/-- The rules that expand a category into the given word. -/
def wordRules (s : Store W) (word : Symbol) : List (Rule W) :=
  (s.withRight [word]).filter (·.kind == .terminal)

/-- The rules that expand a category into the given two symbols. -/
def pairRules (s : Store W) (first second : Symbol) : List (Rule W) :=
  s.withRight [first, second]

/-- The left symbols, each once. -/
def leftSides (s : Store W) : List Symbol :=
  (s.rules.map Rule.left).eraseDups

/-- The left symbols of the rules for words, each once. -/
def tags (s : Store W) : List Symbol :=
  ((s.rules.filter (·.kind == .terminal)).map Rule.left).eraseDups

end Constituency.Store
