import Constituency.Score
import Constituency.Tree.Basic

/-!
# Candidates

A candidate is a derivation of a part of the sentence: a tree whose nodes carry
a symbol and the score of everything below. A cell either keeps all candidates
or, for each symbol, the best one.
-/

namespace Constituency

/-- What a node of a candidate carries. -/
structure ScoredSymbol (S : Type) where
  /-- The symbol. -/
  symbol : Symbol
  /-- The score of the subtree. -/
  score : S
  deriving BEq, DecidableEq, Repr

/-- A derivation of a part of a sentence. -/
abbrev Candidate (S : Type) := Tree (ScoredSymbol S)

namespace Candidate

variable {S : Type}

/-- The symbol that the candidate derives its words from. -/
def symbol (c : Candidate S) : Symbol :=
  c.label.symbol

/-- The score of the candidate. -/
def score (c : Candidate S) : S :=
  c.label.score

/-- The tree of the symbols. -/
def toTree (c : Candidate S) : Tree Symbol :=
  c.map ScoredSymbol.symbol

/-- The candidates with a symbol. -/
def withSymbol (start : Symbol) (cell : List (Candidate S)) : List (Candidate S) :=
  cell.filter (symbol · == start)

/-- Adds a candidate to a cell that keeps the best one of each symbol; the earlier one stays unless
the later one is better. -/
def keepBetter [Score S] (cell : List (Candidate S)) (new : Candidate S) : List (Candidate S) :=
  match cell with
  | [] => [new]
  | old :: rest =>
    if symbol old = symbol new then
      (if Score.better (score new) (score old) then new else old) :: rest
    else old :: keepBetter rest new

/-- The best candidate of each symbol, in the order in which the symbols first occur. -/
def pruned [Score S] (candidates : List (Candidate S)) : List (Candidate S) :=
  candidates.foldl keepBetter []

end Candidate

end Constituency
