import Constituency.Chart.Basic
import Constituency.Chart.Candidate
import Constituency.Store.Lookup

/-!
# Filling a chart

A cell of one word holds what the rules for the word give. A cell of several
words joins the candidates of two neighbouring spans by the rules with two
right symbols, for every place to cut the span. Rules of other shapes are
passed over, so the grammar should be in normal form.
-/

namespace Constituency.Store

variable {W S : Type} [Score S] [WeightScore W S]

/-- The candidates for one word. -/
def wordCandidates (s : Store W) (word : Symbol) : List (Candidate S) :=
  (s.wordRules word).map fun r =>
    .node ⟨r.left, WeightScore.ofWeight r.weight⟩ [.leaf ⟨word, Score.zero⟩]

/-- The candidates that join two neighbouring ones. -/
def pairCandidates (s : Store W) (left right : Candidate S) : List (Candidate S) :=
  (s.pairRules left.symbol right.symbol).map fun r =>
    .node ⟨r.left, Score.add (Score.add (WeightScore.ofWeight r.weight) left.score) right.score⟩
      [left, right]

/-- The candidates for a span of several words: the first part is the shortest first. -/
def splitCandidates (s : Store W) (cell : Nat → Nat → List (Candidate S)) (first last : Nat) :
    List (Candidate S) :=
  (List.range (last - first)).flatMap fun k =>
    (cell first (first + k)).flatMap fun left =>
      (cell (first + k + 1) last).flatMap fun right => s.pairCandidates left right

/-- The candidates for a span, from the cells of the spans inside it. -/
def spanCandidates (s : Store W) (words : List Symbol) (cell : Nat → Nat → List (Candidate S))
    (first last : Nat) : List (Candidate S) :=
  if first = last then (words[first]?.map s.wordCandidates).getD []
  else s.splitCandidates cell first last

/-- The chart of a sentence; `keep` chooses among the candidates of a cell. -/
def chart (s : Store W) (keep : List (Candidate S) → List (Candidate S)) (words : List Symbol) :
    Chart (Candidate S) :=
  .fill words.length fun cell first last => keep (s.spanCandidates words cell first last)

end Constituency.Store
