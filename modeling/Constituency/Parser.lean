import Constituency.Chart.Fill
import Constituency.Grammar.Words
import Constituency.Tree.NodeTable

/-!
# Parsing sentences

A sentence is a list of words. The exhaustive parser gives every derivation of
the start symbol, the pruning parser the best one with its score. In the trees
they give, helper symbols are spliced out, links to parents are filled in and
the words are those of the sentence.
-/

namespace Constituency.Grammar

variable {W S : Type} [Score S] [WeightScore W S]

/-- The chart with all candidates. -/
def chart (g : Grammar W) (words : List String) : Chart (Candidate S) :=
  g.store.chart id (g.tokenSymbols words)

/-- The chart with the best candidate of each symbol in each cell. -/
def bestChart (g : Grammar W) (words : List String) : Chart (Candidate S) :=
  g.store.chart Candidate.pruned (g.tokenSymbols words)

/-- The tree that is shown for a candidate. -/
def finish (g : Grammar W) (words : List String) (c : Candidate S) : NodeTable :=
  (((NodeTable.ofTree c.toTree).spliceHelpers g.isHelper).linkParents).restoreWords words

/-- The candidates for the whole sentence with the start symbol. -/
def goals (start : Symbol) (chart : Chart (Candidate S)) : List (Candidate S) :=
  Candidate.withSymbol start (chart.top?.getD [])

/-- The trees of all derivations of the start symbol. -/
def parse (g : Grammar W) (start : Symbol) (words : List String) : List NodeTable :=
  (goals start (g.chart words)).map (g.finish words)

/-- The best score of a list of candidates. -/
def bestScore (candidates : List (Candidate S)) : S :=
  candidates.foldl (fun best c => if Score.better c.score best then c.score else best) Score.lowest

/-- The trees of the best derivations of the start symbol, with their scores. -/
def parseBest (g : Grammar W) (start : Symbol) (words : List String) : List (NodeTable × S) :=
  let candidates := goals start (g.bestChart words)
  (candidates.filter fun c => Score.ties c.score (bestScore candidates)).map
    fun c => (g.finish words c, c.score)

end Constituency.Grammar
