import Constituency.Grammar.Words
import Constituency.Score
import Constituency.Tree.LocalRule

/-!
# Grammars from treebanks

The leaves of all trees are counted first. Then each tree is normalized and
the rules at its nodes are collected. A probabilistic grammar also counts them:
the probability of a rule is its share of the uses of its left symbol. Such a
grammar scores trees by the product of their rules' probabilities.
-/

namespace Constituency

namespace Grammar

variable {W : Type}

/-- The rules at the nodes of the normalized trees, tree by tree, each with the given weight. -/
def treeRules (g : Grammar W) (rareBelow : Nat) (weight : W) (trees : List (Tree Symbol)) :
    List (Rule W) :=
  trees.flatMap fun t => (g.normalizeTree rareBelow t).localRules true weight

/-- The plain grammar of a treebank. -/
def ofTrees (trees : List (Tree Symbol)) (rareBelow : Nat) : Grammar Unit :=
  let counted : Grammar Unit := countLeaves {} trees
  let rules := counted.treeRules rareBelow () trees
  { counted with
    store := (counted.store.addAll rules).assignKinds
    rareBelow }

end Grammar

section Estimation

variable {R : Type} [ProbabilityNumber R]

/-- Counts one use of a rule, storing it when it is new. -/
def Store.countUse (s : Store (Probability R)) (r : Rule (Probability R)) : Store (Probability R) :=
  match s.search r.left r.right with
  | some id => s.modifyWeight id .countOnce
  | none => (s.add { r with weight := r.weight.countOnce }).1

/-- How often the rules with a left symbol were counted. -/
def Store.leftCount (s : Store (Probability R)) (left : Symbol) : Nat :=
  (s.withLeft left).foldl (fun total r => total + r.weight.count) 0

/-- Makes the probability of every rule its share of the count of its left symbol. -/
def Store.assignShares (s : Store (Probability R)) : Store (Probability R) :=
  s.leftSides.foldl
    (fun s left =>
      let total := s.leftCount left
      (s.idsWithLeft left).foldl (fun s id => s.modifyWeight id (·.share total)) s)
    s

/-- The sum of the probabilities of the rules with a left symbol. -/
def Store.leftMass (s : Store (Probability R)) (left : Symbol) : R :=
  (s.withLeft left).foldl (fun sum r => sum + r.weight.value) ProbabilityNumber.emptySum

/-- The probabilistic grammar of a treebank. -/
def Grammar.estimate (trees : List (Tree Symbol)) (rareBelow : Nat) : Grammar (Probability R) :=
  let counted : Grammar (Probability R) := Grammar.countLeaves {} trees
  let uses := counted.treeRules rareBelow (.ofValue ProbabilityNumber.zero) trees
  { counted with
    store := (uses.foldl Store.countUse counted.store).assignShares.assignKinds
    rareBelow }

end Estimation

/-- A tree uses a rule that the grammar does not have. -/
structure MissingRule where
  /-- The left symbol. -/
  left : Symbol
  /-- The right side. -/
  right : List Symbol
  deriving DecidableEq, Repr

/-- The wording: the rule is shown with probability zero. -/
def MissingRule.message (e : MissingRule) : String :=
  let shown : Rule (Probability Float) := ⟨e.left, e.right, .ofLength e.right.length, .ofValue 0.0⟩
  "no rule " ++ shown.text ++ " in grammar"

section TreeScores

variable {W S : Type} [Score S] [WeightScore W S]

mutual

/-- The score of a tree: that of the rule at its root, then those of its children from left to
right. Below a rule for a word nothing counts, and a node without a name has no rule. -/
def Store.treeScore (s : Store W) : Tree Symbol → Except MissingRule S
  | .node _ [] => .ok Score.zero
  | .node a (c :: cs) =>
    match localSides? true a ((c :: cs).map Tree.label) with
    | none => s.treeScoreAll Score.zero (c :: cs)
    | some (left, right) =>
      match s.withSides? left right with
      | none => .error ⟨left, right⟩
      | some r =>
        if r.kind = .terminal then .ok (WeightScore.ofWeight r.weight)
        else s.treeScoreAll (WeightScore.ofWeight r.weight) (c :: cs)

/-- Adds the scores of trees, one by one, to the score so far. -/
def Store.treeScoreAll (s : Store W) (sum : S) :
    List (Tree Symbol) → Except MissingRule S
  | [] => .ok sum
  | c :: cs =>
    match s.treeScore c with
    | .ok score => s.treeScoreAll (Score.add sum score) cs
    | .error e => .error e

end

end TreeScores

/-- The logarithm of the probability of a tree. -/
def Grammar.logProbability (g : Grammar (Probability Float)) (t : Tree Symbol) :
    Except MissingRule Float :=
  g.store.treeScore t

end Constituency
