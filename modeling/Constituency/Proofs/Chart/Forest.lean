import Constituency.Parser
import Constituency.Proofs.Store.Plain

/-!
# Charts without scores

The exhaustive parser adds up scores and never asks for one. What it shows is
therefore told by the trees alone: a chart filled with trees, by the left symbols
of the rules for words and for pairs, has in each cell the trees of the
candidates there, in the same order. A store and its plain copy fill one and the
same chart of trees.
-/

namespace Constituency

namespace Chart

variable {α β : Type}

/-- Changes the entries of all cells one by one. -/
def map (f : α → β) (c : Chart α) : Chart β where
  length := c.length
  cells := c.cells.map (List.map f)
  size_cells := by rw [Array.size_map, c.size_cells]

/-- The entries of each cell are changed. -/
theorem cell_map (f : α → β) (c : Chart α) (first last : Nat) :
    (c.map f).cell first last = (c.cell first last).map f := by
  rw [cell, cell, map, Array.getD_eq_getD_getElem?, Array.getD_eq_getD_getElem?,
    Array.getElem?_map]
  cases c.cells[place first last]? <;> rfl

/-- Changed entries may as well be written. -/
theorem map_set (f : α → β) (c : Chart α) (first last : Nat) (entries : List α) :
    (c.set first last entries).map f = (c.map f).set first last (entries.map f) := by
  simp only [map, set, Array.map_setIfInBounds]

/-- There is nothing to change in an empty chart. -/
theorem map_empty (f : α → β) (length : Nat) : (empty length).map f = empty length := by
  simp only [map, empty, Array.map_replicate, List.map_nil]

/-- Filling a chart and changing its entries is filling a chart with changed entries, when the
changed contents of a cell are told by the changed entries of the cells so far. -/
theorem map_fill {f : α → β} {content : (Nat → Nat → List α) → Nat → Nat → List α}
    {changed : (Nat → Nat → List β) → Nat → Nat → List β}
    (same : ∀ cell first last, (content cell first last).map f =
      changed (fun first last => (cell first last).map f) first last) (length : Nat) :
    (fill length content).map f = fill length changed := by
  have each : ∀ (spans : List (Nat × Nat)) (c : Chart α),
      (spans.foldl (fun c span => c.set span.1 span.2 (content c.cell span.1 span.2)) c).map f =
        spans.foldl (fun c span => c.set span.1 span.2 (changed c.cell span.1 span.2))
          (c.map f) := by
    intro spans
    induction spans with
    | nil => exact fun c => rfl
    | cons span spans ih =>
      intro c
      have cells : (c.map f).cell = fun first last => (c.cell first last).map f :=
        funext fun first => funext fun last => c.cell_map f first last
      rw [List.foldl_cons, List.foldl_cons, ih, map_set, same, cells]
  rw [fill, each, map_empty, fill]

/-- The cell of the whole sentence has its entries changed. -/
theorem top?_map (f : α → β) (c : Chart α) : (c.map f).top? = c.top?.map (List.map f) := by
  rw [top?, top?, map]
  split
  · rfl
  · exact congrArg some (c.cell_map f 0 (c.length - 1))

end Chart

namespace Store

variable {W S : Type}

/-- The trees over one word. -/
def wordTrees (s : Store W) (word : Symbol) : List (Tree Symbol) :=
  (s.wordRules word).map fun r => .node r.left [.leaf word]

/-- The trees that join two neighbouring ones. -/
def pairTrees (s : Store W) (left right : Tree Symbol) : List (Tree Symbol) :=
  (s.pairRules left.label right.label).map fun r => .node r.left [left, right]

/-- The trees over a span of several words: the first part is the shortest first. -/
def splitTrees (s : Store W) (cell : Nat → Nat → List (Tree Symbol)) (first last : Nat) :
    List (Tree Symbol) :=
  (List.range (last - first)).flatMap fun k =>
    (cell first (first + k)).flatMap fun left =>
      (cell (first + k + 1) last).flatMap fun right => s.pairTrees left right

/-- The trees over a span, from the cells of the spans inside it. -/
def spanTrees (s : Store W) (words : List Symbol) (cell : Nat → Nat → List (Tree Symbol))
    (first last : Nat) : List (Tree Symbol) :=
  if first = last then (words[first]?.map s.wordTrees).getD []
  else s.splitTrees cell first last

/-- The chart of all trees over a sentence. -/
def forest (s : Store W) (words : List Symbol) : Chart (Tree Symbol) :=
  .fill words.length (s.spanTrees words)

/-- Without weights there are the same trees over each word. -/
theorem wordTrees_plain (s : Store W) : s.plain.wordTrees = s.wordTrees := by
  funext word
  rw [wordTrees, wordRules_plain, List.map_map]
  rfl

/-- Without weights the same trees are joined. -/
theorem pairTrees_plain (s : Store W) : s.plain.pairTrees = s.pairTrees := by
  funext left right
  rw [pairTrees, pairRules_plain, List.map_map]
  rfl

/-- A store and its plain copy fill the same chart of trees. -/
theorem forest_plain (s : Store W) : s.plain.forest = s.forest := by
  have spanTrees : s.plain.spanTrees = s.spanTrees := by
    funext words cell first last
    rw [Store.spanTrees, Store.spanTrees, wordTrees_plain, splitTrees, splitTrees, pairTrees_plain]
  funext words
  rw [forest, spanTrees, forest]

variable [Score S] [WeightScore W S]

/-- The candidates for a word have the trees over it. -/
theorem map_toTree_wordCandidates (s : Store W) (word : Symbol) :
    (s.wordCandidates (S := S) word).map Candidate.toTree = s.wordTrees word := by
  rw [wordCandidates, wordTrees, List.map_map]
  rfl

/-- The candidates that join two others have the trees that join their trees. -/
theorem map_toTree_pairCandidates (s : Store W) (left right : Candidate S) :
    (s.pairCandidates left right).map Candidate.toTree =
      s.pairTrees left.toTree right.toTree := by
  have symbol : ∀ c : Candidate S, c.toTree.label = c.symbol := fun c => by cases c; rfl
  rw [pairCandidates, pairTrees, symbol, symbol, List.map_map]
  rfl

/-- The candidates for a span have the trees that the trees in the cells tell. -/
theorem map_toTree_spanCandidates (s : Store W) (words : List Symbol)
    (cell : Nat → Nat → List (Candidate S)) (first last : Nat) :
    (s.spanCandidates words cell first last).map Candidate.toTree =
      s.spanTrees words (fun first last => (cell first last).map Candidate.toTree) first last := by
  rw [spanCandidates, spanTrees]
  split
  · cases words[first]? with
    | none => rfl
    | some word => exact s.map_toTree_wordCandidates word
  · simp only [splitCandidates, splitTrees, List.map_flatMap, List.flatMap_map,
      map_toTree_pairCandidates]

/-- The chart with all candidates has the chart of all trees. -/
theorem map_toTree_chart (s : Store W) (words : List Symbol) :
    (s.chart (S := S) id words).map Candidate.toTree = s.forest words :=
  Chart.map_fill (s.map_toTree_spanCandidates words) words.length

end Store

namespace Grammar

variable {W S : Type}

/-- The tree that is shown for a derivation. -/
def display (g : Grammar W) (words : List String) (t : Tree Symbol) : NodeTable :=
  (((NodeTable.ofTree t).spliceHelpers g.isHelper).linkParents).restoreWords words

/-- The trees over the whole sentence with the start symbol at the root. -/
def readings (g : Grammar W) (start : Symbol) (words : List String) : List (Tree Symbol) :=
  ((g.store.forest (g.tokenSymbols words)).top?.getD []).filter (·.label == start)

variable [Score S] [WeightScore W S]

/-- The exhaustive parser shows the trees of the chart of trees, whatever the scores. -/
theorem parse_eq_map_readings (g : Grammar W) (start : Symbol) (words : List String) :
    g.parse (S := S) start words = (g.readings start words).map (g.display words) := by
  have top : (g.store.forest (g.tokenSymbols words)).top?.getD [] =
      ((g.chart (S := S) words).top?.getD []).map Candidate.toTree := by
    rw [← g.store.map_toTree_chart (S := S), Chart.top?_map, chart]
    cases (g.store.chart (S := S) id (g.tokenSymbols words)).top? <;> rfl
  have symbol : (fun t : Tree Symbol => t.label == start) ∘ Candidate.toTree (S := S) =
      fun c => c.symbol == start := by
    funext c
    cases c
    rfl
  rw [readings, top, List.filter_map, List.map_map, symbol]
  rfl

end Grammar

end Constituency
