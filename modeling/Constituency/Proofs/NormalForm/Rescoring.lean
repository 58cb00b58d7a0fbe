import Constituency.Proofs.Chart.Spelling
import Constituency.Proofs.Grammar.TreeScore
import Constituency.Proofs.NormalForm.BestParse
import Constituency.Proofs.NormalForm.Rewriting
import Constituency.Proofs.Tree.Relabelling

/-!
# The score of the best parse

The score that the pruning parser shows adds up rules of the converted grammar, over
a chart that knows no helpers from other symbols. The score of the tree that it shows
is found from the tree alone: each node is trimmed, and its rule is searched in the
grammar before the conversion. Without unit rules the two add up the same rules:
those that the helpers have are neutral, and every other one was rewritten from the
rule that is found.
-/

namespace Constituency

namespace Grammar

variable {W S : Type}

/-- With the symbols of the sentence on its leaves, the tree that is shown for a candidate is that
of the candidate without helpers. -/
theorem exists_relabelLeaves_finish (h : Grammar W) (words : List String) (c : Candidate S) :
    ∃ tree, (h.finish words c).relabelLeaves c.toTree.words = .ok tree ∧
      tree.toTree = c.toTree.splice h.isHelper := by
  have proper := NodeTable.proper_linked_ofTree h.isHelper c.toTree
  have spliced := NodeTable.toTree_linked_ofTree h.isHelper c.toTree
  obtain ⟨tree, run, same⟩ := NodeTable.exists_relabelLeaves_restoreWords _ words
  refine ⟨tree, ?_, same.trans spliced⟩
  rwa [proper.words_eq, spliced, Tree.words_splice] at run

variable [Weight W] [Score S] [WeightScore W S] {g h : Grammar W}

/-- How the score of a result of the pruning parser is accounted for: the rules that built the
candidate, and those that the grammar before the conversion finds in the tree. -/
structure Rescored (g h : Grammar W) (words : List String) (result : NodeTable × S)
    (c : Candidate S) (used : List (Rule W)) (tree : NodeTable) (p : S) (rules : List (Rule W)) :
    Prop where
  /-- The result shows the candidate and its score. -/
  shown : result = (h.finish words c, c.score)
  /-- The score adds the rules used. -/
  built : h.store.Builds c (h.tokenSymbols words) used
  /-- The leaves of the tree have the symbols of the sentence. -/
  relabelled : result.1.relabelLeaves (g.tokenSymbols words) = .ok tree
  /-- The grammar before has a score for the tree. -/
  scored : g.store.treeScore tree.toTree = .ok p
  /-- This score adds the rules found. -/
  traced : g.store.tracedScore tree.toTree = .ok (p, rules)
  /-- They are rules of the grammar before. -/
  stored : ∀ r ∈ rules, r ∈ g.store.rules
  /-- The rules found are those that the rules used were rewritten from, apart from the rules of
  helpers. -/
  same : List.Forall₂ h.RewrittenFrom (used.filter fun q => !h.isHelper q.left) rules

/-- Every result of the pruning parser is accounted for, when the rules before have names, find
themselves and are split only. -/
theorem Converts.exists_rescored {M : Type} [Monoid M] {value : W → M} {heads new : Symbol → Bool}
    (conv : Converts g g.store h value heads new) (from_g : SplitFrom g.store h)
    (retraced : g.store.Retraced) {start : Symbol} (plain : h.isHelper start = false)
    {words : List String} {result : NodeTable × S} (hresult : result ∈ h.parseBest start words) :
    ∃ c used tree p rules, g.Rescored h words result c used tree p rules := by
  obtain ⟨c, hc, rfl⟩ := List.mem_map.mp hresult
  obtain ⟨rfl, used, built⟩ :=
    builds_of_mem_goals conv.indexed Candidate.pruned_subset (List.mem_filter.mp hc).1
  obtain ⟨derives, spells⟩ := built.derives
  rw [conv.pairing] at derives
  have itself : Expands h.helperRules [c.symbol] [c.symbol] := .refl fun a ha marked => by
    rw [List.mem_singleton.mp ha] at marked
    obtain ⟨q, hq, left⟩ := List.mem_map.mp marked
    rw [← left, (mem_helperRules.mp hq).2] at plain
    cases plain
  obtain ⟨rules, before, same⟩ := from_g.derives_splice conv.lexical derives itself
  have root : c.toTree.label = c.symbol := Tree.label_map _ c
  rw [Tree.spliceAll_singleton (by rw [root]; exact plain)] at before
  obtain ⟨p, traced⟩ := retraced.exists_tracedScore (S := S) before
  obtain ⟨tree, run, tree_eq⟩ := h.exists_relabelLeaves_finish words c
  rw [spells, conv.tokenSymbols retraced.indexed] at run
  rw [← tree_eq] at traced
  refine ⟨c, used, tree, p, rules, rfl, built, run, ?_, traced,
    fun r hr => (before.licensed r hr).elim And.left And.left, same⟩
  rw [← g.store.map_fst_tracedScore, traced]
  rfl

end Grammar

section Estimation

variable {R : Type} [ProbabilityNumber R] {g h : Grammar (Probability R)}

namespace Grammar

/-- The grammar of a treebank without unit rules is converted by splitting alone. -/
theorem exists_converts_estimate {trees : List (Tree Symbol)} {rareBelow : Nat}
    (noUnits : ∀ r ∈ (estimate (R := R) trees rareBelow).store.rules, r.kind ≠ .unit) :
    ∃ h heads new, Converts (estimate (R := R) trees rareBelow)
        (estimate trees rareBelow).store h (fun _ => (1 : Nat)) heads new ∧
      SplitFrom (estimate trees rareBelow).store h := by
  obtain ⟨indexed, filled⟩ := indexed_filled_estimate (R := R) trees rareBelow
  obtain ⟨middle, h, new, conv⟩ :=
    exists_converts multiplicative_one indexed filled (classified_estimate trees rareBelow)
  obtain ⟨store, split, stages⟩ := exists_stages indexed filled conv.ok
  obtain rfl : middle = store := Except.ok.inj (conv.eliminated.symm.trans stages.eliminated)
  have from_middle := stages.splitFrom (isHelper_estimate trees rareBelow)
  rw [stages.expansions.eq_of_ne_unit noUnits] at conv from_middle
  exact ⟨h, _, new, conv, from_middle⟩

variable {S : Type} [Score S] [WeightScore (Probability R) S]

/-- The score of the best parse is that of the tree under the grammar before the conversion. The
grammar is made from a treebank and has no unit rule and no symbol without a name. Then it is
converted, each rule for no helper is rewritten from exactly one rule before, and rules for helpers
are neutral. For a start symbol that is no helper, the grammar before has a score for every tree
that is shown, with the symbols of the sentence on its leaves; and the rules whose scores are added
are those that the rules used in the chart are rewritten from, apart from those for helpers. -/
theorem parseBest_rescored (g : Grammar (Probability R))
    (made : ∃ trees rareBelow, g = estimate trees rareBelow)
    (noUnits : ∀ r ∈ g.store.rules, r.kind ≠ .unit) (named : ∀ a ∈ g.store.symbols, a.name ≠ "") :
    ∃ h, g.normalForm = .ok h ∧
      (∀ q ∈ h.store.rules, h.isHelper q.left = false →
        ∃! r, r ∈ g.store.rules ∧ h.RewrittenFrom q r) ∧
      (∀ q ∈ h.helperRules, q.weight = Weight.neutral) ∧
      ∀ start words, h.isHelper start = false → ∀ result ∈ h.parseBest start words,
        ∃ c used tree p rules, g.Rescored h words result c used tree p rules := by
  obtain ⟨trees, rareBelow, rfl⟩ := made
  have retraced := retraced_estimate named
  obtain ⟨h, heads, new, conv, from_g⟩ := exists_converts_estimate noUnits
  exact ⟨h, conv.ok, fun q hq plain => from_g.existsUnique_origin retraced.indexed hq plain,
    fun q hq => (from_g.minted q hq).2,
    fun start words plain result hresult => conv.exists_rescored from_g retraced plain hresult⟩

/-- Two trees with a long rule, a word that both have and words that one has. -/
def exchanged : List (Tree Symbol) :=
  [.node ⟨"S"⟩ [.node ⟨"NP"⟩ [.leaf ⟨"she"⟩], .node ⟨"VBD"⟩ [.leaf ⟨"saw"⟩],
      .node ⟨"NP"⟩ [.leaf ⟨"him"⟩]],
    .node ⟨"S"⟩ [.node ⟨"NP"⟩ [.leaf ⟨"him"⟩], .node ⟨"VBD"⟩ [.leaf ⟨"saw"⟩],
      .node ⟨"NP"⟩ [.leaf ⟨"Ann"⟩]]]

/-- A sentence with a word that was not seen is parsed, and the score of its tree is accounted
for. -/
theorem parseBest_rescored_exchanged :
    (∀ r ∈ (estimate (R := ℚ) exchanged 2).store.rules, r.kind ≠ .unit) ∧
    (∀ a ∈ (estimate (R := ℚ) exchanged 2).store.symbols, a.name ≠ "") ∧
    ∃ h, (estimate (R := ℚ) exchanged 2).normalForm = .ok h ∧ h.isHelper ⟨"S"⟩ = false ∧
      ∃ result ∈ h.parseBest ⟨"S"⟩ ["him", "saw", "Eve"], ∃ c used tree p rules,
        (estimate exchanged 2).Rescored h ["him", "saw", "Eve"] result c used tree p rules := by
  have noUnits : ∀ r ∈ (estimate (R := ℚ) exchanged 2).store.rules, r.kind ≠ .unit := by
    decide +kernel
  have named : ∀ a ∈ (estimate (R := ℚ) exchanged 2).store.symbols, a.name ≠ "" := by
    decide +kernel
  obtain ⟨h, h_ok, -, -, rescored⟩ :=
    parseBest_rescored (estimate (R := ℚ) exchanged 2) ⟨exchanged, 2, rfl⟩ noUnits named
  obtain ⟨h', heads, new, conv, -⟩ := exists_converts_estimate noUnits
  obtain rfl : h = h' := Except.ok.inj (h_ok.symm.trans conv.ok)
  have unconverted := isHelper_estimate (R := ℚ) exchanged 2
  have retraced := retraced_estimate named
  have long : (estimate (R := ℚ) exchanged 2).store.Phrasal
      ⟨⟨"S"⟩, [⟨"NP"⟩, ⟨"VBD"⟩, ⟨"NP"⟩], .long, ⟨1, 2⟩⟩ := by decide +kernel
  have branching : (estimate (R := ℚ) exchanged 2).store.Branching
      ⟨⟨"S"⟩, [⟨"NP"⟩, ⟨"VBD"⟩, ⟨"NP"⟩], .long, ⟨1, 2⟩⟩ := ⟨long.1, by decide⟩
  have seen : (estimate (R := ℚ) exchanged 2).store.Lexical
      ⟨⟨"NP"⟩, [⟨"him"⟩], .terminal, ⟨1 / 2, 2⟩⟩ := by decide +kernel
  have unseen : (estimate (R := ℚ) exchanged 2).store.Lexical
      ⟨⟨"NP"⟩, [.rare], .terminal, ⟨1 / 2, 2⟩⟩ := by decide +kernel
  have verb : (estimate (R := ℚ) exchanged 2).store.Lexical
      ⟨⟨"VBD"⟩, [⟨"saw"⟩], .terminal, ⟨1, 2⟩⟩ := by decide +kernel
  have plain : h.isHelper ⟨"S"⟩ = false :=
    conv.not_isHelper_left unconverted long.1 RuleKind.noConfusion
  have derivation : ∃ used, Derives (estimate (R := ℚ) exchanged 2).store.Lexical
      (estimate (R := ℚ) exchanged 2).store.Branching [⟨"S"⟩]
      [.node ⟨"S"⟩ [.node ⟨"NP"⟩ [.leaf ⟨"him"⟩], .node ⟨"VBD"⟩ [.leaf ⟨"saw"⟩],
        .node ⟨"NP"⟩ [.leaf .rare]]] used :=
    ⟨_, .single_node branching (.word seen rfl (.word verb rfl (.word unseen rfl .nil)))⟩
  obtain ⟨used, hd⟩ := derivation
  obtain ⟨c, kept, hc, spliced, -⟩ := conv.exists_chart unconverted plain hd
  have spells : c.words = h.tokenSymbols ["him", "saw", "Eve"] := by
    rw [conv.tokenSymbols retraced.indexed, ← Tree.words_splice h.isHelper, spliced]
    decide +kernel
  have weights : ∀ r ∈ h.store.rules, 0 ≤ r.weight.value :=
    weights_normalForm (0 ≤ ·.value) zero_le_one mul_nonneg retraced.indexed
      (fun r hr => (retraced.fits r hr).filled) (by decide +kernel) h_ok
  obtain ⟨shown, p, single, -⟩ := parseBest_eq_singleton conv.indexed weights _ hc spells
  have result : (shown, p) ∈ h.parseBest ⟨"S"⟩ ["him", "saw", "Eve"] := by
    rw [single]
    exact List.mem_singleton_self _
  exact ⟨noUnits, named, h, h_ok, plain, (shown, p), result,
    rescored ⟨"S"⟩ ["him", "saw", "Eve"] plain (shown, p) result⟩

end Grammar

end Estimation

/-! ## Exact probabilities -/

section Exact

variable {R : Type} [Field R] [LinearOrder R]

namespace Store

variable {s : Store (Probability R)}

mutual

/-- The score of a tree is the product of the probabilities of the rules at its nodes. -/
theorem eq_product_of_tracedScore {t : Tree Symbol} {p : R} {rules : List (Rule (Probability R))}
    (h : s.tracedScore t = .ok (p, rules)) : p = Rule.product Probability.value rules := by
  match t with
  | .node a [] =>
    cases h
    rfl
  | .node a (c :: cs) =>
    rw [tracedScore] at h
    split at h
    · exact eq_product_of_tracedScoreAll Rule.product_nil.symm h
    · split at h
      · cases h
      · next r _ =>
        have single : r.weight.value = Rule.product Probability.value [r] := by
          rw [Rule.product_cons, Rule.product_nil, mul_one]
        split at h
        · cases h
          exact single
        · exact eq_product_of_tracedScoreAll single h

/-- The product of the scores so far stays the product of the probabilities so far. -/
theorem eq_product_of_tracedScoreAll {cs : List (Tree Symbol)} {q p : R}
    {front rules : List (Rule (Probability R))} (start : q = Rule.product Probability.value front)
    (h : s.tracedScoreAll (q, front) cs = .ok (p, rules)) :
    p = Rule.product Probability.value rules := by
  match cs with
  | [] =>
    cases h
    exact start
  | c :: cs =>
    rw [tracedScoreAll] at h
    split at h
    · next score found =>
      refine eq_product_of_tracedScoreAll ?_ h
      rw [Rule.product_append, ← start, ← eq_product_of_tracedScore found]
      rfl
    · cases h

end

end Store

namespace Grammar

variable {g h : Grammar (Probability R)}

/-- The score that is shown is the score before the conversion. -/
theorem Rescored.score_eq {words : List String} {result : NodeTable × R} {c : Candidate R}
    {used rules : List (Rule (Probability R))} {tree : NodeTable} {p : R}
    (rescored : g.Rescored h words result c used tree p rules)
    (neutral : ∀ q ∈ h.helperRules, q.weight = Weight.neutral) : result.2 = p := by
  have stored : ∀ q ∈ used, q ∈ h.store.rules := fun q hq =>
    (rescored.built.derives.1.licensed q hq).elim And.left And.left
  calc
    result.2 = c.score := by rw [rescored.shown]
    _ = Rule.product Probability.value used := rescored.built.score_eq
    _ = Rule.product Probability.value (used.filter fun q => !h.isHelper q.left) :=
      (product_filter multiplicative_value neutral stored).symm
    _ = Rule.product Probability.value rules := product_eq_of_rewritten rescored.same
    _ = p := (Store.eq_product_of_tracedScore rescored.traced).symm

/-- With exact probabilities, the grammar of a treebank without unit rules gives every tree that is
shown, with the symbols of the sentence on its leaves, the probability that is shown. -/
theorem treeScore_of_parseBest {trees : List (Tree Symbol)} {rareBelow : Nat}
    (noUnits : ∀ r ∈ (estimate (R := R) trees rareBelow).store.rules, r.kind ≠ .unit)
    (named : ∀ a ∈ (estimate (R := R) trees rareBelow).store.symbols, a.name ≠ "")
    (h_ok : (estimate trees rareBelow).normalForm = .ok h) {start : Symbol}
    (plain : h.isHelper start = false) {words : List String} {shown : NodeTable} {p : R}
    (hshown : (shown, p) ∈ h.parseBest start words) :
    ∃ tree : NodeTable,
      shown.relabelLeaves ((estimate (R := R) trees rareBelow).tokenSymbols words) = .ok tree ∧
        (estimate (R := R) trees rareBelow).store.treeScore tree.toTree = .ok p := by
  obtain ⟨h', heads, new, conv, from_g⟩ := exists_converts_estimate noUnits
  obtain rfl : h = h' := Except.ok.inj (h_ok.symm.trans conv.ok)
  obtain ⟨c, used, tree, q, rules, rescored⟩ :=
    conv.exists_rescored from_g (retraced_estimate named) plain hshown
  have same : p = q := rescored.score_eq fun q hq => (from_g.minted q hq).2
  exact ⟨tree, rescored.relabelled, by rw [same, rescored.scored]⟩

end Grammar

end Exact

end Constituency
