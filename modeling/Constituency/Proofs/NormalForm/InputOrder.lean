import Constituency.Parser
import Constituency.Proofs.Grammar.Reachable

/-!
# The order of the input

The numbers of rules depend on the order in which rules are stored; nothing else
does. Two indexed stores with the same rules list them in the same order, so they
answer every lookup alike. Every step of a conversion takes what it works on from
these lists: two conversions that start with the same rules go through the same
rules all the way, mint the same helpers and end with the same rules. The parsers
ask lookups only, and show the same trees.
-/

namespace Constituency

namespace Store

variable {W : Type} {s t : Store W}

/-! ## Stores with the same rules -/

/-- Indexed stores with the same rules list them in the same order. -/
theorem Indexed.rules_eq (h : s.Indexed) (h' : t.Indexed) (same : ∀ r, r ∈ s.rules ↔ r ∈ t.rules) :
    s.rules = t.rules :=
  eq_of_pairwise_lt h.sortedLeft.pairwise_rules h'.sortedLeft.pairwise_rules same

/-- Indexed stores with the same rules list them in the same order on the right list, too. -/
theorem Indexed.rulesByRight_eq (h : s.Indexed) (h' : t.Indexed) (same : s.rules = t.rules) :
    s.rulesByRight = t.rulesByRight := by
  refine eq_of_pairwise_lt h.sortedRight.pairwise_rules h'.sortedRight.pairwise_rules fun r => ?_
  rw [h.mem_rulesByRight, h'.mem_rulesByRight, same]

/-- Two stores that list the same rules and give the same rules to every lookup. -/
structure SameAnswers (s t : Store W) : Prop where
  /-- The rules by left symbol. -/
  rules : s.rules = t.rules
  /-- The rules by right side. -/
  rulesByRight : s.rulesByRight = t.rulesByRight
  /-- The rules with a left symbol. -/
  withLeft : ∀ left, s.withLeft left = t.withLeft left
  /-- The rules with a right side. -/
  withRight : ∀ right, s.withRight right = t.withRight right
  /-- The rules for a word. -/
  wordRules : ∀ word, s.wordRules word = t.wordRules word
  /-- The rules for two symbols. -/
  pairRules : ∀ first second, s.pairRules first second = t.pairRules first second
  /-- The rule with given sides. -/
  withSides? : ∀ left right, s.withSides? left right = t.withSides? left right
  /-- The left symbols. -/
  leftSides : s.leftSides = t.leftSides
  /-- The left symbols of the rules for words. -/
  tags : s.tags = t.tags

/-- Indexed stores with the same rules answer every lookup alike. -/
theorem Indexed.sameAnswers (h : s.Indexed) (h' : t.Indexed) (same : s.rules = t.rules) :
    s.SameAnswers t := by
  have sameByRight := h.rulesByRight_eq h' same
  have withRight : ∀ right, s.withRight right = t.withRight right := fun right => by
    rw [h.withRight_eq, h'.withRight_eq, sameByRight]
  constructor
  · exact same
  · exact sameByRight
  · intro left
    rw [h.withLeft_eq, h'.withLeft_eq, same]
  · exact withRight
  · intro word
    rw [Store.wordRules, Store.wordRules, withRight]
  · exact fun first second => withRight [first, second]
  · intro left right
    refine Option.ext fun r => ?_
    rw [h.withSides?_eq_some, h'.withSides?_eq_some, same]
  · rw [Store.leftSides, Store.leftSides, same]
  · rw [Store.tags, Store.tags, same]

/-- Assigning kinds keeps lists of rules equal. -/
theorem rules_assignKinds_congr (same : s.rules = t.rules) :
    s.assignKinds.rules = t.assignKinds.rules := by
  rw [assignKinds, assignKinds, rules_mapRules, rules_mapRules, same]

/-- The next category to expand depends on the rules only. -/
theorem nextUnitTarget?_congr (same : s.rules = t.rules) (pending : List Symbol) :
    s.nextUnitTarget? pending = t.nextUnitTarget? pending := by
  rw [nextUnitTarget?, same, nextUnitTarget?]

/-! ## Conversions -/

section Conversion

variable [Weight W]

/-- Expanding a category in stores with the same rules gives the same rules. -/
theorem Expanded.mem_congr {m n : Store W} {target : Symbol} (h : s.Expanded m target)
    (h' : t.Expanded n target) (same : s.rules = t.rules) (r : Rule W) :
    r ∈ m.rules ↔ r ∈ n.rules := by
  rw [h.mem, h'.mem, same]

/-- Eliminating pending categories from stores with the same rules leaves the same rules. -/
theorem Indexed.eliminatePending_congr (h : s.Indexed) (filled : s.Filled) (h' : t.Indexed)
    (same : s.rules = t.rules) {pending : List Symbol} {m n : Store W}
    (hm : s.eliminatePending pending = .ok m) (hn : t.eliminatePending pending = .ok n) :
    m.rules = n.rules := by
  fun_induction Store.eliminatePending s pending generalizing t with
  | case1 s pending none =>
    have none' := (nextUnitTarget?_congr same pending).symm.trans none
    cases hm
    rw [Store.eliminatePending, none'] at hn
    cases hn
    exact same
  | case2 s pending target next mem shorter ih =>
    have filled' : t.Filled := fun r hr => filled r (same ▸ hr)
    have next' := (nextUnitTarget?_congr same pending).symm.trans next
    obtain ⟨u, hu, indexed, expanded⟩ := h.expandTarget filled target
    obtain ⟨v, hv, indexed', expanded'⟩ := h'.expandTarget filled' target
    rw [Store.eliminatePending, next'] at hn
    simp only [dif_pos mem, hv] at hn
    rw [hu] at hm
    exact ih u indexed (expanded.filled filled) indexed'
      (indexed.rules_eq indexed' (expanded.mem_congr expanded' same)) hm hn
  | case3 s pending target next notMem => exact absurd (nextUnitTarget?_eq_some next).1 notMem

/-- Eliminating unit rules from stores with the same rules leaves the same rules. -/
theorem Indexed.eliminateUnits_congr (h : s.Indexed) (filled : s.Filled) (h' : t.Indexed)
    (same : s.rules = t.rules) {m n : Store W} (hm : s.eliminateUnits = .ok m)
    (hn : t.eliminateUnits = .ok n) : m.rules = n.rules := by
  have targets : s.unitTargets = t.unitTargets := by rw [unitTargets, same, unitTargets]
  rw [Store.eliminateUnits, ← targets] at hn
  exact h.eliminatePending_congr filled h' same hm hn

end Conversion

end Store

namespace Grammar

variable {W : Type} {g h : Grammar W}

/-- Grammars with the same rules, though perhaps under other numbers, that are the same apart from
the store. -/
structure Alike (g h : Grammar W) : Prop where
  /-- The rules. -/
  rules : g.store.rules = h.store.rules
  /-- The counts of words. -/
  lexicon : g.lexicon = h.lexicon
  /-- The threshold for rare words. -/
  rareBelow : g.rareBelow = h.rareBelow
  /-- The next helper number. -/
  helpersSpent : g.helpersSpent = h.helpersSpent
  /-- The helpers. -/
  helpers : g.helpers = h.helpers

section Conversion

variable [Weight W] {taken : List Symbol}

/-- A step of splitting keeps grammars alike. -/
theorem Alike.splitStep (alike : g.Alike h) (listed : g.store.Listed) (listed' : h.store.Listed)
    (first second : Symbol) :
    (g.splitStep taken first second).Alike (h.splitStep taken first second) := by
  constructor
  · rw [Grammar.splitStep, Grammar.splitStep, alike.helpersSpent]
    rw [listed.rules_splitPair, listed'.rules_splitPair, alike.rules]
  · exact alike.lexicon
  · exact alike.rareBelow
  · rw [Grammar.splitStep, Grammar.splitStep, alike.helpersSpent]
  · rw [Grammar.splitStep, Grammar.splitStep, alike.helpersSpent, alike.helpers]

/-- Two runs of splitting that start alike end alike. -/
theorem SplitChain.alike {g' h' : Grammar W} (chain : SplitChain taken g g')
    (other : SplitChain taken h h') (alike : g.Alike h) (listed : g.store.Listed)
    (listed' : h.store.Listed) : g'.Alike h' := by
  have sameLong : ∀ {g h : Grammar W}, g.Alike h → g.store.firstLong? = h.store.firstLong? :=
    fun alike => by rw [Store.firstLong?, alike.rules, Store.firstLong?]
  induction chain generalizing h with
  | @done g none =>
    cases other with
    | done => exact alike
    | step long =>
      rw [sameLong alike, long] at none
      cases none
  | @step g g' r first second rest long right later ih =>
    rw [sameLong alike] at long
    cases other with
    | done none =>
      rw [none] at long
      cases long
    | step long' right' later' =>
      obtain rfl := Option.some.inj (long.symm.trans long')
      rw [right] at right'
      obtain ⟨rfl, rfl, rfl⟩ : first = _ ∧ second = _ ∧ rest = _ := by simpa using right'
      exact ih later' (alike.splitStep listed listed' first second)
        (listed.splitPair _ _ _) (listed'.splitPair _ _ _)

/-- Two conversions that start alike end alike. -/
theorem Alike.normalForm (alike : g.Alike h) (indexed : g.store.Indexed) (filled : g.store.Filled)
    (indexed' : h.store.Indexed) {g' h' : Grammar W} (hg : g.normalForm = .ok g')
    (hh : h.normalForm = .ok h') : g'.Alike h' := by
  have filled' : h.store.Filled := fun r hr => filled r (alike.rules ▸ hr)
  obtain ⟨m, split, stages⟩ := exists_stages indexed filled hg
  obtain ⟨n, split', stages'⟩ := exists_stages indexed' filled' hh
  have middle : m.rules = n.rules := indexed.eliminateUnits_congr filled indexed' alike.rules
    stages.eliminated stages'.eliminated
  have taken : m.symbols = n.symbols := by rw [Store.symbols, middle, Store.symbols]
  have start : (g.withStore m).Alike (h.withStore n) :=
    ⟨middle, alike.lexicon, alike.rareBelow, alike.helpersSpent, alike.helpers⟩
  have chain' := stages'.chain
  rw [← taken] at chain'
  have splitAlike := stages.chain.alike chain' start stages.indexedMiddle.toListed
    stages'.indexedMiddle.toListed
  have sorted : g'.store.rules = h'.store.rules :=
    stages.indexed.rules_eq stages'.indexed fun r => by
      rw [stages.mem_rules, stages'.mem_rules, splitAlike.rules]
  obtain rfl := stages.renumbered
  obtain rfl := stages'.renumbered
  exact ⟨sorted, splitAlike.lexicon, splitAlike.rareBelow, splitAlike.helpersSpent,
    splitAlike.helpers⟩

end Conversion

/-! ## Parses -/

variable {S : Type} [Score S] [WeightScore W S]

/-- Stores with the same rules for words and for pairs fill the same charts. -/
theorem chart_congr {s t : Store W} (words : ∀ word, s.wordRules word = t.wordRules word)
    (pairs : ∀ first second, s.pairRules first second = t.pairRules first second)
    (keep : List (Candidate S) → List (Candidate S)) : s.chart keep = t.chart keep := by
  have wordCandidates : s.wordCandidates (S := S) = t.wordCandidates := by
    funext word
    rw [Store.wordCandidates, words, Store.wordCandidates]
  have pairCandidates : s.pairCandidates (S := S) = t.pairCandidates := by
    funext left right
    rw [Store.pairCandidates, pairs, Store.pairCandidates]
  have spanCandidates : s.spanCandidates (S := S) = t.spanCandidates := by
    funext sentence cell first last
    rw [Store.spanCandidates, Store.spanCandidates, wordCandidates, Store.splitCandidates,
      Store.splitCandidates, pairCandidates]
  funext sentence
  rw [Store.chart, spanCandidates, Store.chart]

/-- Grammars that only the numbers of their rules can tell apart. -/
structure Indistinguishable (S : Type) [Score S] [WeightScore W S] (g h : Grammar W) : Prop where
  /-- Rules are listed and looked up alike. -/
  answers : g.store.SameAnswers h.store
  /-- The helpers are the same. -/
  helpers : g.helpers = h.helpers
  /-- The next helper number is the same. -/
  helpersSpent : g.helpersSpent = h.helpersSpent
  /-- The exhaustive parser shows the same trees in the same order. -/
  parse : ∀ start words, g.parse (S := S) start words = h.parse start words
  /-- The pruning parser shows the same trees with the same scores in the same order. -/
  parseBest : ∀ start words, g.parseBest (S := S) start words = h.parseBest start words

/-- Grammars with indexed stores that are alike cannot be told apart. -/
theorem Alike.indistinguishable (alike : g.Alike h) (indexed : g.store.Indexed)
    (indexed' : h.store.Indexed) : g.Indistinguishable S h := by
  have answers := indexed.sameAnswers indexed' alike.rules
  have tokens : ∀ words, g.tokenSymbols words = h.tokenSymbols words := by
    intro words
    refine List.map_congr_left fun word _ => ?_
    rw [tokenSymbol, tokenSymbol, answers.wordRules, alike.rareBelow, replacement?, replacement?,
      alike.lexicon]
  have finish : g.finish (S := S) = h.finish := by
    have isHelper : g.isHelper = h.isHelper := funext fun a => by rw [Grammar.isHelper,
      Grammar.isHelper, alike.helpers]
    funext words c
    rw [Grammar.finish, Grammar.finish, isHelper]
  have charts := chart_congr (S := S) answers.wordRules answers.pairRules
  constructor
  · exact answers
  · exact alike.helpers
  · exact alike.helpersSpent
  · intro start words
    rw [Grammar.parse, Grammar.parse, chart, chart, charts, tokens, finish]
  · intro start words
    rw [Grammar.parseBest, Grammar.parseBest, bestChart, bestChart, charts, tokens, finish]

/-! ## Lists of rules -/

/-- Two grammars made from the same rules, which differ in their sides, are alike. -/
theorem alike_ofRules {rules more : List (Rule W)} (perm : rules.Perm more)
    (apart : rules.Pairwise fun a b => ¬a.SameSides b) : (ofRules rules).Alike (ofRules more) := by
  have empty : ({} : Store W).Indexed := Store.indexed_empty
  have apartMore : more.Pairwise fun a b => ¬a.SameSides b :=
    (perm.pairwise_iff fun differ same => differ same.symm).mp apart
  have stored : (Store.addAll {} rules).rules = (Store.addAll {} more).rules :=
    (empty.addAll rules).rules_eq (empty.addAll more) fun r => by
      rw [empty.mem_rules_addAll apart, empty.mem_rules_addAll apartMore, perm.mem_iff]
  exact ⟨Store.rules_assignKinds_congr stored, rfl, rfl, rfl, rfl⟩

variable [Weight W]

/-- The order in which rules are given changes nothing that can be observed of the grammar in normal
form. Rules that differ in their sides, given in any two orders, are converted to grammars with the
same rules in the same order, the same helpers and next helper number, the same answer to every
lookup, and the same trees and scores for every sentence. -/
theorem normalForm_ofRules_perm {rules more : List (Rule W)} (perm : rules.Perm more)
    (apart : rules.Pairwise fun a b => ¬a.SameSides b) (filled : ∀ r ∈ rules, r.right ≠ []) :
    ∃ g h, (ofRules rules).normalForm = .ok g ∧ (ofRules more).normalForm = .ok h ∧
      g.Indistinguishable S h := by
  have filledMore : ∀ r ∈ more, r.right ≠ [] := fun r hr => filled r (perm.mem_iff.mpr hr)
  have ready : ∀ {rules : List (Rule W)}, (∀ r ∈ rules, r.right ≠ []) →
      (ofRules rules).store.Indexed ∧ (ofRules rules).store.Filled ∧
        ∃ g, (ofRules rules).normalForm = .ok g := by
    intro rules filled
    obtain ⟨indexed, filled⟩ := (Reachable.ofRules filled).indexed_filled fun _ filled => filled
    have classified := Store.classified_of_assignKinds
      (Store.assignKinds_assignKinds (Store.addAll {} rules))
    refine ⟨indexed, filled, exists_normalForm indexed fun r hr => ?_⟩
    exact Rule.fits_of_kindAmong (filled r hr) (classified r hr)
  obtain ⟨indexed, filledG, g, hg⟩ := ready filled
  obtain ⟨indexed', filledH, h, hh⟩ := ready filledMore
  have alike := (alike_ofRules perm apart).normalForm indexed filledG indexed' hg hh
  exact ⟨g, h, hg, hh, alike.indistinguishable (indexed_normalForm indexed filledG hg).1
    (indexed_normalForm indexed' filledH hh).1⟩

/-- Rules of every kind, with a unit rule that brings in a rule that is there already. -/
def assorted : List (Rule Unit) :=
  [⟨⟨"S"⟩, [⟨"A"⟩, ⟨"A"⟩, ⟨"B"⟩], .long, ()⟩, ⟨⟨"A"⟩, [⟨"B"⟩], .terminal, ()⟩,
    ⟨⟨"A"⟩, [⟨"b"⟩], .terminal, ()⟩, ⟨⟨"B"⟩, [⟨"b"⟩], .terminal, ()⟩,
    ⟨⟨"B"⟩, [⟨"A"⟩, ⟨"B"⟩], .binary, ()⟩]

/-- The rules given from the back are converted to the same rules and show the same trees. -/
theorem normalForm_ofRules_perm_reversed :
    assorted.Perm assorted.reverse ∧ (assorted.Pairwise fun a b => ¬a.SameSides b) ∧
    (∀ r ∈ assorted, r.right ≠ []) ∧
    ∃ g h, (ofRules assorted).normalForm = .ok g ∧
      (ofRules assorted.reverse).normalForm = .ok h ∧ g.store.rules = h.store.rules ∧
      g.parse (S := Float) ⟨"S"⟩ ["b", "b", "b"] = h.parse ⟨"S"⟩ ["b", "b", "b"] := by
  have perm : assorted.Perm assorted.reverse := (List.reverse_perm assorted).symm
  have apart : assorted.Pairwise fun a b => ¬a.SameSides b := by simp [assorted, Rule.SameSides]
  have filled : ∀ r ∈ assorted, r.right ≠ [] := by simp [assorted]
  obtain ⟨g, h, hg, hh, same⟩ := normalForm_ofRules_perm (S := Float) perm apart filled
  exact ⟨perm, apart, filled, g, h, hg, hh, same.answers.rules, same.parse _ _⟩

end Grammar

end Constituency
