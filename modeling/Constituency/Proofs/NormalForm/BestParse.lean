import Constituency.Proofs.Chart.Pruned
import Constituency.Proofs.NormalForm.Parses
import Mathlib

/-!
# Conversion and the best parse

Probabilities are exact numbers here, which are multiplied where logarithms are
added. The best parse of a converted grammar has the probability of a derivation
of the grammar before, but it need not be the greatest one: unit elimination
drops a composed rule when its sides are stored already, even when it is the more
probable of the two. The greatest probability is found exactly when some most
probable derivation keeps its probability, as it does when no dropped rule is
more probable than the rule that stays.
-/

namespace Constituency

/-! ## Exact probabilities -/

section Exact

variable {R : Type} [Field R]

/-- Exact probabilities are multiplied. -/
instance [LinearOrder R] : Score R where
  zero := 1
  add := (· * ·)
  lowest := 0
  better a b := decide (b < a)
  ties a b := decide (a = b)

/-- Exact probabilities. -/
instance : ProbabilityNumber R where
  zero := 0
  one := 1
  ratio count total := count / total
  emptySum := 0

/-- Exact probabilities multiply when one rule is applied inside another. -/
theorem multiplicative_value : Multiplicative (Probability.value : Probability R → R) :=
  ⟨fun _ _ => rfl, rfl⟩

variable [LinearOrder R]

instance : WeightScore (Probability R) R where
  ofWeight := Probability.value

variable [IsStrictOrderedRing R]

/-- Exact probabilities are ranked and multiplied like numbers. -/
theorem lawful_nonneg : Score.Lawful fun a : R => 0 ≤ a where
  zero := zero_le_one
  lowest := le_rfl
  add := mul_nonneg
  asymm _ _ h := decide_eq_false (not_lt_of_gt (of_decide_eq_true h))
  trans _ _ _ h h' := decide_eq_false <| not_lt.mpr <|
    le_trans (not_lt.mp (of_decide_eq_false h)) (not_lt.mp (of_decide_eq_false h'))
  ties _ _ h h' := decide_eq_true <|
    le_antisymm (not_lt.mp (of_decide_eq_false h)) (not_lt.mp (of_decide_eq_false h'))
  add_right _ _ hc h := decide_eq_false <| not_lt.mpr <|
    mul_le_mul_of_nonneg_right (not_lt.mp (of_decide_eq_false h)) hc
  add_left _ _ hc h := decide_eq_false <| not_lt.mpr <|
    mul_le_mul_of_nonneg_left (not_lt.mp (of_decide_eq_false h)) hc
  lowest_le ha := decide_eq_false (not_lt.mpr ha)

/-- Multiplication respects the order of exact probabilities. -/
theorem comparison_nonneg : Store.Comparison fun a b : R => 0 ≤ a ∧ a ≤ b where
  one := ⟨zero_le_one, le_rfl⟩
  mul first second := ⟨mul_nonneg first.1 second.1,
    mul_le_mul first.2 second.2 second.1 (le_trans first.1 first.2)⟩
  trans first second := ⟨first.1, le_trans first.2 second.2⟩

omit [IsStrictOrderedRing R] in
/-- The score of what is built is the product of the probabilities of the rules used. -/
theorem Store.Builds.score_eq {s : Store (Probability R)} {c : Candidate R} {words : List Symbol}
    {used : List (Rule (Probability R))} (h : s.Builds c words used) :
    c.score = Rule.product Probability.value used := by
  induction h with
  | @word r a licence right =>
    rw [Rule.product_cons, Rule.product_nil, mul_one]
    rfl
  | @pair r left right front back first second stored sides _ _ ihLeft ihRight =>
    rw [Rule.product_cons, Rule.product_append, ← mul_assoc, ← ihLeft, ← ihRight]
    rfl

end Exact

namespace Grammar

variable {R : Type} [Field R] [LinearOrder R] [IsStrictOrderedRing R]

/-- When there is a chart derivation, the pruning parser shows one; its score is the product of the
probabilities of the rules used, and that of no other one is greater. -/
theorem parseBest_eq_singleton {g : Grammar (Probability R)} (indexed : g.store.Indexed)
    (weights : ∀ r ∈ g.store.rules, 0 ≤ r.weight.value) {start : Symbol} (words : List String)
    {c : Tree Symbol} {used : List (Rule (Probability R))}
    (hc : Derives g.store.Lexical g.store.Pairing [start] [c] used)
    (spells : c.words = g.tokenSymbols words) :
    ∃ shown p, g.parseBest start words = [(shown, p)] ∧
      (∃ d kept, Derives g.store.Lexical g.store.Pairing [start] [d] kept ∧
        d.words = g.tokenSymbols words ∧
        shown.toTree = (d.splice g.isHelper).restoreWords words ∧
        Rule.product Probability.value kept = p) ∧
      ∀ d kept, Derives g.store.Lexical g.store.Pairing [start] [d] kept →
        d.words = g.tokenSymbols words → Rule.product Probability.value kept ≤ p := by
  have offered : ∀ d kept, Derives g.store.Lexical g.store.Pairing [start] [d] kept →
      d.words = g.tokenSymbols words → ∃ b ∈ goals (S := R) start (g.chart words),
        b.score = Rule.product Probability.value kept := by
    intro d kept hd hwords
    obtain ⟨b, built, rfl, rfl⟩ := Store.exists_builds (S := R) hd
    rw [hwords] at built
    exact ⟨b, (mem_goals_iff_builds indexed).mpr ⟨rfl, kept, built⟩, built.score_eq⟩
  rcases parseBest_cases indexed lawful_nonneg weights start words with
    ⟨none, -⟩ | ⟨b, hb, shown, best⟩
  · obtain ⟨b, hb, -⟩ := offered c used hc spells
    rw [none] at hb
    exact absurd hb List.not_mem_nil
  · refine ⟨_, _, shown, ?_, fun d kept hd hwords => ?_⟩
    · obtain ⟨rfl, kept, built⟩ := (mem_goals_iff_builds indexed).mp hb
      exact ⟨b.toTree, kept, built.derives.1, built.derives.2, g.toTree_finish words b,
        built.score_eq.symm⟩
    · obtain ⟨e, he, score⟩ := offered d kept hd hwords
      rw [← score]
      exact not_lt.mp (of_decide_eq_false (best e he))

section Converted

variable {g h : Grammar (Probability R)} {middle : Store (Probability R)}
  {heads new : Symbol → Bool} {start : Symbol} {words : List String}

omit [IsStrictOrderedRing R] in
/-- A bound on the products of all chart derivations of a sentence is one on the products of the
collapsed derivations that keep theirs. -/
theorem Converts.product_le_of_kept (conv : Converts g middle h Probability.value heads new)
    (unconverted : ∀ a, g.isHelper a = false) (indexed : g.store.Indexed)
    (plain : h.isHelper start = false) {p : R}
    (bound : ∀ c kept, Derives h.store.Lexical h.store.Pairing [start] [c] kept →
      c.words = h.tokenSymbols words → Rule.product Probability.value kept ≤ p)
    {d : Tree Symbol} {kept : List (Rule (Probability R))} (spells : d.words = g.tokenSymbols words)
    (hd : Derives middle.Lexical middle.Branching [start] [d.collapse] kept) :
    Rule.product Probability.value kept ≤ p := by
  obtain ⟨c, used, hc, spliced, product⟩ := conv.exists_chart unconverted plain hd
  rw [← product]
  exact bound c used hc ((conv.words_iff indexed words spliced).mpr spells)

/-- Rules that are at least as probable as the chains they stand for dominate them. -/
theorem Converts.dominates_of_le (conv : Converts g middle h Probability.value heads new)
    (classified : g.store.Classified heads)
    (probabilities : ∀ r ∈ g.store.rules, 0 ≤ r.weight.value)
    (above : ∀ a r m, g.store.Unfolds Probability.value a r m →
      ∃ q ∈ middle.rules, q.left = a ∧ q.right = r.right ∧ m ≤ q.weight.value) :
    g.store.Dominates middle Probability.value fun a b : R => 0 ≤ a ∧ a ≤ b := by
  refine ⟨fun r hr => ⟨probabilities r hr, le_rfl⟩, fun a r m hr => ?_⟩
  obtain ⟨q, hq, left, right, le⟩ := above a r m hr
  have kind : q.kind = r.kind := by
    rw [conv.classified q hq, classified r hr.target.1, right]
  have nonneg : 0 ≤ m := hr.admits_value (0 ≤ ·) probabilities mul_nonneg
  exact ⟨q, hq, left, right, kind, nonneg, le⟩

end Converted

/-- The best parse after a conversion. The grammar has the kinds that its rules are assigned, was
not converted before, and no probability is negative. Then for a start symbol that is no helper and
a sentence with a derivation one tree is shown. Its probability, the product over the converted
rules of its chart derivation, is that of a derivation of the grammar before. It is the greatest one
exactly when some most probable derivation, once collapsed, keeps its probability by the rules that
unit elimination leaves; and it is so whenever these rules are at least as probable as every chain
of unit rules that they stand for. -/
theorem parseBest_normalForm (g : Grammar (Probability R)) (reachable : g.Reachable (·.right ≠ []))
    (assigned : g.store.assignKinds = g.store) (unconverted : ∀ a, g.isHelper a = false)
    (probabilities : ∀ r ∈ g.store.rules, 0 ≤ r.weight.value) :
    ∃ middle h, g.store.eliminateUnits = .ok middle ∧ g.normalForm = .ok h ∧
      ∀ start words, h.isHelper start = false →
        (∃ d used, g.Derivation start (g.tokenSymbols words) d used) →
        ∃ shown p, h.parseBest start words = [(shown, p)] ∧
          (∃ c kept, Derives h.store.Lexical h.store.Pairing [start] [c] kept ∧
            shown.toTree = (c.splice h.isHelper).restoreWords words ∧
            Rule.product Probability.value kept = p) ∧
          (∃ d used, g.Derivation start (g.tokenSymbols words) d used ∧
            shown.toTree = d.collapse.restoreWords words ∧
            Rule.product Probability.value used = p) ∧
          ((∀ d used, g.Derivation start (g.tokenSymbols words) d used →
              Rule.product Probability.value used ≤ p) ↔
            ∃ d used, g.Derivation start (g.tokenSymbols words) d used ∧
              (∀ d' used', g.Derivation start (g.tokenSymbols words) d' used' →
                Rule.product Probability.value used' ≤ Rule.product Probability.value used) ∧
              ∃ kept, Derives middle.Lexical middle.Branching [start] [d.collapse] kept ∧
                Rule.product Probability.value kept = Rule.product Probability.value used) ∧
          ((∀ a r m, g.store.Unfolds Probability.value a r m →
              ∃ q ∈ middle.rules, q.left = a ∧ q.right = r.right ∧ m ≤ q.weight.value) →
            ∀ d used, g.Derivation start (g.tokenSymbols words) d used →
              Rule.product Probability.value used ≤ p) := by
  obtain ⟨indexed, filled⟩ := reachable.indexed_filled fun _ filled => filled
  have classified := Store.classified_of_assignKinds assigned
  obtain ⟨middle, h, new, conv⟩ := exists_converts multiplicative_value indexed filled classified
  have weights : ∀ r ∈ h.store.rules, 0 ≤ r.weight.value :=
    weights_normalForm (0 ≤ ·.value) zero_le_one mul_nonneg indexed filled probabilities conv.ok
  refine ⟨middle, h, conv.eliminated, conv.ok, fun start words plain hderives => ?_⟩
  obtain ⟨d, used, hd, spells⟩ := hderives
  obtain ⟨c, kept, hc, spliced, -⟩ := conv.exists_chart_of_derivation unconverted filled
    classified Store.comparison_trivial conv.closed.dominates plain hd
  obtain ⟨shown, p, hshown, ⟨c, kept, hc, spells, tree, product⟩, best⟩ :=
    parseBest_eq_singleton conv.indexed weights words hc
      ((conv.words_iff indexed words spliced).mpr spells)
  obtain ⟨d, used, hd, collapsed, productD⟩ := conv.exists_derivation unconverted plain hc
  replace spells := (conv.words_iff indexed words collapsed.symm).mp spells
  refine ⟨shown, p, hshown, ⟨c, kept, hc, tree, product⟩, ?_, ⟨?_, ?_⟩, ?_⟩
  · exact ⟨d, used, ⟨hd, spells⟩, by rw [collapsed]; exact tree, productD.trans product⟩
  -- the derivation behind the tree that is shown keeps its probability
  · intro greatest
    obtain ⟨rules, hrules, productR⟩ := conv.derives_splice unconverted plain hc
    refine ⟨d, used, ⟨hd, spells⟩, fun d' used' hd' => ?_, rules, collapsed ▸ hrules,
      productR.trans productD.symm⟩
    rw [productD, product]
    exact greatest d' used' hd'
  · rintro ⟨e, usedE, ⟨-, spellsE⟩, greatest, rules, hrules, same⟩ d' used' hd'
    have bound := conv.product_le_of_kept unconverted indexed plain best spellsE hrules
    exact le_trans (greatest d' used' hd') (same ▸ bound)
  · rintro above d' used' ⟨hd', spells'⟩
    obtain ⟨c', kept', hc', spliced', compare⟩ := conv.exists_chart_of_derivation unconverted
      filled classified comparison_nonneg (conv.dominates_of_le classified probabilities above)
      plain hd'
    have spells := (conv.words_iff indexed words spliced').mpr spells'
    exact le_trans compare.2 (best c' kept' hc' spells)

/-- A grammar in which a stored rule hides a more probable composed one. -/
def shadowed : Grammar (Probability ℚ) :=
  ofRules [⟨⟨"S"⟩, [⟨"a"⟩], .terminal, .ofValue (1 / 4)⟩,
    ⟨⟨"S"⟩, [⟨"B"⟩], .terminal, .ofValue (3 / 4)⟩, ⟨⟨"B"⟩, [⟨"a"⟩], .terminal, .ofValue 1⟩]

/-- After the conversion the word has the probability of the stored rule. -/
theorem normalForm_shadowed :
    shadowed.normalForm.map
      (fun h => (h.isHelper ⟨"S"⟩, (h.parseBest ⟨"S"⟩ ["a"]).map Prod.snd)) =
        .ok (false, [1 / 4]) := by
  cbv

/-- Before the conversion the word has a derivation with three times that probability. -/
theorem derivation_shadowed :
    ∃ d used, shadowed.Derivation ⟨"S"⟩ (shadowed.tokenSymbols ["a"]) d used ∧
      Rule.product Probability.value used = 3 / 4 := by
  have unit : shadowed.store.Phrasal ⟨⟨"S"⟩, [⟨"B"⟩], .unit, .ofValue (3 / 4)⟩ := by
    decide +kernel
  have word : shadowed.store.Lexical ⟨⟨"B"⟩, [⟨"a"⟩], .terminal, .ofValue 1⟩ := by decide +kernel
  exact ⟨_, _, ⟨.single_node unit (.single_word word rfl), by decide +kernel⟩, by decide +kernel⟩

/-- One tree is shown for the word, with the probability of one of its derivations. -/
theorem parseBest_normalForm_shadowed :
    shadowed.Reachable (·.right ≠ []) ∧ shadowed.store.assignKinds = shadowed.store ∧
    (∀ a, shadowed.isHelper a = false) ∧ (∀ r ∈ shadowed.store.rules, 0 ≤ r.weight.value) ∧
    ∃ h, shadowed.normalForm = .ok h ∧ h.isHelper ⟨"S"⟩ = false ∧
      ∃ shown p, h.parseBest ⟨"S"⟩ ["a"] = [(shown, p)] ∧
        ∃ d used, shadowed.Derivation ⟨"S"⟩ (shadowed.tokenSymbols ["a"]) d used ∧
          shown.toTree = d.collapse.restoreWords ["a"] ∧
          Rule.product Probability.value used = p := by
  have reachable : shadowed.Reachable (·.right ≠ []) := Reachable.ofRules (by simp)
  have assigned : shadowed.store.assignKinds = shadowed.store := Store.assignKinds_assignKinds _
  have unconverted : ∀ a, shadowed.isHelper a = false := fun a => Std.TreeSet.contains_emptyc
  have probabilities : ∀ r ∈ shadowed.store.rules, 0 ≤ r.weight.value := by decide +kernel
  obtain ⟨middle, h, -, h_ok, shown⟩ :=
    parseBest_normalForm shadowed reachable assigned unconverted probabilities
  have computed := normalForm_shadowed
  rw [h_ok] at computed
  have plain : h.isHelper ⟨"S"⟩ = false := (Prod.mk.inj (Except.ok.inj computed)).1
  obtain ⟨d, used, hd, -⟩ := derivation_shadowed
  obtain ⟨tree, p, hp, -, derivation, -⟩ := shown ⟨"S"⟩ ["a"] plain ⟨d, used, hd⟩
  exact ⟨reachable, assigned, unconverted, probabilities, h, h_ok, plain, tree, p, hp, derivation⟩

/-- The probability that is shown for the word is not the greatest one before the conversion. -/
theorem parseBest_lt_derivation_shadowed :
    shadowed.store.assignKinds = shadowed.store ∧ (∀ a, shadowed.isHelper a = false) ∧
    (∀ r ∈ shadowed.store.rules, 0 ≤ r.weight.value ∧ r.weight.value ≤ 1) ∧
    ∃ h, shadowed.normalForm = .ok h ∧ h.isHelper ⟨"S"⟩ = false ∧
      (h.parseBest ⟨"S"⟩ ["a"]).map Prod.snd = [1 / 4] ∧
      ∃ d used, shadowed.Derivation ⟨"S"⟩ (shadowed.tokenSymbols ["a"]) d used ∧
        1 / 4 < Rule.product Probability.value used := by
  have computed := normalForm_shadowed
  obtain ⟨d, used, hd, product⟩ := derivation_shadowed
  cases h_ok : shadowed.normalForm with
  | error e => rw [h_ok] at computed; cases computed
  | ok h =>
    rw [h_ok] at computed
    obtain ⟨plain, scores⟩ := Prod.mk.inj (Except.ok.inj computed)
    exact ⟨Store.assignKinds_assignKinds _, fun a => Std.TreeSet.contains_emptyc,
      by decide +kernel, h, rfl, plain, scores, d, used, hd, by rw [product]; decide +kernel⟩

end Grammar

end Constituency
