import Constituency.NormalForm.Conversion
import Constituency.Proofs.NormalForm.SplittingRun

/-!
# Conversion to normal form

A conversion eliminates unit rules, splits long rules and numbers the rules
anew. On an indexed store whose kinds fit it never fails, whether or not the
kinds are up to date. On a classified store the three steps add up to
`Converts`: the unit closure of the rules in between, and a refinement of it by
new helpers at the end.
-/

namespace Constituency

namespace Store

variable {W : Type} {s t : Store W}

/-- Stores with the same rules have the same rules for words. -/
theorem lexical_congr (h : ∀ r, r ∈ t.rules ↔ r ∈ s.rules) : t.Lexical = s.Lexical :=
  funext fun r => propext (and_congr_left fun _ => h r)

/-- Stores with the same rules have the same branching rules. -/
theorem branching_congr (h : ∀ r, r ∈ t.rules ↔ r ∈ s.rules) : t.Branching = s.Branching :=
  funext fun r => propext (and_congr_left fun _ => h r)

variable [Weight W]

/-- A chain of expansions leaves rules whose kinds fit. -/
theorem Expansions.fits (h : Expansions s t) (fits : ∀ r ∈ s.rules, r.Fits) :
    ∀ r ∈ t.rules, r.Fits := by
  induction h with
  | done => exact fits
  | @step s m t target _ first _ ih =>
    refine ih fun r hr => ?_
    rcases ((first.mem r).mp hr).2 with old | ⟨⟨u, -, i, hi, -, -, rfl⟩, -⟩
    · exact fits r old
    · exact ⟨(fits i hi).filled, (fits i hi).binary, (fits i hi).long⟩

/-- A property that composed weights inherit stays with all weights. -/
theorem Expansions.weights {admits : W → Prop}
    (compose : ∀ {a b}, admits a → admits b → admits (Weight.compose a b)) (h : Expansions s t)
    (weights : ∀ r ∈ s.rules, admits r.weight) : ∀ r ∈ t.rules, admits r.weight := by
  induction h with
  | done => exact weights
  | step _ first _ ih =>
    refine ih fun r hr => ?_
    rcases ((first.mem r).mp hr).2 with old | ⟨⟨u, hu, i, hi, -, -, rfl⟩, -⟩
    · exact weights r old
    · exact compose (weights u hu) (weights i hi)

end Store

namespace Grammar

variable {W M : Type} [Weight W] {g h : Grammar W}

/-- When a conversion succeeds, it is unit elimination, a chain of splitting steps, and new
numbers for the rules. -/
theorem normalForm_cases (h_ok : g.normalForm = .ok h) :
    ∃ store split, g.store.eliminateUnits = .ok store ∧
      SplitChain store.symbols (g.withStore store) split ∧
      h = split.withStore split.store.renumber := by
  rw [normalForm] at h_ok
  cases hstore : g.store.eliminateUnits with
  | error e => rw [hstore] at h_ok; cases h_ok
  | ok store =>
    rw [hstore] at h_ok
    cases hsplit : (g.withStore store).splitLongRules with
    | error e => simp only [bind, Except.bind, hsplit] at h_ok; cases h_ok
    | ok split =>
      simp only [bind, Except.bind, hsplit] at h_ok
      split at h_ok
      · cases h_ok
        exact ⟨store, split, rfl, splitChain_of_ok hsplit, rfl⟩
      · cases h_ok

/-- The stages of a conversion: the store between the two halves, and the grammar whose rules get
new numbers. -/
structure Stages (g : Grammar W) (middle : Store W) (split h : Grammar W) : Prop where
  /-- The store in between is what unit elimination leaves. -/
  eliminated : g.store.eliminateUnits = .ok middle
  /-- Unit elimination expands categories. -/
  expansions : Store.Expansions g.store middle
  /-- The store in between is indexed. -/
  indexedMiddle : middle.Indexed
  /-- Pairs are split off next. -/
  chain : SplitChain middle.symbols (g.withStore middle) split
  /-- The rules before renumbering are listed. -/
  listed : split.store.Listed
  /-- They differ in their sides. -/
  apart : split.store.DistinctSides
  /-- None of them has an empty right side. -/
  filled : split.store.Filled
  /-- Renumbering comes last. -/
  renumbered : h = split.withStore split.store.renumber

/-- A conversion that succeeds on an indexed store went through its stages. -/
theorem exists_stages (indexed : g.store.Indexed) (filled : g.store.Filled)
    (h_ok : g.normalForm = .ok h) : ∃ middle split, Stages g middle split h := by
  obtain ⟨middle, split, hmiddle, chain, renumbered⟩ := normalForm_cases h_ok
  obtain ⟨t, ht, indexedM, filledM, expansions, -⟩ := indexed.eliminateUnits filled
  rw [hmiddle] at ht
  cases ht
  obtain ⟨listed, apart, filledS⟩ :=
    chain.listed (accounted_symbols (g.withStore middle)) indexedM.toListed
      indexedM.distinctSides filledM
  exact ⟨middle, split, hmiddle, expansions, indexedM, chain, listed, apart, filledS, renumbered⟩

namespace Stages

variable {middle : Store W} {split : Grammar W}

/-- At the end the store is indexed. -/
theorem indexed (stages : Stages g middle split h) : h.store.Indexed := by
  rw [stages.renumbered]
  exact stages.apart.indexed_renumber

/-- Renumbering keeps the rules. -/
theorem mem_rules (stages : Stages g middle split h) {r : Rule W} :
    r ∈ h.store.rules ↔ r ∈ split.store.rules := by
  have same : r ∈ split.store.renumber.rules ↔ r ∈ split.store.rules :=
    stages.apart.mem_rules_renumber.trans stages.listed.mem_rules.symm
  rw [stages.renumbered]
  exact same

/-- A rule at the end with one right symbol was there in between. -/
theorem mem_middle_of_single (stages : Stages g middle split h)
    (fits : ∀ r ∈ middle.rules, r.Fits) {r : Rule W} (hr : r ∈ h.store.rules) {a : Symbol}
    (single : r.right = [a]) : r ∈ middle.rules :=
  stages.chain.mem_of_single stages.indexedMiddle.toListed fits (stages.mem_rules.mp hr) single

end Stages

/-- A conversion keeps a store indexed and without empty right sides. -/
theorem indexed_normalForm (indexed : g.store.Indexed) (filled : g.store.Filled)
    (h_ok : g.normalForm = .ok h) : h.store.Indexed ∧ h.store.Filled := by
  obtain ⟨middle, split, stages⟩ := exists_stages indexed filled h_ok
  exact ⟨stages.indexed, fun r hr => stages.filled r (stages.mem_rules.mp hr)⟩

/-- A conversion of rules whose kinds fit leaves such rules, none of them long. -/
theorem fits_normalForm (indexed : g.store.Indexed) (fits : ∀ r ∈ g.store.rules, r.Fits)
    (h_ok : g.normalForm = .ok h) : ∀ r ∈ h.store.rules, r.Fits ∧ r.kind ≠ .long := by
  obtain ⟨middle, split, stages⟩ := exists_stages indexed (fun r hr => (fits r hr).filled) h_ok
  have fitsMiddle := stages.expansions.fits fits
  intro r hr
  exact stages.chain.fits stages.indexedMiddle.toListed fitsMiddle r (stages.mem_rules.mp hr)

/-- A property of weights that composed weights inherit and that of helper rules has stays with all
weights in a conversion. -/
theorem weights_normalForm (admits : W → Prop) (neutral : admits Weight.neutral)
    (compose : ∀ {a b}, admits a → admits b → admits (Weight.compose a b))
    (indexed : g.store.Indexed) (filled : g.store.Filled)
    (weights : ∀ r ∈ g.store.rules, admits r.weight) (h_ok : g.normalForm = .ok h) :
    ∀ r ∈ h.store.rules, admits r.weight := by
  obtain ⟨middle, split, stages⟩ := exists_stages indexed filled h_ok
  have weightsMiddle := stages.expansions.weights compose weights
  intro r hr
  exact stages.chain.weights neutral stages.indexedMiddle.toListed weightsMiddle r
    (stages.mem_rules.mp hr)

/-- A conversion never fails on an indexed store whose kinds fit, whether or not they are up to
date. -/
theorem exists_normalForm (indexed : g.store.Indexed) (fits : ∀ r ∈ g.store.rules, r.Fits) :
    ∃ h, g.normalForm = .ok h := by
  have filled : g.store.Filled := fun r hr => (fits r hr).filled
  obtain ⟨store, hstore, indexedT, filledT, expansions, -⟩ := indexed.eliminateUnits filled
  obtain ⟨split, hsplit⟩ := exists_splitPending store.symbols (g.withStore store)
    indexedT.toListed (expansions.fits fits)
  obtain ⟨-, apart, -⟩ :=
    (splitChain_of_ok hsplit).listed (accounted_symbols (g.withStore store)) indexedT.toListed
      indexedT.distinctSides filledT
  have coherent := apart.indexed_renumber.isCoherent
  refine ⟨split.withStore split.store.renumber, ?_⟩
  rw [normalForm, hstore]
  simp only [bind, Except.bind]
  rw [splitLongRules]
  simp only [withStore] at hsplit ⊢
  rw [hsplit]
  simp only [coherent]
  rfl

/-- What a conversion does to a classified grammar. The store in between has the unit closure of
the rules; the store at the end refines it by new symbols, which are the helpers that come. -/
structure Converts [Monoid M] (g : Grammar W) (middle : Store W) (h : Grammar W) (value : W → M)
    (heads new : Symbol → Bool) : Prop where
  /-- The conversion succeeds. -/
  ok : g.normalForm = .ok h
  /-- The store in between is what unit elimination leaves. -/
  eliminated : g.store.eliminateUnits = .ok middle
  /-- The rules in between are the unit closure. -/
  closed : g.store.UnitClosed middle value
  /-- The rules in between are indexed. -/
  indexedMiddle : middle.Indexed
  /-- The rules in between have the kinds from before. -/
  classified : middle.Classified heads
  /-- The store at the end is indexed. -/
  indexed : h.store.Indexed
  /-- No rule is long at the end. -/
  fits : ∀ r ∈ h.store.rules, r.Fits ∧ r.kind ≠ .long
  /-- New symbols occur in no rule in between. -/
  fresh : ∀ a ∈ middle.symbols, new a = false
  /-- The new symbols become helpers. -/
  helpers : ∀ a, h.isHelper a = (g.isHelper a || new a)
  /-- Splitting keeps the rules for words. -/
  lexical : h.store.Lexical = middle.Lexical
  /-- The store at the end refines the one in between. -/
  refines : middle.Refines h.store value new
  /-- The lexicon and the threshold for rare words stay. -/
  words : h.lexicon = g.lexicon ∧ h.rareBelow = g.rareBelow

/-- Every classified grammar with an indexed store is converted. -/
theorem exists_converts [Monoid M] {value : W → M} (mult : Multiplicative value)
    (indexed : g.store.Indexed) (filled : g.store.Filled) {heads : Symbol → Bool}
    (classified : g.store.Classified heads) :
    ∃ middle h new, Converts g middle h value heads new := by
  have fits : ∀ r ∈ g.store.rules, r.Fits := fun r hr =>
    Rule.fits_of_kindAmong (filled r hr) (classified r hr)
  obtain ⟨h, h_ok⟩ := exists_normalForm indexed fits
  obtain ⟨middle, split, stages⟩ := exists_stages indexed filled h_ok
  obtain ⟨t, ht, -, -, -, loops⟩ := indexed.eliminateUnits filled
  obtain rfl : middle = t := Except.ok.inj (stages.eliminated.symm.trans ht)
  have fitsM := stages.expansions.fits fits
  have listedM := stages.indexedMiddle.toListed
  obtain ⟨new, unspent, helpers, lexical, refines⟩ :=
    stages.chain.refines mult (accounted_symbols (g.withStore middle)) listedM
      stages.indexedMiddle.distinctSides fitsM
  have sameLexical : h.store.Lexical = split.store.Lexical :=
    Store.lexical_congr fun _ => stages.mem_rules
  have sameBranching : h.store.Branching = split.store.Branching :=
    Store.branching_congr fun _ => stages.mem_rules
  obtain rfl := stages.renumbered
  refine ⟨middle, _, new, h_ok, ht, stages.expansions.unitClosed mult classified
    (loops heads classified), stages.indexedMiddle, stages.expansions.classified classified,
    stages.indexed, fun r hr => ?_, fun a ha => ?_, helpers, ?_, ?_, stages.chain.words⟩
  · exact stages.chain.fits listedM fitsM r (stages.mem_rules.mp hr)
  · exact Bool.eq_false_iff.mpr fun hnew => (unspent a hnew).1 ha
  · exact sameLexical.trans (funext fun r => propext (lexical r))
  · constructor
    · rw [sameLexical, sameBranching]
      exact refines.splice
    · rw [sameLexical, sameBranching]
      exact refines.unsplice
    · rw [sameLexical, sameBranching]
      exact refines.unique

end Grammar

end Constituency
