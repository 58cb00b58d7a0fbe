import Constituency.Proofs.Chart.Exhaustive

/-!
# Conversion keeps the parses

The chart derivations of a converted grammar, with helpers spliced out, are the
derivations by the unit closure of its rules, each once; these are the collapsed
derivations of the grammar before. So the parser shows exactly the collapsed
derivations, without repetition and without helpers.
-/

namespace Constituency

namespace Tree

mutual

/-- Restoring words keeps the labels of inner nodes. -/
theorem exists_inner_of_restoreWords {sentence : List String} {t u : Tree Symbol}
    (hu : u ∈ (t.restoreWords sentence).subtrees) (inner : u.isLeaf = false) :
    ∃ v ∈ t.subtrees, v.isLeaf = false ∧ v.label = u.label := by
  match t with
  | .node a [] =>
    rw [restoreWords, subtrees, subtreesAll, List.mem_singleton] at hu
    subst hu
    cases inner
  | .node a (c :: cs) =>
    rw [restoreWords, subtrees] at hu
    rw [subtrees]
    rcases List.mem_cons.mp hu with rfl | below
    · exact ⟨_, List.mem_cons_self, rfl, rfl⟩
    · have below' : u ∈ subtreesAll (restoreWordsAll sentence (c :: cs)) := by
        rwa [restoreWordsAll]
      obtain ⟨v, hv, innerV, label⟩ := exists_inner_of_restoreWordsAll below' inner
      exact ⟨v, List.mem_cons_of_mem _ hv, innerV, label⟩

/-- Restoring words of a list of trees keeps the labels of inner nodes. -/
theorem exists_inner_of_restoreWordsAll {sentence : List String} {cs : List (Tree Symbol)}
    {u : Tree Symbol} (hu : u ∈ subtreesAll (restoreWordsAll sentence cs))
    (inner : u.isLeaf = false) :
    ∃ v ∈ subtreesAll cs, v.isLeaf = false ∧ v.label = u.label := by
  match cs with
  | [] => exact absurd hu List.not_mem_nil
  | c :: cs =>
    rw [restoreWordsAll, subtreesAll] at hu
    rw [subtreesAll]
    rcases List.mem_append.mp hu with first | rest
    · obtain ⟨v, hv, innerV, label⟩ := exists_inner_of_restoreWords first inner
      exact ⟨v, List.mem_append_left _ hv, innerV, label⟩
    · obtain ⟨v, hv, innerV, label⟩ := exists_inner_of_restoreWordsAll rest inner
      exact ⟨v, List.mem_append_right _ hv, innerV, label⟩

end

end Tree

namespace Store

variable {W M : Type} [Monoid M] {value : W → M} {s t : Store W} {heads : Symbol → Bool}

/-- There is no rule for a word exactly when no rule for a word has it on the right. -/
theorem Indexed.isEmpty_wordRules (h : s.Indexed) {word : Symbol} :
    (s.wordRules word).isEmpty = true ↔ ∀ r, s.Lexical r → r.right ≠ [word] := by
  rw [List.isEmpty_iff, List.eq_nil_iff_forall_not_mem]
  constructor
  · intro none r lexical right
    exact none r (h.mem_wordRules.mpr ⟨lexical.1, right, lexical.2⟩)
  · intro none r hr
    obtain ⟨stored, right, kind⟩ := h.mem_wordRules.mp hr
    exact none r ⟨stored, kind⟩ right

/-- A store and its unit closure have rules for the same words. -/
theorem UnitClosed.exists_lexical_iff (h : s.UnitClosed t value) {right : List Symbol} :
    (∃ r, t.Lexical r ∧ r.right = right) ↔ ∃ r, s.Lexical r ∧ r.right = right := by
  constructor
  · rintro ⟨r, lexical, rfl⟩
    have other : r.kind ≠ .unit := by rw [lexical.2]; exact RuleKind.noConfusion
    obtain ⟨q, unfolds, same, kind⟩ := h.before r lexical.1 other
    exact ⟨q, ⟨unfolds.target.1, kind.trans lexical.2⟩, same⟩
  · rintro ⟨r, lexical, rfl⟩
    have other : r.kind ≠ .unit := by rw [lexical.2]; exact RuleKind.noConfusion
    obtain ⟨q, stored, -, same, kind⟩ := h.after r.left r _ (.rule lexical.1 other)
    exact ⟨q, ⟨stored, kind.trans lexical.2⟩, same⟩

end Store

namespace Grammar

variable {W M : Type} [Weight W] [Monoid M] {g h : Grammar W} {middle : Store W} {value : W → M}
  {heads new : Symbol → Bool}

namespace Converts

/-- Sentences have the same symbols before and after a conversion. -/
theorem tokenSymbols (conv : Converts g middle h value heads new) (indexed : g.store.Indexed)
    (words : List String) : h.tokenSymbols words = g.tokenSymbols words := by
  refine List.map_congr_left fun word _ => ?_
  have empty : (h.store.wordRules ⟨word⟩).isEmpty = (g.store.wordRules ⟨word⟩).isEmpty := by
    rw [Bool.eq_iff_iff, conv.indexed.isEmpty_wordRules, indexed.isEmpty_wordRules, conv.lexical]
    have same : (∃ r, middle.Lexical r ∧ r.right = [⟨word⟩]) ↔
        ∃ r, g.store.Lexical r ∧ r.right = [⟨word⟩] := conv.closed.exists_lexical_iff
    constructor
    · intro none r lexical right
      obtain ⟨q, hq⟩ := same.mpr ⟨r, lexical, right⟩
      exact none q hq.1 hq.2
    · intro none r lexical right
      obtain ⟨q, hq⟩ := same.mp ⟨r, lexical, right⟩
      exact none q hq.1 hq.2
  rw [tokenSymbol, tokenSymbol, replacement?, replacement?, empty, conv.words.1, conv.words.2]

/-- A chart derivation spells a sentence exactly when a derivation that collapses to it does. -/
theorem words_iff (conv : Converts g middle h value heads new) (indexed : g.store.Indexed)
    (words : List String) {c d : Tree Symbol} (same : c.splice h.isHelper = d.collapse) :
    c.words = h.tokenSymbols words ↔ d.words = g.tokenSymbols words := by
  rw [← Tree.words_splice h.isHelper, same, Tree.words_collapse, conv.tokenSymbols indexed]

/-- After a conversion the branching rules have exactly two right symbols. -/
theorem pairing (conv : Converts g middle h value heads new) :
    h.store.Pairing = h.store.Branching := by
  funext r
  refine propext ⟨fun hr => ⟨hr.1, Nat.le_of_eq hr.2.symm⟩, fun hr => ⟨hr.1, ?_⟩⟩
  obtain ⟨fits, notLong⟩ := conv.fits r hr.1
  have short : ¬3 ≤ r.right.length := fun long => notLong (fits.long.mpr long)
  have two := hr.2
  omega

/-- When nothing was a helper before, the helpers are the new symbols. -/
theorem isHelper_eq (conv : Converts g middle h value heads new)
    (unconverted : ∀ a, g.isHelper a = false) : h.isHelper = new := by
  funext a
  rw [conv.helpers, unconverted, Bool.false_or]

/-- The left symbol of a rule before the conversion that is no unit rule becomes no helper. -/
theorem not_isHelper_left (conv : Converts g middle h value heads new)
    (unconverted : ∀ a, g.isHelper a = false) {r : Rule W} (hr : r ∈ g.store.rules)
    (other : r.kind ≠ .unit) : h.isHelper r.left = false := by
  obtain ⟨q, hq, left, -⟩ := conv.closed.after r.left r _ (.rule hr other)
  rw [conv.isHelper_eq unconverted, ← left]
  exact conv.fresh q.left (Store.mem_symbols hq List.mem_cons_self)

/-- A symbol that derives something before the conversion occurs in a rule in between. -/
theorem mem_symbols_of_derives (conv : Converts g middle h value heads new)
    (filled : g.store.Filled) (classified : g.store.Classified heads) {a : Symbol}
    {symbols : List Symbol} {trees : List (Tree Symbol)} {used : List (Rule W)}
    (hd : Derives g.store.Lexical g.store.Phrasal (a :: symbols) trees used) :
    a ∈ middle.symbols := by
  obtain ⟨kept, hkept, -⟩ := conv.closed.dominates.derives_collapse Store.comparison_trivial
    conv.closed classified conv.classified filled hd
  obtain ⟨t, rest, first, second, -, -, ha, -⟩ := hkept.uncons
  cases ha with
  | word licence => exact Store.mem_symbols licence.1 List.mem_cons_self
  | node licence => exact Store.mem_symbols licence.1 List.mem_cons_self

/-- A chart derivation with its helpers spliced out is a derivation by the unit closure, with the
same product. -/
theorem derives_splice (conv : Converts g middle h value heads new)
    (unconverted : ∀ a, g.isHelper a = false) {start : Symbol} (plain : h.isHelper start = false)
    {c : Tree Symbol} {used : List (Rule W)}
    (hc : Derives h.store.Lexical h.store.Pairing [start] [c] used) :
    ∃ rules, Derives middle.Lexical middle.Branching [start] [c.splice h.isHelper] rules ∧
      Rule.product value rules = Rule.product value used := by
  have label : c.label = start := (List.cons.inj hc.labels).1
  rw [conv.isHelper_eq unconverted] at plain ⊢
  rw [conv.pairing] at hc
  rw [← Tree.spliceAll_singleton (by rw [label]; exact plain)]
  exact conv.refines.splice (fun a ha => List.mem_singleton.mp ha ▸ plain) hc

/-- Every derivation by the unit closure is a chart derivation with its helpers spliced out, with
the same product. -/
theorem exists_chart (conv : Converts g middle h value heads new)
    (unconverted : ∀ a, g.isHelper a = false) {start : Symbol} (plain : h.isHelper start = false)
    {e : Tree Symbol} {rules : List (Rule W)}
    (he : Derives middle.Lexical middle.Branching [start] [e] rules) :
    ∃ c used, Derives h.store.Lexical h.store.Pairing [start] [c] used ∧
      c.splice h.isHelper = e ∧ Rule.product value used = Rule.product value rules := by
  rw [conv.isHelper_eq unconverted] at plain ⊢
  rw [conv.pairing]
  obtain ⟨before, used, hbefore, spliced, product⟩ :=
    conv.refines.unsplice (fun a ha => List.mem_singleton.mp ha ▸ plain) he
  obtain ⟨c, rest, first, second, rfl, rfl, hc, hrest⟩ := hbefore.uncons
  cases hrest
  have label : c.label = start := (List.cons.inj hc.labels).1
  rw [Tree.spliceAll_singleton (by rw [label]; exact plain)] at spliced
  exact ⟨c, _, hc, (List.cons.inj spliced).1, by rwa [List.append_nil] at product⟩

/-- Splicing the helpers out keeps chart derivations apart. -/
theorem splice_inj (conv : Converts g middle h value heads new)
    (unconverted : ∀ a, g.isHelper a = false) {start : Symbol} (plain : h.isHelper start = false)
    {c d : Tree Symbol} {used more : List (Rule W)}
    (hc : Derives h.store.Lexical h.store.Pairing [start] [c] used)
    (hd : Derives h.store.Lexical h.store.Pairing [start] [d] more)
    (same : c.splice h.isHelper = d.splice h.isHelper) : c = d := by
  have labelC : c.label = start := (List.cons.inj hc.labels).1
  have labelD : d.label = start := (List.cons.inj hd.labels).1
  rw [conv.isHelper_eq unconverted] at plain same
  rw [conv.pairing] at hc hd
  refine (List.cons.inj (conv.refines.unique
    (fun a ha => List.mem_singleton.mp ha ▸ plain) hc hd ?_)).1
  rw [Tree.spliceAll_singleton (by rw [labelC]; exact plain),
    Tree.spliceAll_singleton (by rw [labelD]; exact plain), same]

/-- A chart derivation with its helpers spliced out is a collapsed derivation of the grammar before,
with the same product. -/
theorem exists_derivation (conv : Converts g middle h value heads new)
    (unconverted : ∀ a, g.isHelper a = false) {start : Symbol} (plain : h.isHelper start = false)
    {c : Tree Symbol} {used : List (Rule W)}
    (hc : Derives h.store.Lexical h.store.Pairing [start] [c] used) :
    ∃ d rules, Derives g.store.Lexical g.store.Phrasal [start] [d] rules ∧
      d.collapse = c.splice h.isHelper ∧
      Rule.product value rules = Rule.product value used := by
  obtain ⟨kept, hkept, productKept⟩ := conv.derives_splice unconverted plain hc
  obtain ⟨before, rules, hbefore, collapsed, product⟩ :=
    conv.closed.exists_derivation conv.classified hkept
  obtain ⟨d, rest, first, second, rfl, rfl, hd, hrest⟩ := hbefore.uncons
  cases hrest
  rw [List.map_cons, List.map_nil] at collapsed
  rw [List.append_nil] at product
  exact ⟨d, first, hd, (List.cons.inj collapsed).1, product.trans productKept⟩

/-- Every collapsed derivation of the grammar before is a chart derivation with its helpers spliced
out, and the products compare when the rules in between dominate those before. -/
theorem exists_chart_of_derivation (conv : Converts g middle h value heads new)
    (unconverted : ∀ a, g.isHelper a = false) (filled : g.store.Filled)
    (classified : g.store.Classified heads) {le : M → M → Prop} (cmp : Store.Comparison le)
    (dominates : g.store.Dominates middle value le) {start : Symbol}
    (plain : h.isHelper start = false) {d : Tree Symbol} {rules : List (Rule W)}
    (hd : Derives g.store.Lexical g.store.Phrasal [start] [d] rules) :
    ∃ c used, Derives h.store.Lexical h.store.Pairing [start] [c] used ∧
      c.splice h.isHelper = d.collapse ∧
      le (Rule.product value rules) (Rule.product value used) := by
  obtain ⟨kept, hkept, compare⟩ :=
    dominates.derives_collapse cmp conv.closed classified conv.classified filled hd
  obtain ⟨c, used, hc, spliced, product⟩ := conv.exists_chart unconverted plain hkept
  exact ⟨c, used, hc, spliced, product ▸ compare⟩

/-- No inner node of a chart derivation is a helper once the helpers are spliced out. -/
theorem not_isHelper_splice (conv : Converts g middle h value heads new)
    (unconverted : ∀ a, g.isHelper a = false) {start : Symbol} (plain : h.isHelper start = false)
    {c u : Tree Symbol} {used : List (Rule W)}
    (hc : Derives h.store.Lexical h.store.Pairing [start] [c] used)
    (hu : u ∈ (c.splice h.isHelper).subtrees) (inner : u.isLeaf = false) :
    h.isHelper u.label = false := by
  obtain ⟨kept, hkept, -⟩ := conv.derives_splice unconverted plain hc
  obtain ⟨r, hr, label⟩ :=
    hkept.exists_rule_of_mem_subtrees (List.mem_singleton_self _) hu inner
  have stored : r ∈ middle.rules := (hkept.licensed r hr).elim And.left And.left
  rw [conv.isHelper_eq unconverted, label]
  exact conv.fresh r.left (Store.mem_symbols stored List.mem_cons_self)

end Converts

variable {S : Type} [Score S] [WeightScore W S]

/-- Converting a grammar keeps its parses. The grammar has the kinds that its rules are assigned
and was not converted before. Then the conversion succeeds, and for a start symbol that is no helper
the parser shows the collapsed derivations of the grammar before, each once, and helpers at no inner
node; it shows none exactly when there is none. -/
theorem parse_normalForm (g : Grammar W) (reachable : g.Reachable (·.right ≠ []))
    (assigned : g.store.assignKinds = g.store) (unconverted : ∀ a, g.isHelper a = false) :
    ∃ h, g.normalForm = .ok h ∧ ∀ start words, h.isHelper start = false →
      ((h.parse (S := S) start words).map NodeTable.toTree).Nodup ∧
      (∀ t, t ∈ (h.parse (S := S) start words).map NodeTable.toTree ↔
        ∃ d used, g.Derivation start (g.tokenSymbols words) d used ∧
          t = d.collapse.restoreWords words) ∧
      (∀ t ∈ (h.parse (S := S) start words).map NodeTable.toTree, ∀ u ∈ t.subtrees,
        u.isLeaf = false → h.isHelper u.label = false) ∧
      (h.parse (S := S) start words ≠ [] ↔
        ∃ d used, g.Derivation start (g.tokenSymbols words) d used) := by
  obtain ⟨indexed, filled⟩ := reachable.indexed_filled fun _ filled => filled
  have classified := Store.classified_of_assignKinds assigned
  obtain ⟨middle, h, new, conv⟩ := exists_converts multiplicative_one indexed filled classified
  refine ⟨h, conv.ok, fun start words plain => ?_⟩
  have shown : ∀ t, t ∈ (h.parse (S := S) start words).map NodeTable.toTree ↔
      ∃ d used, g.Derivation start (g.tokenSymbols words) d used ∧
        t = d.collapse.restoreWords words := by
    intro t
    rw [map_toTree_parse, List.mem_map]
    constructor
    · rintro ⟨c, hc, rfl⟩
      obtain ⟨used, derives, spells⟩ := (mem_goalTrees conv.indexed).mp hc
      obtain ⟨d, rules, hd, collapsed, -⟩ := conv.exists_derivation unconverted plain derives
      exact ⟨d, rules, ⟨hd, (conv.words_iff indexed words collapsed.symm).mp spells⟩,
        by rw [collapsed]⟩
    · rintro ⟨d, rules, ⟨hd, spells⟩, rfl⟩
      obtain ⟨c, used, hc, spliced, -⟩ := conv.exists_chart_of_derivation unconverted filled
        classified Store.comparison_trivial conv.closed.dominates plain hd
      have spellsC := (conv.words_iff indexed words spliced).mpr spells
      exact ⟨c, (mem_goalTrees conv.indexed).mpr ⟨used, hc, spellsC⟩, by rw [spliced]⟩
  refine ⟨?_, shown, ?_, ?_⟩
  · rw [map_toTree_parse]
    refine (nodup_goalTrees conv.indexed start words).map_on fun c hc d hd same => ?_
    obtain ⟨used, derivesC, spellsC⟩ := (mem_goalTrees conv.indexed).mp hc
    obtain ⟨more, derivesD, spellsD⟩ := (mem_goalTrees conv.indexed).mp hd
    refine conv.splice_inj unconverted plain derivesC derivesD (Tree.restoreWords_inj ?_ same)
    rw [Tree.words_splice, Tree.words_splice, spellsC, spellsD]
  · intro t ht u hu inner
    rw [map_toTree_parse, List.mem_map] at ht
    obtain ⟨c, hc, rfl⟩ := ht
    obtain ⟨used, derives, -⟩ := (mem_goalTrees conv.indexed).mp hc
    obtain ⟨v, hv, innerV, label⟩ := Tree.exists_inner_of_restoreWords hu inner
    rw [← label]
    exact conv.not_isHelper_splice unconverted plain derives hv innerV
  · constructor
    · intro some_tree
      obtain ⟨t, ht⟩ := List.exists_mem_of_ne_nil _ some_tree
      obtain ⟨d, used, hd, -⟩ := (shown t.toTree).mp (List.mem_map_of_mem ht)
      exact ⟨d, used, hd⟩
    · rintro ⟨d, used, hd⟩ none
      have ht := (shown _).mpr ⟨d, used, hd, rfl⟩
      rw [none] at ht
      exact List.not_mem_nil ht

/-- A grammar with a cycle of unit rules and a long rule. -/
def looped : Grammar Unit :=
  ofRules [⟨⟨"S"⟩, [⟨"A"⟩, ⟨"A"⟩, ⟨"B"⟩], .long, ()⟩, ⟨⟨"A"⟩, [⟨"B"⟩], .terminal, ()⟩,
    ⟨⟨"B"⟩, [⟨"A"⟩], .terminal, ()⟩, ⟨⟨"B"⟩, [⟨"b"⟩], .terminal, ()⟩]

/-- The tree of three words is shown with neither the cycle nor the helper. -/
theorem parse_normalForm_looped :
    looped.Reachable (·.right ≠ []) ∧ looped.store.assignKinds = looped.store ∧
    (∀ a, looped.isHelper a = false) ∧
    ∃ h, looped.normalForm = .ok h ∧ h.isHelper ⟨"S"⟩ = false ∧
      .node ⟨"S"⟩
          [.node ⟨"A"⟩ [.leaf ⟨"b"⟩], .node ⟨"A"⟩ [.leaf ⟨"b"⟩], .node ⟨"B"⟩ [.leaf ⟨"b"⟩]] ∈
        (h.parse (S := Float) ⟨"S"⟩ ["b", "b", "b"]).map NodeTable.toTree := by
  have reachable : looped.Reachable (·.right ≠ []) := Reachable.ofRules (by simp)
  have assigned : looped.store.assignKinds = looped.store := Store.assignKinds_assignKinds _
  have unconverted : ∀ a, looped.isHelper a = false := fun a => Std.TreeSet.contains_emptyc
  obtain ⟨indexed, filled⟩ := reachable.indexed_filled fun _ filled => filled
  obtain ⟨middle, h, new, conv⟩ := exists_converts multiplicative_one indexed filled
    (Store.classified_of_assignKinds assigned)
  obtain ⟨h', h_ok, shown⟩ := parse_normalForm (S := Float) looped reachable assigned unconverted
  obtain rfl : h = h' := Except.ok.inj (conv.ok.symm.trans h_ok)
  have long : looped.store.Phrasal ⟨⟨"S"⟩, [⟨"A"⟩, ⟨"A"⟩, ⟨"B"⟩], .long, ()⟩ := by decide +kernel
  have unit : looped.store.Phrasal ⟨⟨"A"⟩, [⟨"B"⟩], .unit, ()⟩ := by decide +kernel
  have word : looped.store.Lexical ⟨⟨"B"⟩, [⟨"b"⟩], .terminal, ()⟩ := by decide +kernel
  have plain : h.isHelper ⟨"S"⟩ = false :=
    conv.not_isHelper_left unconverted long.1 RuleKind.noConfusion
  refine ⟨reachable, assigned, unconverted, h, h_ok, plain, ?_⟩
  refine ((shown ⟨"S"⟩ ["b", "b", "b"] plain).2.1 _).mpr ?_
  have below : Derives looped.store.Lexical looped.store.Phrasal [⟨"B"⟩]
      [.node ⟨"B"⟩ [.leaf ⟨"b"⟩]] [⟨⟨"B"⟩, [⟨"b"⟩], .terminal, ()⟩] := .single_word word rfl
  have chain := Derives.single_node unit below
  exact ⟨_, _, ⟨.single_node long (chain.append (chain.append below)), by decide +kernel⟩, rfl⟩

end Grammar

end Constituency
