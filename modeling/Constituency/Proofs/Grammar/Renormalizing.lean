import Constituency.Proofs.Grammar.Recovery

/-!
# Normalizing twice

Normalization reads the symbols that it writes as if they were words. The symbol
for rare words stays what it is, but the symbol for numbers is no number itself:
where it was seen fewer times than asked, a second normalization takes it for a
rare word. So a tree is normalized once and for all exactly when it has no number
or the symbol for numbers is not rare, and a third normalization never changes
anything.
-/

namespace Constituency

namespace Grammar

variable {W : Type} (g : Grammar W) (rareBelow : Nat)

/-! ## Words -/

/-- What normalization makes of a symbol that it may have written itself: the symbol for numbers
gives way to the one for rare words where it is rare. -/
def retrainedSymbol (s : Symbol) : Symbol :=
  if s = .number ∧ g.lexicon.count Symbol.number.name < rareBelow then .rare else s

/-- The symbol for numbers is read as a word that is no number. -/
theorem trainedSymbol_number :
    g.trainedSymbol rareBelow .number = g.retrainedSymbol rareBelow .number := by
  have notNumeral : isNumeral Symbol.number.name = false := by decide +kernel
  rw [trainedSymbol, replacement?, notNumeral, if_neg Bool.false_ne_true, retrainedSymbol]
  by_cases seldom : g.lexicon.count Symbol.number.name < rareBelow
  · rw [if_pos seldom, if_pos ⟨rfl, seldom⟩]
    rfl
  · rw [if_neg seldom, if_neg fun both => seldom both.2]
    rfl

/-- Of the symbols that normalization gives to words, only the one for numbers may change again. -/
theorem trainedSymbol_twice (w : Symbol) :
    g.trainedSymbol rareBelow (g.trainedSymbol rareBelow w) =
      g.retrainedSymbol rareBelow (g.trainedSymbol rareBelow w) := by
  by_cases number : g.trainedSymbol rareBelow w = .number
  · rw [number, trainedSymbol_number]
  · rw [g.trainedSymbol_trainedSymbol rareBelow number, retrainedSymbol,
      if_neg fun both => number both.1]

/-- What becomes of a word the second time is final. -/
theorem trainedSymbol_thrice (w : Symbol) :
    g.trainedSymbol rareBelow (g.trainedSymbol rareBelow (g.trainedSymbol rareBelow w)) =
      g.trainedSymbol rareBelow (g.trainedSymbol rareBelow w) := by
  rw [g.trainedSymbol_twice rareBelow w, retrainedSymbol]
  split
  · exact g.trainedSymbol_rare rareBelow
  · next stays => rw [trainedSymbol_twice, retrainedSymbol, if_neg stays]

variable {g rareBelow} in
/-- A word that is no number gets the symbol for numbers only where it is this symbol, and then the
symbol is not rare. -/
theorem not_rare_of_trainedSymbol_eq_number {w : Symbol} (word : isNumeral w.name = false)
    (number : g.trainedSymbol rareBelow w = .number) :
    rareBelow ≤ g.lexicon.count Symbol.number.name := by
  rw [trainedSymbol, replacement?, word, if_neg Bool.false_ne_true] at number
  split at number
  · exact absurd (show Symbol.rare = .number from number) (by decide)
  · next frequent =>
    obtain rfl : w = .number := number
    exact Nat.le_of_not_lt frequent

/-- A second normalization leaves the symbol of a word alone exactly when the word is no number or
the symbol for numbers is not rare. -/
theorem trainedSymbol_twice_eq_iff (w : Symbol) :
    g.trainedSymbol rareBelow (g.trainedSymbol rareBelow w) = g.trainedSymbol rareBelow w ↔
      isNumeral w.name = false ∨ rareBelow ≤ g.lexicon.count Symbol.number.name := by
  rw [trainedSymbol_twice]
  constructor
  · intro same
    cases numeral : isNumeral w.name with
    | false => exact Or.inl rfl
    | true =>
      have number : g.trainedSymbol rareBelow w = .number := by
        rw [trainedSymbol, replacement?, numeral, if_pos rfl]
        rfl
      refine Or.inr (Nat.le_of_not_lt fun seldom => ?_)
      rw [number, retrainedSymbol, if_pos ⟨rfl, seldom⟩] at same
      exact absurd same (by decide)
  · intro stays
    refine if_neg fun both => ?_
    rcases stays with word | frequent
    · exact absurd both.2 (Nat.not_lt.mpr (not_rare_of_trainedSymbol_eq_number word both.1))
    · exact absurd both.2 (Nat.not_lt.mpr frequent)

/-! ## Trees -/

/-- Normalizing a tree a second time changes nothing exactly when the tree has no number or the
symbol for numbers is not rare. What it changes are the leaves with this symbol, which become rare
words, and after that nothing changes any more. -/
theorem normalizeTree_twice_eq_iff (t : Tree Symbol) :
    (g.normalizeTree rareBelow (g.normalizeTree rareBelow t) = g.normalizeTree rareBelow t ↔
        (∀ w ∈ t.words, isNumeral w.name = false) ∨
          rareBelow ≤ g.lexicon.count Symbol.number.name) ∧
      g.normalizeTree rareBelow (g.normalizeTree rareBelow t) =
        (g.normalizeTree rareBelow t).mapLeaves (g.retrainedSymbol rareBelow) ∧
      g.normalizeTree rareBelow (g.normalizeTree rareBelow (g.normalizeTree rareBelow t)) =
        g.normalizeTree rareBelow (g.normalizeTree rareBelow t) := by
  have once : ∀ u : Tree Symbol,
      g.normalizeTree rareBelow u = u.mapLeaves (g.trainedSymbol rareBelow) := fun _ => rfl
  refine ⟨?_, ?_, ?_⟩
  · rw [once, once, Tree.mapLeaves_mapLeaves, Tree.mapLeaves_inj]
    simp only [trainedSymbol_twice_eq_iff, forall_or_right]
  · rw [once (g.normalizeTree rareBelow t), once, Tree.mapLeaves_mapLeaves,
      Tree.mapLeaves_mapLeaves, Tree.mapLeaves_inj]
    exact fun w _ => g.trainedSymbol_twice rareBelow w
  · rw [once, once (g.normalizeTree rareBelow t), once t, Tree.mapLeaves_mapLeaves,
      Tree.mapLeaves_mapLeaves, Tree.mapLeaves_mapLeaves, Tree.mapLeaves_inj]
    exact fun w _ => g.trainedSymbol_thrice rareBelow w

/-- A phrase with a number. -/
def threeCats : Tree Symbol :=
  .node ⟨"NP"⟩ [.node ⟨"CD"⟩ [.leaf ⟨"3"⟩], .node ⟨"NNS"⟩ [.leaf ⟨"cats"⟩]]

/-- In the grammar that is made from this phrase, normalizing it a second time changes it. -/
theorem normalizeTree_twice_ne_threeCats :
    (ofTrees [threeCats] 1).normalizeTree 1 ((ofTrees [threeCats] 1).normalizeTree 1 threeCats) ≠
      (ofTrees [threeCats] 1).normalizeTree 1 threeCats := by
  intro same
  have words := congrArg Tree.words same
  revert words
  decide +kernel

end Grammar

end Constituency
