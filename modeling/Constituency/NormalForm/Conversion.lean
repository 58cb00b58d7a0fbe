import Constituency.NormalForm.LongRules
import Constituency.NormalForm.UnitRules

/-!
# Chomsky normal form

In normal form every rule expands a category into a word or into two symbols.
A grammar is brought there by eliminating its unit rules, splitting its long
rules and sorting the store anew, which gives the rules new numbers.
-/

namespace Constituency.Grammar

variable {W : Type} [Weight W]

/-- Brings a grammar into Chomsky normal form. -/
def normalForm (g : Grammar W) : Except Fault (Grammar W) := do
  let store ← g.store.eliminateUnits
  let split ← (g.withStore store).splitLongRules
  let sorted := split.withStore split.store.renumber
  if sorted.store.isCoherent then return sorted else throw .indicesOutOfSync

end Constituency.Grammar
