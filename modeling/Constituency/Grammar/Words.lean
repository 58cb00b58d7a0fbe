import Constituency.Grammar.Basic
import Constituency.Tree.Basic

/-!
# Numbers and rare words

Numbers and words seen too rarely are replaced by one symbol each, in the trees
a grammar is made from and in the sentences it parses. A word that has a rule
of its own is never replaced in a sentence.
-/

namespace Constituency.Grammar

variable {W : Type}

/-- The symbol that stands for a word that is a number, or was seen fewer times than asked. -/
def replacement? (g : Grammar W) (rareBelow : Nat) (word : String) : Option Symbol :=
  if isNumeral word then some .number
  else if g.lexicon.count word < rareBelow then some .rare
  else none

/-- The symbol of a word in a sentence. -/
def tokenSymbol (g : Grammar W) (word : String) : Symbol :=
  if (g.store.wordRules ⟨word⟩).isEmpty then (g.replacement? g.rareBelow word).getD ⟨word⟩
  else ⟨word⟩

/-- The symbols of the words of a sentence. -/
def tokenSymbols (g : Grammar W) (words : List String) : List Symbol :=
  words.map g.tokenSymbol

/-- Replaces the leaves of a tree that are numbers or rare words. -/
def normalizeTree (g : Grammar W) (rareBelow : Nat) (t : Tree Symbol) : Tree Symbol :=
  t.mapLeaves fun s => (g.replacement? rareBelow s.name).getD s

/-- Counts the leaves of trees. -/
def countLeaves (g : Grammar W) (trees : List (Tree Symbol)) : Grammar W :=
  g.countWords ((trees.flatMap Tree.words).map fun leaf => (leaf.name, 1))

end Constituency.Grammar
