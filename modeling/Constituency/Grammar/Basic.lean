import Constituency.Lexicon
import Constituency.Rule.Text
import Constituency.Store.Lookup
import Std.Data.TreeSet

/-!
# Grammars

A grammar is a rule store with a lexicon. Words seen fewer times than a
threshold count as rare. The grammar also remembers the helper symbols that
conversions to normal form have made, so that no name is made twice.
-/

namespace Constituency

/-- Rules, a lexicon, and what conversions have to remember. -/
structure Grammar (W : Type) where
  /-- The rules. -/
  store : Store W := {}
  /-- How often each word was seen. -/
  lexicon : Lexicon := {}
  /-- Words seen fewer times are rare. -/
  rareBelow : Nat := 1
  /-- Helper symbols with smaller numbers are spent. -/
  helpersSpent : Nat := 0
  /-- The helper symbols made so far. -/
  helpers : Std.TreeSet Symbol := ∅

namespace Grammar

variable {W : Type}

/-- Whether a conversion made the symbol; other symbols of that spelling are no helpers. -/
def isHelper (g : Grammar W) (s : Symbol) : Bool :=
  g.helpers.contains s

/-- Changes the store. -/
def withStore (g : Grammar W) (store : Store W) : Grammar W :=
  { g with store }

/-- Counts a word so many times more. -/
def countWord (g : Grammar W) (word : String) (n : Nat) : Grammar W :=
  { g with lexicon := g.lexicon.add word n }

/-- Counts each listed word so many times more. -/
def countWords (g : Grammar W) (entries : List (String × Nat)) : Grammar W :=
  entries.foldl (fun g entry => g.countWord entry.1 entry.2) g

/-- The grammar of a list of rules: of rules with the same sides the first one is kept. -/
def ofRules (rules : List (Rule W)) : Grammar W :=
  { store := (Store.addAll {} rules).assignKinds }

/-- The text of a grammar: one rule on each line. -/
def text [WeightText W] (g : Grammar W) : String :=
  String.join (g.store.rules.map (·.text ++ "\n"))

end Grammar

/-- Why texts are not a grammar. -/
inductive GrammarError where
  /-- The rules cannot be read. -/
  | rules (cause : RulesError)
  /-- The lexicon cannot be read. -/
  | lexicon (cause : LexiconError)
  /-- There is no rule. -/
  | noRules

/-- The wording of a fault in the texts of a grammar. -/
def GrammarError.message : GrammarError → String
  | .rules cause => cause.message
  | .lexicon cause => cause.message
  | .noRules => "empty ruleset"

namespace Grammar

variable {W : Type} [WeightText W]

/-- Reads a grammar from the texts of its rules and of its lexicon, the rules first. -/
def ofText (rules lexicon : String) (rareBelow : Nat) : Except GrammarError (Grammar W) := do
  let rules ← (Rule.readAll rules).mapError .rules
  let words ← (Lexicon.readEntries lexicon).mapError .lexicon
  return { (ofRules rules).countWords words with rareBelow }

/-- Reads a grammar without a lexicon, which must have a rule. -/
def ofRuleset (rules : String) : Except GrammarError (Grammar W) := do
  let rules ← (Rule.readAll rules).mapError .rules
  if rules.isEmpty then throw .noRules
  return ofRules rules

end Grammar

end Constituency
