import Constituency.Proofs.Grammar.Reachable

/-!
# Runs of operations

A run starts from the empty grammar and takes one operation after the other:
making a grammar anew, of nothing, of a list of rules or of a treebank, storing
and removing rules, assigning kinds, counting words, changing the threshold for
rare words and converting to normal form. Rules enter as they are made. No
operation ever fails, and after each one both lists of the store name its rules
in strict order and every kind fits its right side.
-/

namespace Constituency

namespace Grammar

variable {W : Type} [Weight W]

/-- Weights for which a treebank gives a grammar. -/
class TreebankWeight (W : Type) [Weight W] where
  /-- The grammar of a treebank. -/
  ofTreebank : List (Tree Symbol) → Nat → Grammar W
  /-- It is made of rules as they are made. -/
  reachable : ∀ trees rareBelow, (ofTreebank trees rareBelow).Reachable Rule.Provisional

instance : TreebankWeight Unit where
  ofTreebank := ofTrees
  reachable := Reachable.ofTrees

instance {R : Type} [ProbabilityNumber R] : TreebankWeight (Probability R) where
  ofTreebank := estimate
  reachable := Reachable.estimate

/-- An operation on a grammar; the rules it brings are as they are made. -/
inductive Operation (W : Type) where
  /-- Starts again with the empty grammar. -/
  | new
  /-- Starts again with the grammar of a list of rules. -/
  | ofRules (rules : List (Rule W)) (made : ∀ r ∈ rules, r.Provisional)
  /-- Starts again with the grammar of a treebank. -/
  | ofTreebank (trees : List (Tree Symbol)) (rareBelow : Nat)
  /-- Stores a rule. -/
  | add (r : Rule W) (made : r.Provisional)
  /-- Removes the rule with the sides of the given one. -/
  | remove (r : Rule W)
  /-- Gives all rules their kinds. -/
  | assignKinds
  /-- Counts a word so many times more. -/
  | countWord (word : String) (n : Nat)
  /-- Changes the threshold for rare words. -/
  | setRareBelow (n : Nat)
  /-- Converts to normal form. -/
  | convert

variable [TreebankWeight W]

/-- Takes one operation. -/
def step (g : Grammar W) : Operation W → Except Fault (Grammar W)
  | .new => .ok {}
  | .ofRules rules _ => .ok (.ofRules rules)
  | .ofTreebank trees rareBelow => .ok (TreebankWeight.ofTreebank trees rareBelow)
  | .add r _ => .ok (g.withStore (g.store.add r).1)
  | .remove r => (g.store.remove r).map fun result => g.withStore result.1
  | .assignKinds => .ok (g.withStore g.store.assignKinds)
  | .countWord word n => .ok (g.countWord word n)
  | .setRareBelow n => .ok { g with rareBelow := n }
  | .convert => g.normalForm

/-- Takes the operations of a list one by one. -/
def execute (g : Grammar W) : List (Operation W) → Except Fault (Grammar W)
  | [] => .ok g
  | op :: ops => do (← g.step op).execute ops

variable {g : Grammar W}

/-- No operation fails within reach, and none leads out of it. -/
theorem Reachable.step (h : g.Reachable Rule.Provisional) (op : Operation W) :
    ∃ next, g.step op = .ok next ∧ next.Reachable Rule.Provisional := by
  have indexed := (h.indexed_filled fun _ made => made.filled).1
  cases op with
  | new => exact ⟨_, rfl, .empty⟩
  | ofRules rules made => exact ⟨_, rfl, .ofRules made⟩
  | ofTreebank trees rareBelow => exact ⟨_, rfl, TreebankWeight.reachable trees rareBelow⟩
  | add r made => exact ⟨_, rfl, h.add made⟩
  | remove r =>
    obtain ⟨t, old, ht, -, -⟩ := indexed.remove r
    exact ⟨g.withStore t, by rw [Grammar.step, ht]; rfl, h.remove ht⟩
  | assignKinds => exact ⟨_, rfl, h.assignKinds⟩
  | countWord word n => exact ⟨_, rfl, h.countWord word n⟩
  | setRareBelow n => exact ⟨_, rfl, h.setRareBelow n⟩
  | convert =>
    obtain ⟨next, done⟩ := exists_normalForm indexed (h.fits fun _ made => made.fits)
    exact ⟨next, done, h.convert done⟩

/-- No run fails within reach, and none leads out of it. -/
theorem Reachable.execute (h : g.Reachable Rule.Provisional) (ops : List (Operation W)) :
    ∃ last, g.execute ops = .ok last ∧ last.Reachable Rule.Provisional := by
  induction ops generalizing g with
  | nil => exact ⟨g, rfl, h⟩
  | cons op ops ih =>
    obtain ⟨next, first, reached⟩ := h.step op
    obtain ⟨last, rest, reachedLast⟩ := ih reached
    refine ⟨last, ?_, reachedLast⟩
    rw [Grammar.execute, first]
    exact rest

/-- After every run both lists of the store name every rule once and nothing else, each in its
strict order; no two rules have the same sides, every kind fits its right side, which is not empty,
and the check of the lists succeeds. -/
theorem exists_execute_coherent (ops : List (Operation W)) :
    ∃ g : Grammar W, ({} : Grammar W).execute ops = .ok g ∧ g.store.Indexed ∧
      g.store.DistinctSides ∧ (∀ id r, g.store.rule? id = some r → r.Fits) ∧
      g.store.isCoherent = true := by
  obtain ⟨g, done, reached⟩ := Reachable.empty.execute ops
  have indexed := (reached.indexed_filled fun _ made => made.filled).1
  have fits := reached.fits fun _ made => made.fits
  refine ⟨g, done, indexed, indexed.distinctSides, fun id r hr => ?_, indexed.isCoherent⟩
  exact fits r (indexed.mem_rules.mpr ⟨id, hr⟩)

end Grammar

end Constituency
