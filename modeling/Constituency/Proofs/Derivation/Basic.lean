import Constituency.Grammar.Basic
import Constituency.Proofs.Tree.Reshaping

/-!
# Derivations

A derivation is a tree that a grammar licenses node by node: a rule for a word
puts that word under its left symbol, every other rule puts one inner node for
each symbol of its right side. `Derives` speaks of lists of trees, one for each
symbol of a list, and also records the rules used, parents before children. The
two predicates that it takes tell which rules may stand over words and which
over inner nodes, so that the parser, a grammar as loaded and a grammar halfway
through a conversion are cases of one relation.
-/

namespace Constituency

variable {W : Type}

/-- A list of symbols derives a list of trees, one tree for each symbol, by the rules used. -/
inductive Derives (lexical inner : Rule W → Prop) :
    List Symbol → List (Tree Symbol) → List (Rule W) → Prop
  /-- No symbols derive no trees. -/
  | nil : Derives lexical inner [] [] []
  /-- A rule for a word puts a leaf below its left symbol. -/
  | word {r : Rule W} {a : Symbol} {symbols : List Symbol} {trees : List (Tree Symbol)}
      {used : List (Rule W)} (licence : lexical r) (right : r.right = [a])
      (rest : Derives lexical inner symbols trees used) :
      Derives lexical inner (r.left :: symbols) (.node r.left [.leaf a] :: trees) (r :: used)
  /-- Another rule puts what its right side derives below its left symbol. -/
  | node {r : Rule W} {children : List (Tree Symbol)} {below : List (Rule W)}
      {symbols : List Symbol} {trees : List (Tree Symbol)} {used : List (Rule W)}
      (licence : inner r) (right : Derives lexical inner r.right children below)
      (rest : Derives lexical inner symbols trees used) :
      Derives lexical inner (r.left :: symbols) (.node r.left children :: trees)
        (r :: (below ++ used))

namespace Derives

variable {lexical inner : Rule W → Prop}

/-- A symbol derives a leaf below it by a rule for the word. -/
theorem single_word {r : Rule W} {a : Symbol} (licence : lexical r) (right : r.right = [a]) :
    Derives lexical inner [r.left] [.node r.left [.leaf a]] [r] :=
  .word licence right .nil

/-- A symbol derives what the right side of a rule derives, below it. -/
theorem single_node {r : Rule W} {children : List (Tree Symbol)} {below : List (Rule W)}
    (licence : inner r) (right : Derives lexical inner r.right children below) :
    Derives lexical inner [r.left] [.node r.left children] (r :: below) := by
  have := Derives.node licence right Derives.nil
  rwa [List.append_nil] at this

/-- Derivations of two lists of symbols stand side by side. -/
theorem append {symbols more : List Symbol} {trees others : List (Tree Symbol)}
    {used further : List (Rule W)} (first : Derives lexical inner symbols trees used)
    (second : Derives lexical inner more others further) :
    Derives lexical inner (symbols ++ more) (trees ++ others) (used ++ further) := by
  induction first with
  | nil => exact second
  | word licence right _ ih => exact .word licence right ih
  | node licence right _ _ ih =>
    rw [List.cons_append, List.cons_append, List.cons_append, List.append_assoc]
    exact .node licence right ih

/-- A derivation of two lists of symbols falls into one of each. -/
theorem split {symbols more : List Symbol} {trees : List (Tree Symbol)} {used : List (Rule W)}
    (h : Derives lexical inner (symbols ++ more) trees used) :
    ∃ front back first second, trees = front ++ back ∧ used = first ++ second ∧
      Derives lexical inner symbols front first ∧ Derives lexical inner more back second := by
  induction symbols generalizing trees used with
  | nil => exact ⟨[], trees, [], used, rfl, rfl, .nil, h⟩
  | cons x symbols ih =>
    cases h with
    | word licence right rest =>
      obtain ⟨front, back, first, second, rfl, rfl, hfront, hback⟩ := ih rest
      exact ⟨_ :: front, back, _ :: first, second, rfl, rfl, .word licence right hfront, hback⟩
    | node licence right rest =>
      obtain ⟨front, back, first, second, rfl, rfl, hfront, hback⟩ := ih rest
      refine ⟨_ :: front, back, _ :: (_ ++ first), second, rfl, ?_,
        .node licence right hfront, hback⟩
      rw [List.cons_append, List.append_assoc]

/-- A derivation of a symbol and more falls into one of each. -/
theorem uncons {x : Symbol} {symbols : List Symbol} {trees : List (Tree Symbol)}
    {used : List (Rule W)} (h : Derives lexical inner (x :: symbols) trees used) :
    ∃ t rest first second, trees = t :: rest ∧ used = first ++ second ∧
      Derives lexical inner [x] [t] first ∧ Derives lexical inner symbols rest second := by
  cases h with
  | word licence right rest =>
    exact ⟨_, _, [_], _, rfl, rfl, single_word licence right, rest⟩
  | node licence right rest =>
    exact ⟨_, _, _ :: _, _, rfl, rfl, single_node licence right, rest⟩

/-- The roots of the trees are the symbols. -/
theorem labels {symbols : List Symbol} {trees : List (Tree Symbol)} {used : List (Rule W)}
    (h : Derives lexical inner symbols trees used) : trees.map Tree.label = symbols := by
  induction h with
  | nil => rfl
  | word _ _ _ ih => rw [List.map_cons, ih]; rfl
  | node _ _ _ _ ih => rw [List.map_cons, ih]; rfl

/-- There is one tree for each symbol. -/
theorem length_eq {symbols : List Symbol} {trees : List (Tree Symbol)} {used : List (Rule W)}
    (h : Derives lexical inner symbols trees used) : trees.length = symbols.length := by
  rw [← h.labels, List.length_map]

/-- Some symbols derive some trees. -/
theorem ne_nil {symbols : List Symbol} {trees : List (Tree Symbol)} {used : List (Rule W)}
    (h : Derives lexical inner symbols trees used) (some_symbol : symbols ≠ []) : trees ≠ [] := by
  rintro rfl
  exact some_symbol h.labels.symm

/-- When no rule over inner nodes has an empty right side, derived trees are no leaves. -/
theorem not_isLeaf (filled : ∀ r, inner r → r.right ≠ []) {symbols : List Symbol}
    {trees : List (Tree Symbol)} {used : List (Rule W)}
    (h : Derives lexical inner symbols trees used) : ∀ t ∈ trees, t.isLeaf = false := by
  induction h with
  | nil => exact fun t ht => nomatch ht
  | word _ _ _ ih =>
    intro t ht
    rcases List.mem_cons.mp ht with rfl | ht
    · rfl
    · exact ih t ht
  | @node r children below _ _ _ licence right _ _ ih =>
    intro t ht
    rcases List.mem_cons.mp ht with rfl | ht
    · exact Tree.isLeaf_node _ (right.ne_nil (filled r licence))
    · exact ih t ht

/-- A derivation uses licensed rules only. -/
theorem licensed {symbols : List Symbol} {trees : List (Tree Symbol)} {used : List (Rule W)}
    (h : Derives lexical inner symbols trees used) : ∀ r ∈ used, lexical r ∨ inner r := by
  induction h with
  | nil => exact fun r hr => nomatch hr
  | word licence _ _ ih =>
    intro r hr
    rcases List.mem_cons.mp hr with rfl | hr
    · exact Or.inl licence
    · exact ih r hr
  | node licence _ _ ihRight ih =>
    intro r hr
    rcases List.mem_cons.mp hr with rfl | hr
    · exact Or.inr licence
    · exact (List.mem_append.mp hr).elim (ihRight r) (ih r)

/-- Every inner node of a derived tree is the left symbol of a licensed rule. -/
theorem exists_rule_of_mem_subtrees {symbols : List Symbol} {trees : List (Tree Symbol)}
    {used : List (Rule W)} (h : Derives lexical inner symbols trees used) {t u : Tree Symbol}
    (ht : t ∈ trees) (hu : u ∈ t.subtrees) (notLeaf : u.isLeaf = false) :
    ∃ r ∈ used, u.label = r.left := by
  induction h generalizing t with
  | nil => cases ht
  | @word r a _ _ _ _ _ _ ih =>
    rcases List.mem_cons.mp ht with rfl | ht
    · simp only [Tree.subtrees, Tree.subtreesAll, List.append_nil, List.mem_cons,
        List.not_mem_nil, or_false] at hu
      rcases hu with rfl | rfl
      · exact ⟨r, List.mem_cons_self, rfl⟩
      · cases notLeaf
    · obtain ⟨q, hq, same⟩ := ih ht hu
      exact ⟨q, List.mem_cons_of_mem _ hq, same⟩
  | @node r children below _ _ used' _ _ _ ihRight ih =>
    rcases List.mem_cons.mp ht with rfl | ht
    · rw [Tree.subtrees, List.mem_cons, Tree.mem_subtreesAll] at hu
      rcases hu with rfl | ⟨c, hc, hu⟩
      · exact ⟨r, List.mem_cons_self, rfl⟩
      · obtain ⟨q, hq, same⟩ := ihRight hc hu
        exact ⟨q, List.mem_cons_of_mem _ (List.mem_append_left _ hq), same⟩
    · obtain ⟨q, hq, same⟩ := ih ht hu
      exact ⟨q, List.mem_cons_of_mem _ (List.mem_append_right _ hq), same⟩

end Derives

/-! ## Rules that may be used -/

namespace Store

/-- A stored rule for a word. -/
def Lexical (s : Store W) (r : Rule W) : Prop :=
  r ∈ s.rules ∧ r.kind = .terminal

/-- A stored rule of another kind. -/
def Phrasal (s : Store W) (r : Rule W) : Prop :=
  r ∈ s.rules ∧ r.kind ≠ .terminal

/-- A stored rule with two right symbols or more. -/
def Branching (s : Store W) (r : Rule W) : Prop :=
  r ∈ s.rules ∧ 2 ≤ r.right.length

/-- A stored rule with exactly two right symbols. -/
def Pairing (s : Store W) (r : Rule W) : Prop :=
  r ∈ s.rules ∧ r.right.length = 2

instance [DecidableEq W] (s : Store W) (r : Rule W) : Decidable (s.Lexical r) :=
  decidable_of_iff ((∃ q ∈ s.rules, q = r) ∧ r.kind = .terminal) (by simp [Lexical])

instance [DecidableEq W] (s : Store W) (r : Rule W) : Decidable (s.Phrasal r) :=
  decidable_of_iff ((∃ q ∈ s.rules, q = r) ∧ r.kind ≠ .terminal) (by simp [Phrasal])

end Store

/-- A tree derives a list of words from a start symbol by the kinds of the stored rules. -/
def Grammar.Derivation (g : Grammar W) (start : Symbol) (words : List Symbol) (d : Tree Symbol)
    (used : List (Rule W)) : Prop :=
  Derives g.store.Lexical g.store.Phrasal [start] [d] used ∧ d.words = words

end Constituency
