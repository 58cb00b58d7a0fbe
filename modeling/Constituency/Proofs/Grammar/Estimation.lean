import Mathlib
import Constituency.Proofs.Grammar.Counting
import Constituency.Proofs.Grammar.TreeScore
import Constituency.Proofs.NormalForm.InputOrder
import Constituency.Proofs.NormalForm.Mass

/-!
# Relative frequencies

The probabilistic grammar of a treebank has the rules that some node uses, each with
the number of its nodes as its count and the share of this number as its
probability. These are facts about the nodes and not about their order, and rare
words are told by the counts of all trees. So the grammar depends on which trees
there are and not on the order in which they come, and over exact numbers the
probabilities of a category add up to one.
-/

namespace Constituency

variable {trees : List (Tree Symbol)}

namespace Store

variable {R : Type} [ProbabilityNumber R] {s : Store (Probability R)}

/-! ## Relative frequencies -/

/-- A store holds the relative frequencies of the rules at the nodes of trees. -/
structure Estimates (s : Store (Probability R)) (trees : List (Tree Symbol)) : Prop where
  /-- There are rules for what nodes use and for nothing else. -/
  stored : ∀ left right,
    (∃ r ∈ s.rules, r.left = left ∧ r.right = right) ↔ UsedIn trees left right
  /-- No two of them have the same sides. -/
  apart : s.rules.Pairwise fun a b => ¬a.SameSides b
  /-- The count of a rule is the number of nodes that use it. -/
  count : ∀ r ∈ s.rules, r.weight.count = nodesUsing trees r.left r.right
  /-- The probability is the share of the count in the total of the left symbol. -/
  value : ∀ r ∈ s.rules,
    r.weight.value = ProbabilityNumber.ratio r.weight.count (s.leftTotal r.left)
  /-- The total is the number of nodes that use some rule with the left symbol. -/
  total : ∀ left, s.leftTotal left = (usesOf trees).countP (·.1 == left)
  /-- The total is positive. -/
  total_pos : ∀ r ∈ s.rules, 1 ≤ s.leftTotal r.left

/-- Sharing out the counts of a store that tallies the uses of trees gives relative frequencies. -/
theorem Tallies.estimates (h : s.Tallies (usesOf trees)) :
    s.assignShares.assignKinds.Estimates trees := by
  obtain ⟨heads, rules⟩ := h.indexed.rules_finished
  have totals : s.assignShares.assignKinds.leftTotal = s.leftTotal :=
    leftTotal_map rules (fun _ => rfl) fun _ => rfl
  constructor
  case stored =>
    intro left right
    rw [rules, ← mem_usesOf]
    constructor
    · rintro ⟨r, hr, rfl, rfl⟩
      obtain ⟨p, hp, rfl⟩ := List.mem_map.mp hr
      exact h.used p hp
    · intro used
      obtain ⟨p, hp, sides⟩ := h.stored _ used
      obtain ⟨left_eq, right_eq⟩ := Prod.mk.inj sides
      exact ⟨_, List.mem_map_of_mem hp, left_eq, right_eq⟩
  case apart =>
    rw [rules, List.pairwise_map]
    exact h.indexed.pairwise_rules
  case count =>
    intro r hr
    rw [rules] at hr
    obtain ⟨p, hp, rfl⟩ := List.mem_map.mp hr
    exact (h.count p hp).trans (count_usesOf p.left p.right)
  case value =>
    intro r hr
    rw [totals]
    rw [rules] at hr
    obtain ⟨p, hp, rfl⟩ := List.mem_map.mp hr
    rfl
  case total =>
    intro left
    rw [totals, h.leftTotal_eq]
  case total_pos =>
    intro r hr
    rw [totals, h.leftTotal_eq]
    rw [rules] at hr
    obtain ⟨p, hp, rfl⟩ := List.mem_map.mp hr
    exact List.countP_pos_iff.mpr ⟨p.sides, h.used p hp, beq_self_eq_true p.left⟩

namespace Estimates

variable {t : Store (Probability R)} {more : List (Tree Symbol)}

/-- Stores with the relative frequencies of the same nodes have the same rules, when the kinds are
those that the rules have among themselves. -/
theorem mem_rules_of_perm (h : s.Estimates trees) (h' : t.Estimates more)
    (classified : s.Classified (s.rules.map Rule.left).contains)
    (classified' : t.Classified (t.rules.map Rule.left).contains)
    (perm : (trees.flatMap Tree.subtrees).Perm (more.flatMap Tree.subtrees))
    {r : Rule (Probability R)} (hr : r ∈ s.rules) : r ∈ t.rules := by
  have uses : (usesOf trees).Perm (usesOf more) := perm.filterMap _
  have used : ∀ left right, UsedIn trees left right ↔ UsedIn more left right := by
    intro left right
    rw [← mem_usesOf, ← mem_usesOf, uses.mem_iff]
  have heads : (s.rules.map Rule.left).contains = (t.rules.map Rule.left).contains := by
    funext a
    rw [Bool.eq_iff_iff, contains_left_of_used h.stored, contains_left_of_used h'.stored]
    exact exists_congr fun right => used a right
  obtain ⟨q, hq, left, right⟩ := (h'.stored r.left r.right).mpr
    ((used _ _).mp ((h.stored r.left r.right).mp ⟨r, hr, rfl, rfl⟩))
  have count : r.weight.count = q.weight.count := by
    rw [h.count r hr, h'.count q hq, left, right]
    exact perm.countP_eq _
  have total : s.leftTotal r.left = t.leftTotal q.left := by
    rw [h.total, h'.total, left]
    exact uses.countP_eq _
  have value : r.weight.value = q.weight.value := by
    rw [h.value r hr, h'.value q hq, count, total]
  have kind : r.kind = q.kind := by
    rw [classified r hr, classified' q hq, heads, right]
  have weight : r.weight = q.weight := by
    cases hw : r.weight
    cases hw' : q.weight
    rw [hw, hw'] at value count
    dsimp only at value count
    rw [value, count]
  have same : r = q := Rule.eq_of_sides (Prod.ext left.symm right.symm) kind weight
  exact same ▸ hq

/-- Indexed stores with the relative frequencies of the same nodes list the same rules. -/
theorem rules_eq (h : s.Estimates trees) (h' : t.Estimates more) (indexed : s.Indexed)
    (indexed' : t.Indexed) (classified : s.Classified (s.rules.map Rule.left).contains)
    (classified' : t.Classified (t.rules.map Rule.left).contains)
    (perm : (trees.flatMap Tree.subtrees).Perm (more.flatMap Tree.subtrees)) :
    s.rules = t.rules :=
  indexed.rules_eq indexed' fun _ =>
    ⟨h.mem_rules_of_perm h' classified classified' perm,
      h'.mem_rules_of_perm h classified' classified perm.symm⟩

end Estimates

/-- Over exact numbers the shares of a left symbol with rules add up to one. -/
theorem Estimates.leftMass_eq_one {s : Store (Probability ℚ)} (h : s.Estimates trees)
    (indexed : s.Indexed) {left : Symbol} (has : left ∈ s.leftSides) : s.leftMass left = 1 := by
  rw [leftSides, List.mem_eraseDups, List.mem_map] at has
  obtain ⟨r, hr, rfl⟩ := has
  have positive : (s.leftTotal r.left : ℚ) ≠ 0 := by
    have := h.total_pos r hr
    exact_mod_cast (by omega : s.leftTotal r.left ≠ 0)
  have values : ∀ q ∈ s.rules.filter (·.left == r.left),
      q.weight.value = q.weight.count * (s.leftTotal r.left : ℚ)⁻¹ := by
    intro q hq
    obtain ⟨stored, left⟩ := List.mem_filter.mp hq
    rw [h.value q stored, eq_of_beq left, ← div_eq_mul_inv]
    rfl
  calc
    s.leftMass r.left = ((s.rules.filter (·.left == r.left)).map (·.weight.value)).sum :=
      indexed.leftMass_eq r.left
    _ = ((s.rules.filter (·.left == r.left)).map fun q =>
          (q.weight.count : ℚ) * (s.leftTotal r.left : ℚ)⁻¹).sum :=
      congrArg List.sum (List.map_congr_left values)
    _ = ((s.rules.filter (·.left == r.left)).map fun q => (q.weight.count : ℚ)).sum *
          (s.leftTotal r.left : ℚ)⁻¹ := List.sum_map_mul_right _ _ _
    _ = (s.leftTotal r.left : ℚ) * (s.leftTotal r.left : ℚ)⁻¹ := by
      rw [leftTotal, Nat.cast_list_sum, List.map_map]
      rfl
    _ = 1 := mul_inv_cancel₀ positive

end Store

/-! ## Lexicons -/

namespace Lexicon

/-- Counts words one by one. -/
def addAll (lexicon : Lexicon) (words : List String) : Lexicon :=
  words.foldl (fun lexicon word => lexicon.add word 1) lexicon

/-- A word that is counted is listed with the new count, and no other word is touched. -/
theorem getElem?_add (lexicon : Lexicon) (w : String) (n : Nat) (word : String) :
    (lexicon.add w n).counts[word]? =
      if w = word then some (lexicon.count w + n) else lexicon.counts[word]? := by
  rw [add, Std.TreeMap.getElem?_insert]
  simp only [Std.LawfulEqCmp.compare_eq_iff_eq]

/-- The count of a word grows by what is counted of it. -/
theorem count_add (lexicon : Lexicon) (w : String) (n : Nat) (word : String) :
    (lexicon.add w n).count word = lexicon.count word + if w = word then n else 0 := by
  rw [count, Std.TreeMap.getD_eq_getD_getElem?, getElem?_add]
  by_cases here : w = word
  · rw [if_pos here, if_pos here, here]
    rfl
  · rw [if_neg here, if_neg here, ← Std.TreeMap.getD_eq_getD_getElem?]
    rfl

/-- The words that are counted are listed with their counts, and no other word is touched. -/
theorem getElem?_addAll (lexicon : Lexicon) (words : List String) (word : String) :
    (lexicon.addAll words).counts[word]? =
      if word ∈ words then some (lexicon.count word + words.count word)
      else lexicon.counts[word]? := by
  induction words generalizing lexicon with
  | nil => rfl
  | cons w words ih =>
    rw [show lexicon.addAll (w :: words) = (lexicon.add w 1).addAll words from rfl, ih,
      getElem?_add, count_add]
    by_cases here : w = word
    · subst here
      by_cases again : w ∈ words
      · simp [again, Nat.add_assoc, Nat.add_comm 1]
      · simp [again, List.count_eq_zero_of_not_mem again]
    · simp [here, Ne.symm here]

/-- The order in which words are counted does not matter. -/
theorem addAll_equiv (lexicon : Lexicon) {words more : List String} (perm : words.Perm more) :
    (lexicon.addAll words).counts.Equiv (lexicon.addAll more).counts := by
  apply Std.TreeMap.Equiv.of_forall_constGet?_eq
  intro word
  rw [getElem?_addAll, getElem?_addAll, perm.count_eq]
  simp only [perm.mem_iff]

end Lexicon

namespace Grammar

/-- Counting the leaves of trees counts their words one by one. -/
theorem lexicon_countLeaves {W : Type} (g : Grammar W) (trees : List (Tree Symbol)) :
    (g.countLeaves trees).lexicon =
      g.lexicon.addAll ((trees.flatMap Tree.words).map Symbol.name) := by
  rw [countLeaves]
  induction trees.flatMap Tree.words generalizing g with
  | nil => rfl
  | cons leaf leaves ih => exact ih (g.countWord leaf.name 1)

variable {more : List (Tree Symbol)} {rareBelow : Nat}

/-- Both grammars of a treebank have the lexicon of its leaves. -/
theorem lexicon_ofTrees (trees : List (Tree Symbol)) (rareBelow : Nat) :
    (ofTrees trees rareBelow).lexicon =
      Lexicon.addAll {} ((trees.flatMap Tree.words).map Symbol.name) :=
  lexicon_countLeaves {} trees

/-- The lexicon does not depend on the order of the trees. -/
theorem lexicon_ofTrees_equiv (perm : trees.Perm more) :
    (ofTrees trees rareBelow).lexicon.counts.Equiv (ofTrees more rareBelow).lexicon.counts := by
  rw [lexicon_ofTrees, lexicon_ofTrees]
  exact Lexicon.addAll_equiv {} ((perm.flatMap_right Tree.words).map Symbol.name)

/-- Trees are normalized alike whatever the order in which they were counted. -/
theorem trainedTrees_perm (perm : trees.Perm more) :
    (trainedTrees trees rareBelow).Perm (trainedTrees more rareBelow) := by
  have count : ∀ word, (ofTrees trees rareBelow).lexicon.count word =
      (ofTrees more rareBelow).lexicon.count word := fun word =>
    (lexicon_ofTrees_equiv perm).getD_eq
  have alike : (ofTrees trees rareBelow).normalizeTree rareBelow =
      (ofTrees more rareBelow).normalizeTree rareBelow := by
    funext t
    simp only [normalizeTree, replacement?, count]
  rw [trainedTrees, trainedTrees, alike]
  exact perm.map _

/-- The normalized trees have as many nodes as the trees. -/
theorem length_subtrees_trainedTrees (trees : List (Tree Symbol)) (rareBelow : Nat) :
    ((trainedTrees trees rareBelow).flatMap Tree.subtrees).length = Tree.sizeAll trees := by
  have each : ∀ t : Tree Symbol,
      ((ofTrees trees rareBelow).normalizeTree rareBelow t).subtrees.length =
        t.subtrees.length := by
    intro t
    rw [normalizeTree, Tree.subtrees_mapLeaves, List.length_map]
  calc
    ((trainedTrees trees rareBelow).flatMap Tree.subtrees).length =
        (trees.map fun t => t.subtrees.length).sum := by
      rw [trainedTrees, List.flatMap_map, List.length_flatMap]
      simp only [each]
    _ = (Tree.subtreesAll trees).length := by
      rw [Tree.subtreesAll_eq_flatMap, List.length_flatMap]
    _ = Tree.sizeAll trees := Tree.length_subtreesAll trees

section Estimate

variable {R : Type}

/-- The rules at nodes are not counted yet. -/
theorem count_treeRules {trees : List (Tree Symbol)} {value : R} {r : Rule (Probability R)}
    (hr : r ∈ trees.flatMap (Tree.localRules true (.ofValue value))) : r.weight.count = 0 := by
  obtain ⟨t, -, hr⟩ := List.mem_flatMap.mp hr
  obtain ⟨left, right, -, rfl⟩ := Tree.mem_localRules.mp hr
  rfl

variable [ProbabilityNumber R]

/-- Both grammars of a treebank have the same lexicon. -/
theorem lexicon_estimate (trees : List (Tree Symbol)) (rareBelow : Nat) :
    (estimate (R := R) trees rareBelow).lexicon = (ofTrees trees rareBelow).lexicon := by
  rw [← plain_estimate (R := R)]
  rfl

/-- The uses counted for the probabilistic grammar are the rules at the nodes of the normalized
trees. -/
theorem treeRules_countLeaves (trees : List (Tree Symbol)) (rareBelow : Nat)
    (weight : Probability R) :
    (countLeaves ({} : Grammar (Probability R)) trees).treeRules rareBelow weight trees =
      (trainedTrees trees rareBelow).flatMap (Tree.localRules true weight) := by
  have lexicon : (countLeaves ({} : Grammar (Probability R)) trees).lexicon =
      (ofTrees trees rareBelow).lexicon := lexicon_estimate trees rareBelow
  rw [treeRules, trainedTrees, List.flatMap_map]
  simp only [normalizeTree, replacement?, lexicon]

/-- Before shares are taken the store tallies the uses of the normalized trees. -/
theorem exists_tallies_estimate (trees : List (Tree Symbol)) (rareBelow : Nat) :
    ∃ s : Store (Probability R), s.Tallies (usesOf (trainedTrees trees rareBelow)) ∧
      (estimate trees rareBelow).store = s.assignShares.assignKinds := by
  obtain ⟨lexicon, counted⟩ := exists_countLeaves_eq ({} : Grammar (Probability R)) trees
  have start : (countLeaves ({} : Grammar (Probability R)) trees).store = {} := by rw [counted]
  have uncounted : ∀ r ∈ (trainedTrees trees rareBelow).flatMap
      (Tree.localRules true (Probability.ofValue (ProbabilityNumber.zero : R))),
      r.weight.count = 0 := fun _ hr => count_treeRules hr
  have tallied := Store.tallies_empty.foldl_countUse uncounted
  rw [map_sides_localRules, List.nil_append] at tallied
  refine ⟨_, tallied, ?_⟩
  rw [estimate, start, treeRules_countLeaves]

/-- The probabilistic grammar of a treebank holds the relative frequencies of the rules at the nodes
of the normalized trees. -/
theorem store_estimates (trees : List (Tree Symbol)) (rareBelow : Nat) :
    (estimate (R := R) trees rareBelow).store.Estimates (trainedTrees trees rareBelow) := by
  obtain ⟨s, tallied, store⟩ := exists_tallies_estimate (R := R) trees rareBelow
  rw [store]
  exact tallied.estimates

/-- No total is greater than the number of nodes of the trees. -/
theorem leftTotal_estimate_le (trees : List (Tree Symbol)) (rareBelow : Nat) (left : Symbol) :
    (estimate (R := R) trees rareBelow).store.leftTotal left ≤ Tree.sizeAll trees := by
  calc
    (estimate (R := R) trees rareBelow).store.leftTotal left =
        (usesOf (trainedTrees trees rareBelow)).countP (·.1 == left) :=
      (store_estimates trees rareBelow).total left
    _ ≤ (usesOf (trainedTrees trees rareBelow)).length := List.countP_le_length
    _ ≤ ((trainedTrees trees rareBelow).flatMap Tree.subtrees).length := length_usesOf_le
    _ = Tree.sizeAll trees := length_subtrees_trainedTrees trees rareBelow

/-- The rules of the probabilistic grammar do not depend on the order of the trees. -/
theorem rules_estimate_perm (perm : trees.Perm more) :
    (estimate (R := R) trees rareBelow).store.rules =
      (estimate (R := R) more rareBelow).store.rules :=
  (store_estimates trees rareBelow).rules_eq (store_estimates more rareBelow)
    (indexed_filled_estimate trees rareBelow).1 (indexed_filled_estimate more rareBelow).1
    (classified_estimate trees rareBelow) (classified_estimate more rareBelow)
    ((trainedTrees_perm perm).flatMap_right Tree.subtrees)

/-- Estimation counts exactly. The rules are those that some node of the normalized trees uses, the
count of a rule is the number of such nodes, and its probability the share of its count in the total
of its left symbol, which is positive and no greater than the number of nodes. Over exact numbers
the probabilities of each left symbol add up to one. Permuted trees give the same rules with the
same kinds, counts and probabilities in both lists, and the same lexicon. -/
theorem estimate_relativeFrequencies (trees : List (Tree Symbol)) (rareBelow : Nat) :
    (estimate (R := R) trees rareBelow).store.Estimates (trainedTrees trees rareBelow) ∧
      (∀ left, (estimate (R := R) trees rareBelow).store.leftTotal left ≤ Tree.sizeAll trees) ∧
      (∀ left ∈ (estimate (R := ℚ) trees rareBelow).store.leftSides,
        (estimate (R := ℚ) trees rareBelow).store.leftMass left = 1) ∧
      ∀ more, trees.Perm more →
        (estimate (R := R) more rareBelow).store.rules =
            (estimate (R := R) trees rareBelow).store.rules ∧
          (estimate (R := R) more rareBelow).store.rulesByRight =
            (estimate (R := R) trees rareBelow).store.rulesByRight ∧
          (estimate (R := R) more rareBelow).lexicon.toList =
            (estimate (R := R) trees rareBelow).lexicon.toList := by
  refine ⟨store_estimates trees rareBelow, leftTotal_estimate_le trees rareBelow, ?_, ?_⟩
  · intro left has
    exact (store_estimates trees rareBelow).leftMass_eq_one
      (indexed_filled_estimate trees rareBelow).1 has
  · intro more perm
    have rules : (estimate (R := R) more rareBelow).store.rules =
        (estimate (R := R) trees rareBelow).store.rules := rules_estimate_perm perm.symm
    refine ⟨rules, ?_, ?_⟩
    · exact (indexed_filled_estimate more rareBelow).1.rulesByRight_eq
        (indexed_filled_estimate trees rareBelow).1 rules
    · rw [lexicon_estimate, lexicon_estimate]
      exact (lexicon_ofTrees_equiv perm.symm).toList_eq

end Estimate

/-- A subject with a function tag and one without, and a number. -/
def sightings : List (Tree Symbol) :=
  [.node ⟨"S"⟩ [.node ⟨"NP-SBJ"⟩ [.leaf ⟨"we"⟩], .node ⟨"VP"⟩ [.leaf ⟨"ran"⟩]],
    .node ⟨"S"⟩ [.node ⟨"NP"⟩ [.leaf ⟨"we"⟩],
      .node ⟨"VP"⟩ [.node ⟨"V"⟩ [.leaf ⟨"saw"⟩], .node ⟨"NP"⟩ [.leaf ⟨"3"⟩]]]]

/-- Two of three noun phrases are the same word, and from the back the rules and words are the
same. -/
theorem estimate_relativeFrequencies_sightings :
    sightings.Perm sightings.reverse ∧
    (∃ r ∈ (estimate (R := ℚ) sightings 2).store.rules, r.left = ⟨"NP"⟩ ∧ r.right = [⟨"we"⟩] ∧
      r.weight.count = 2 ∧ r.weight.value = 2 / 3) ∧
    (estimate (R := ℚ) sightings 2).store.leftMass ⟨"NP"⟩ = 1 ∧
    (estimate (R := ℚ) sightings.reverse 2).store.rules =
      (estimate (R := ℚ) sightings 2).store.rules ∧
    (estimate (R := ℚ) sightings.reverse 2).lexicon.toList =
      (estimate (R := ℚ) sightings 2).lexicon.toList := by
  have perm : sightings.Perm sightings.reverse := (List.reverse_perm sightings).symm
  obtain ⟨frequencies, -, mass, order⟩ := estimate_relativeFrequencies (R := ℚ) sightings 2
  obtain ⟨rules, -, lexicon⟩ := order sightings.reverse perm
  have seen : UsedIn (trainedTrees sightings 2) ⟨"NP"⟩ [⟨"we"⟩] := by
    rw [← mem_usesOf]
    decide +kernel
  have twice : nodesUsing (trainedTrees sightings 2) ⟨"NP"⟩ [⟨"we"⟩] = 2 := by decide +kernel
  have three : (usesOf (trainedTrees sightings 2)).countP (·.1 == ⟨"NP"⟩) = 3 := by decide +kernel
  obtain ⟨r, hr, left, right⟩ := (frequencies.stored ⟨"NP"⟩ [⟨"we"⟩]).mpr seen
  have count : r.weight.count = 2 := by rw [frequencies.count r hr, left, right, twice]
  have value : r.weight.value = 2 / 3 := by
    rw [frequencies.value r hr, count, left, frequencies.total, three]
    rfl
  have has : ⟨"NP"⟩ ∈ (estimate (R := ℚ) sightings 2).store.leftSides := by
    rw [Store.leftSides, List.mem_eraseDups, ← left]
    exact List.mem_map_of_mem hr
  exact ⟨perm, ⟨r, hr, left, right, count, value⟩, mass _ has, rules, lexicon⟩

end Grammar

end Constituency
