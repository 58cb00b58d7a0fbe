import Constituency.Proofs.Grammar.Estimation

/-!
# Training trees have scores

A store covers a tree when it has a rule for every node that uses one, and every
tree that is covered has a score, whatever its shape: nodes without a name use no
rule, a childless bracket is a leaf, and what is spelled like a word is looked up
as it was stored. The grammar estimated from a treebank covers the normalized
trees, and none of the rules that a score adds is without a count.
-/

namespace Constituency

variable {W S : Type}

namespace Store

variable {s : Store W}

/-- A store covers a tree when it has a rule with the sides that each node uses. -/
def Covers (s : Store W) (t : Tree Symbol) : Prop :=
  ∀ u ∈ t.subtrees, ∀ left right, u.localSides? true = some (left, right) →
    ∃ r ∈ s.rules, r.left = left ∧ r.right = right

/-- What covers a tree covers the trees below its root. -/
theorem Covers.child {a : Symbol} {cs : List (Tree Symbol)} (h : s.Covers (.node a cs))
    {c : Tree Symbol} (hc : c ∈ cs) : s.Covers c :=
  fun u hu => h u (Tree.mem_subtrees.mpr (Or.inr ⟨c, hc, hu⟩))

variable [Score S] [WeightScore W S]

/-- Trees that can be scored one by one can be scored together, adding their rules. -/
theorem exists_tracedScoreAll_of_each {cs : List (Tree Symbol)}
    (each : ∀ c ∈ cs, ∃ (p : S) (used : List (Rule W)),
      s.tracedScore c = .ok (p, used) ∧ ∀ r ∈ used, r ∈ s.rules)
    (sum : S × List (Rule W)) (stored : ∀ r ∈ sum.2, r ∈ s.rules) :
    ∃ p used, s.tracedScoreAll sum cs = .ok (p, used) ∧ ∀ r ∈ used, r ∈ s.rules := by
  induction cs generalizing sum with
  | nil => exact ⟨sum.1, sum.2, by rw [tracedScoreAll], stored⟩
  | cons c cs ih =>
    obtain ⟨p, used, first, among⟩ := each c List.mem_cons_self
    rw [tracedScoreAll, first]
    refine ih (fun d hd => each d (List.mem_cons_of_mem c hd)) _ fun r hr => ?_
    rcases List.mem_append.mp hr with before | here
    · exact stored r before
    · exact among r here

/-- A tree that is covered has a score, which adds stored rules. -/
theorem Covers.exists_tracedScore (indexed : s.Indexed) {t : Tree Symbol} (h : s.Covers t) :
    ∃ (p : S) (used : List (Rule W)),
      s.tracedScore t = .ok (p, used) ∧ ∀ r ∈ used, r ∈ s.rules := by
  induction t using Tree.leafOrNode with
  | leaf a => exact ⟨Score.zero, [], by rw [tracedScore], fun _ none => nomatch none⟩
  | node a cs some_child ih =>
    obtain ⟨c, rest, rfl⟩ := List.exists_cons_of_ne_nil some_child
    have below := exists_tracedScoreAll_of_each fun d hd => ih d hd (h.child hd)
    rw [tracedScore]
    cases sides : localSides? true a ((c :: rest).map Tree.label) with
    | none => exact below (Score.zero, []) fun _ none => nomatch none
    | some pair =>
      obtain ⟨r, hr, left, right⟩ := h _ (Tree.self_mem_subtrees _) pair.1 pair.2 sides
      have alone : ∀ q ∈ [r], q ∈ s.rules := fun q hq => List.mem_singleton.mp hq ▸ hr
      dsimp only
      rw [indexed.withSides?_eq_some.mpr ⟨hr, left, right⟩]
      dsimp only
      split
      · exact ⟨_, [r], rfl, alone⟩
      · exact below (WeightScore.ofWeight r.weight, [r]) alone

end Store

namespace Store.Estimates

variable {R : Type} [ProbabilityNumber R] {s : Store (Probability R)} {trees : List (Tree Symbol)}

/-- Relative frequencies cover the trees that they were taken from. -/
theorem covers (h : s.Estimates trees) {t : Tree Symbol} (ht : t ∈ trees) : s.Covers t :=
  fun u hu left right sides => (h.stored left right).mpr ⟨t, ht, u, hu, sides⟩

/-- Every rule was counted. -/
theorem count_pos (h : s.Estimates trees) {r : Rule (Probability R)} (hr : r ∈ s.rules) :
    1 ≤ r.weight.count := by
  have used : (r.left, r.right) ∈ usesOf trees :=
    mem_usesOf.mpr ((h.stored r.left r.right).mp ⟨r, hr, rfl, rfl⟩)
  rw [h.count r hr, ← count_usesOf]
  exact List.count_pos_iff.mpr used

end Store.Estimates

namespace Store

variable {R : Type} {s : Store (Probability R)}

/-- The count of a rule is part of the total of its left symbol. -/
theorem count_le_leftTotal {r : Rule (Probability R)} (hr : r ∈ s.rules) :
    r.weight.count ≤ s.leftTotal r.left := by
  rw [leftTotal]
  apply List.le_sum_of_mem
  exact List.mem_map_of_mem (List.mem_filter.mpr ⟨hr, beq_self_eq_true r.left⟩)

/-- A tree has a score, and the rules that the score adds are stored, were counted and have a
positive probability. -/
def HasCountedScore [Score S] [WeightScore (Probability R) S] (s : Store (Probability R))
    (positive : R → Prop) (t : Tree Symbol) : Prop :=
  ∃ (score : S) (used : List (Rule (Probability R))),
    s.treeScore t = .ok score ∧ s.tracedScore t = .ok (score, used) ∧
      ∀ r ∈ used, r ∈ s.rules ∧ 1 ≤ r.weight.count ∧ positive r.weight.value

end Store

namespace Grammar

variable {R : Type} [ProbabilityNumber R]

/-- The probabilistic grammar of a treebank normalizes its trees as they were for training. -/
theorem normalizeTree_estimate_mem {trees : List (Tree Symbol)} (rareBelow : Nat)
    {t : Tree Symbol} (ht : t ∈ trees) :
    (estimate (R := R) trees rareBelow).normalizeTree rareBelow t ∈
      trainedTrees trees rareBelow := by
  have alike : (estimate (R := R) trees rareBelow).normalizeTree rareBelow =
      (ofTrees trees rareBelow).normalizeTree rareBelow := by
    funext u
    simp only [normalizeTree, replacement?, lexicon_estimate]
  rw [alike]
  exact List.mem_map_of_mem ht

variable [Score S] [WeightScore (Probability R) S]

/-- Every training tree, once it is normalized, has a score in the grammar that was estimated from
the trees. Each rule that the score adds was counted, so its probability is positive wherever the
shares of positive counts in the totals of the trees are. -/
theorem hasCountedScore_estimate (trees : List (Tree Symbol)) (rareBelow : Nat)
    (positive : R → Prop)
    (ratio_pos : ∀ count total, 1 ≤ count → count ≤ total → total ≤ Tree.sizeAll trees →
      positive (ProbabilityNumber.ratio count total))
    {t : Tree Symbol} (ht : t ∈ trees) :
    (estimate trees rareBelow).store.HasCountedScore positive
      ((estimate (R := R) trees rareBelow).normalizeTree rareBelow t) := by
  have frequencies := store_estimates (R := R) trees rareBelow
  have covers := frequencies.covers (normalizeTree_estimate_mem (R := R) rareBelow ht)
  obtain ⟨score, used, traced, among⟩ :=
    covers.exists_tracedScore (indexed_filled_estimate trees rareBelow).1
  refine ⟨score, used, ?_, traced, fun r hr => ?_⟩
  · rw [← Store.map_fst_tracedScore, traced]
    rfl
  · have stored := among r hr
    have counted := frequencies.count_pos stored
    refine ⟨stored, counted, ?_⟩
    rw [frequencies.value r stored]
    exact ratio_pos _ _ counted (Store.count_le_leftTotal stored)
      (leftTotal_estimate_le trees rareBelow r.left)

/-- A tree in a nameless bracket with an empty one, a childless label, a word beside a phrase and a
label that is spelled like a word. -/
def roughTree : Tree Symbol :=
  .node ⟨""⟩ [.node ⟨"S"⟩ [.leaf ⟨"NP"⟩, .leaf ⟨"the"⟩, .node ⟨"vp-1"⟩ [.leaf ⟨"barks"⟩]],
    .leaf ⟨""⟩]

/-- The tree has an exact score that adds rules with positive probabilities, and it has a
logarithmic one. -/
theorem hasCountedScore_estimate_rough :
    roughTree ∈ [roughTree] ∧
    (estimate (R := ℚ) [roughTree] 1).store.HasCountedScore (0 < ·)
      ((estimate (R := ℚ) [roughTree] 1).normalizeTree 1 roughTree) ∧
    ∃ score, (estimate [roughTree] 1).logProbability
      ((estimate (R := Float) [roughTree] 1).normalizeTree 1 roughTree) = .ok score := by
  have here : roughTree ∈ [roughTree] := List.mem_singleton_self roughTree
  refine ⟨here, hasCountedScore_estimate [roughTree] 1 _ (fun count total first le _ => ?_) here,
    ?_⟩
  · exact div_pos (by exact_mod_cast first) (by exact_mod_cast le_trans first le)
  · -- over floating-point numbers a probability is the quotient of a positive count
    obtain ⟨score, -, scored, -⟩ := hasCountedScore_estimate (R := Float) [roughTree] 1
      (fun p => ∃ count total, 1 ≤ count ∧ p = ProbabilityNumber.ratio count total)
      (fun count total first _ _ => ⟨count, total, first, rfl⟩) here
    exact ⟨score, scored⟩

end Grammar

end Constituency
