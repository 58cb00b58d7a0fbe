import Constituency.Grammar.Treebank
import Constituency.NormalForm.LongRules
import Constituency.Proofs.Grammar.Treebank
import Constituency.Proofs.Tree.Labels

/-!
# Scores of trees

The score of a tree adds up the scores of the rules at its nodes, each of which is
trimmed and searched anew. `tracedScore` also lists the rules that it adds; without
the list it is the score. In a store that finds its own rules again at the nodes of
its derivations, a derivation is scored by the rules that it uses, each as often as
it is used and in the same order.
-/

namespace Constituency

variable {W S : Type}

namespace Store

/-! ## Listing the rules -/

section Traced

variable [Score S] [WeightScore W S]

mutual

/-- The score of a tree, with the rules whose scores were added. -/
def tracedScore (s : Store W) : Tree Symbol → Except MissingRule (S × List (Rule W))
  | .node _ [] => .ok (Score.zero, [])
  | .node a (c :: cs) =>
    match localSides? true a ((c :: cs).map Tree.label) with
    | none => s.tracedScoreAll (Score.zero, []) (c :: cs)
    | some (left, right) =>
      match s.withSides? left right with
      | none => .error ⟨left, right⟩
      | some r =>
        if r.kind = .terminal then .ok (WeightScore.ofWeight r.weight, [r])
        else s.tracedScoreAll (WeightScore.ofWeight r.weight, [r]) (c :: cs)

/-- Adds the scores of trees, one by one, to the score so far, and their rules to the rules so
far. -/
def tracedScoreAll (s : Store W) (sum : S × List (Rule W)) :
    List (Tree Symbol) → Except MissingRule (S × List (Rule W))
  | [] => .ok sum
  | c :: cs =>
    match s.tracedScore c with
    | .ok score => s.tracedScoreAll (Score.add sum.1 score.1, sum.2 ++ score.2) cs
    | .error e => .error e

end

mutual

/-- Without the rules it is the score. -/
theorem map_fst_tracedScore (s : Store W) (t : Tree Symbol) :
    (s.tracedScore t).map Prod.fst = s.treeScore t := by
  match t with
  | .node a [] => rfl
  | .node a (c :: cs) =>
    rw [tracedScore, treeScore]
    cases localSides? true a ((c :: cs).map Tree.label) with
    | none => exact s.map_fst_tracedScoreAll _ (c :: cs)
    | some sides =>
      dsimp only
      cases s.withSides? sides.1 sides.2 with
      | none => rfl
      | some r =>
        dsimp only
        split
        · rfl
        · exact s.map_fst_tracedScoreAll _ (c :: cs)

/-- Without the rules it is the sum of the scores. -/
theorem map_fst_tracedScoreAll (s : Store W) (sum : S × List (Rule W)) (cs : List (Tree Symbol)) :
    (s.tracedScoreAll sum cs).map Prod.fst = s.treeScoreAll sum.1 cs := by
  match cs with
  | [] => rfl
  | c :: cs =>
    rw [tracedScoreAll, treeScoreAll, ← s.map_fst_tracedScore c]
    cases s.tracedScore c with
    | error e => rfl
    | ok score => exact s.map_fst_tracedScoreAll _ cs

end

end Traced

/-! ## Derivations -/

/-- A store that finds its own rules at the nodes of its derivations. -/
structure Retraced (s : Store W) : Prop where
  /-- Rules are found by their sides. -/
  indexed : s.Indexed
  /-- Their kinds fit. -/
  fits : ∀ r ∈ s.rules, r.Fits
  /-- Trimming changes no left side. -/
  left : ∀ r ∈ s.rules, r.left.base = r.left
  /-- Trimming changes no right side. -/
  right : ∀ r ∈ s.rules, ∀ a ∈ r.right, childLabel true a = a
  /-- Every symbol has a name. -/
  named : ∀ a ∈ s.symbols, a.name ≠ ""

namespace Retraced

variable {s : Store W}

/-- The sides at a node with the labels of a rule are those of the rule. -/
theorem localSides?_eq (h : s.Retraced) {r : Rule W} (hr : r ∈ s.rules) :
    localSides? true r.left r.right = some (r.left, r.right) := by
  have named : ∀ a ∈ r.left :: r.right, a.name.isEmpty = false := fun a ha => by
    simpa using h.named a (List.mem_flatMap.mpr ⟨r, hr, ha⟩)
  have unnamed : r.right.any (·.name.isEmpty) = false := by
    rw [List.any_eq_false]
    exact fun a ha => Bool.eq_false_iff.mp (named a (List.mem_cons_of_mem _ ha))
  have filled : r.right.isEmpty = false := by simpa using (h.fits r hr).filled
  have trimmed : r.right.map (childLabel true) = r.right :=
    (List.map_congr_left (h.right r hr)).trans (List.map_id' r.right)
  rw [localSides?, filled, named r.left List.mem_cons_self, unnamed, trimmed, if_pos rfl,
    h.left r hr]
  rfl

variable [Score S] [WeightScore W S]

/-- At a node with the labels of a rule the rule is added, and what is below counts unless the rule
is one for a word. -/
theorem tracedScore_node (h : s.Retraced) {r : Rule W} (hr : r ∈ s.rules)
    {children : List (Tree Symbol)} (labels : children.map Tree.label = r.right) :
    s.tracedScore (.node r.left children) =
      if r.kind = .terminal then .ok (WeightScore.ofWeight r.weight, [r])
      else s.tracedScoreAll (WeightScore.ofWeight r.weight, [r]) children := by
  cases children with
  | nil => exact absurd labels.symm (h.fits r hr).filled
  | cons c cs =>
    have found : s.withSides? r.left r.right = some r :=
      h.indexed.withSides?_eq_some.mpr ⟨hr, rfl, rfl⟩
    rw [tracedScore, labels, h.localSides?_eq hr]
    dsimp only
    rw [found]

/-- A rule for a word is added where it is used, and the word adds nothing. -/
theorem tracedScore_word (h : s.Retraced) {r : Rule W} {a : Symbol} (licence : s.Lexical r)
    (right : r.right = [a]) :
    s.tracedScore (.node r.left [.leaf a]) = .ok (WeightScore.ofWeight r.weight, [r]) := by
  have labels : [Tree.leaf a].map Tree.label = r.right := right.symm
  rw [h.tracedScore_node licence.1 labels, if_pos licence.2]

/-- A branching rule is added where it is used, before the rules below. -/
theorem tracedScore_branching (h : s.Retraced) {r : Rule W} {children : List (Tree Symbol)}
    (licence : s.Branching r) (labels : children.map Tree.label = r.right) :
    s.tracedScore (.node r.left children) =
      s.tracedScoreAll (WeightScore.ofWeight r.weight, [r]) children := by
  have fits := h.fits r licence.1
  have notWord : r.kind ≠ .terminal := by
    intro word
    rcases Nat.eq_or_lt_of_le licence.2 with two | three
    · have binary := fits.binary.mpr two.symm
      rw [word] at binary
      cases binary
    · have long := fits.long.mpr three
      rw [word] at long
      cases long
  rw [h.tracedScore_node licence.1 labels, if_neg notWord]

/-- The trees of a derivation add the rules used. -/
theorem exists_tracedScoreAll (h : s.Retraced) {symbols : List Symbol} {trees : List (Tree Symbol)}
    {used : List (Rule W)} (hd : Derives s.Lexical s.Branching symbols trees used)
    (sum : S × List (Rule W)) :
    ∃ p, s.tracedScoreAll sum trees = .ok (p, sum.2 ++ used) := by
  induction hd generalizing sum with
  | nil => exact ⟨sum.1, by rw [tracedScoreAll, List.append_nil]⟩
  | @word r a symbols trees used licence right _ ih =>
    obtain ⟨p, rest⟩ := ih (Score.add sum.1 (WeightScore.ofWeight r.weight), sum.2 ++ [r])
    refine ⟨p, ?_⟩
    rw [tracedScoreAll, h.tracedScore_word licence right]
    simpa using rest
  | @node r children below symbols trees used licence hright _ ihRight ih =>
    obtain ⟨q, inside⟩ := ihRight (WeightScore.ofWeight r.weight, [r])
    obtain ⟨p, rest⟩ := ih (Score.add sum.1 q, sum.2 ++ ([r] ++ below))
    refine ⟨p, ?_⟩
    rw [tracedScoreAll, h.tracedScore_branching licence hright.labels, inside]
    simpa using rest

/-- The tree of a derivation has a score, which adds the rules used. -/
theorem exists_tracedScore (h : s.Retraced) {x : Symbol} {t : Tree Symbol} {used : List (Rule W)}
    (hd : Derives s.Lexical s.Branching [x] [t] used) :
    ∃ p : S, s.tracedScore t = .ok (p, used) := by
  cases hd with
  | word licence right rest =>
    cases rest
    exact ⟨_, h.tracedScore_word licence right⟩
  | @node r _ _ _ _ _ licence hright rest =>
    cases rest
    obtain ⟨p, inside⟩ := h.exists_tracedScoreAll hright (WeightScore.ofWeight r.weight, [r])
    rw [List.append_nil]
    exact ⟨p, (h.tracedScore_branching licence hright.labels).trans inside⟩

end Retraced

end Store

/-! ## Treebanks -/

/-- The sides at a node are its labels, trimmed. -/
theorem Tree.eq_of_localSides? {t : Tree Symbol} {left : Symbol} {right : List Symbol}
    (h : t.localSides? true = some (left, right)) :
    left = t.label.base ∧ right = (t.children.map Tree.label).map (childLabel true) := by
  rw [Tree.localSides?, Constituency.localSides?] at h
  split at h
  · cases h
  · cases h
    exact ⟨rfl, rfl⟩

namespace Grammar

variable {R : Type} [ProbabilityNumber R]

/-- The rules of the probabilistic grammar are used at the nodes of the normalized trees. -/
theorem usedIn_of_mem_estimate {trees : List (Tree Symbol)} {rareBelow : Nat}
    {r : Rule (Probability R)} (hr : r ∈ (estimate (R := R) trees rareBelow).store.rules) :
    UsedIn (trainedTrees trees rareBelow) r.left r.right := by
  refine exists_mem_rules_ofTrees.mp ⟨r.plain, ?_, r.left_plain, r.right_plain⟩
  rw [← plain_estimate (R := R), show (estimate (R := R) trees rareBelow).plain.store =
    (estimate (R := R) trees rareBelow).store.plain from rfl, Store.rules_plain]
  exact List.mem_map_of_mem hr

/-- The store of the probabilistic grammar of a treebank is indexed and has no empty right side. -/
theorem indexed_filled_estimate (trees : List (Tree Symbol)) (rareBelow : Nat) :
    (estimate (R := R) trees rareBelow).store.Indexed ∧
      (estimate (R := R) trees rareBelow).store.Filled :=
  (Reachable.estimate trees rareBelow).indexed_filled fun _ made => made.filled

/-- Its kinds are those that the rules have among themselves. -/
theorem classified_estimate (trees : List (Tree Symbol)) (rareBelow : Nat) :
    (estimate (R := R) trees rareBelow).store.Classified
      ((estimate (R := R) trees rareBelow).store.rules.map Rule.left).contains :=
  Store.classified_of_assignKinds (Store.assignKinds_assignKinds _)

/-- The store of the probabilistic grammar of a treebank finds its own rules, if every symbol has a
name. -/
theorem retraced_estimate {trees : List (Tree Symbol)} {rareBelow : Nat}
    (named : ∀ a ∈ (estimate (R := R) trees rareBelow).store.symbols, a.name ≠ "") :
    (estimate (R := R) trees rareBelow).store.Retraced := by
  obtain ⟨indexed, filled⟩ := indexed_filled_estimate (R := R) trees rareBelow
  have classified := classified_estimate (R := R) trees rareBelow
  refine ⟨indexed, fun r hr => Rule.fits_of_kindAmong (filled r hr) (classified r hr),
    fun r hr => ?_, fun r hr a ha => ?_, named⟩
  · obtain ⟨t, -, u, -, sides⟩ := usedIn_of_mem_estimate hr
    rw [(Tree.eq_of_localSides? sides).1, Symbol.base_base]
  · obtain ⟨t, -, u, -, sides⟩ := usedIn_of_mem_estimate hr
    rw [(Tree.eq_of_localSides? sides).2] at ha
    obtain ⟨b, -, rfl⟩ := List.mem_map.mp ha
    exact childLabel_childLabel b

/-- No conversion has made a helper in the probabilistic grammar of a treebank. -/
theorem isHelper_estimate (trees : List (Tree Symbol)) (rareBelow : Nat) (a : Symbol) :
    (estimate (R := R) trees rareBelow).isHelper a = false := by
  have same := isHelper_ofTrees trees rareBelow a
  rwa [← plain_estimate (R := R)] at same

end Grammar

end Constituency
