import Mathlib
import Constituency.Proofs.Grammar.Treebank

/-!
# Counting rules while they are stored

The rules of a treebank are counted while they are stored: a search finds the rule
that the next use counts for, or there is none and the rule is stored. `Tallies` is
the invariant: the rules are those used so far, each with the number of its uses.
Shares are taken once all uses are counted, left symbol by left symbol; they change
no count, so each is the share in the final total.
-/

namespace Constituency

/-! ## Counting nodes -/

/-- The sides of the rules that the nodes of trees use, node by node. -/
def usesOf (trees : List (Tree Symbol)) : List (Symbol × List Symbol) :=
  (trees.flatMap Tree.subtrees).filterMap (Tree.localSides? true)

/-- The number of nodes of trees that use the rule with the given sides. -/
def nodesUsing (trees : List (Tree Symbol)) (left : Symbol) (right : List Symbol) : Nat :=
  (trees.flatMap Tree.subtrees).countP fun u => u.localSides? true == some (left, right)

variable {trees : List (Tree Symbol)}

/-- The sides among the uses are those that some node uses. -/
theorem mem_usesOf {left : Symbol} {right : List Symbol} :
    (left, right) ∈ usesOf trees ↔ UsedIn trees left right := by
  rw [usesOf, List.mem_filterMap, UsedIn]
  constructor
  · rintro ⟨u, hu, sides⟩
    obtain ⟨t, ht, hu⟩ := List.mem_flatMap.mp hu
    exact ⟨t, ht, u, hu, sides⟩
  · rintro ⟨t, ht, u, hu, sides⟩
    exact ⟨u, List.mem_flatMap.mpr ⟨t, ht, hu⟩, sides⟩

/-- Sides are among the uses once for each node that uses them. -/
theorem count_usesOf (left : Symbol) (right : List Symbol) :
    (usesOf trees).count (left, right) = nodesUsing trees left right := by
  rw [usesOf, List.count, List.countP_filterMap, nodesUsing]
  apply List.countP_congr
  intro u _
  cases u.localSides? true with
  | none => simp
  | some sides => simp

/-- There are no more uses than nodes. -/
theorem length_usesOf_le : (usesOf trees).length ≤ (trees.flatMap Tree.subtrees).length :=
  List.length_filterMap_le _ _

/-- The rules at the nodes of trees have the sides that are used there. -/
theorem map_sides_localRules {W : Type} (weight : W) (trees : List (Tree Symbol)) :
    (trees.flatMap (Tree.localRules true weight)).map Rule.sides = usesOf trees := by
  have each : ∀ u : Tree Symbol,
      (u.localRule? true weight).map Rule.sides = u.localSides? true := by
    intro u
    rw [Tree.localRule?]
    cases sides : u.localSides? true with
    | none => rfl
    | some pair =>
      have filled : pair.2 ≠ [] := Tree.right_ne_nil_of_localSides? sides
      rw [Option.bind_some, Rule.ofSides?, if_neg (by simpa using filled)]
      rfl
  induction trees with
  | nil => rfl
  | cons t trees ih =>
    rw [List.flatMap_cons, List.map_append, ih, Tree.localRules, List.map_filterMap, usesOf, usesOf,
      List.flatMap_cons, List.filterMap_append]
    simp only [each]

namespace Store

variable {R : Type} {s : Store (Probability R)}

/-! ## Counting while storing -/

/-- A store tallies uses: it has a rule for all sides that are used and for no others, and the count
of the rule is the number of uses. -/
structure Tallies (s : Store (Probability R)) (uses : List (Symbol × List Symbol)) : Prop where
  /-- The store is indexed. -/
  indexed : s.Indexed
  /-- Rules are used. -/
  used : ∀ r ∈ s.rules, r.sides ∈ uses
  /-- What is used has a rule. -/
  stored : ∀ sides ∈ uses, ∃ r ∈ s.rules, r.sides = sides
  /-- The count is the number of uses. -/
  count : ∀ r ∈ s.rules, r.weight.count = uses.count r.sides

/-- The empty store tallies no uses. -/
theorem tallies_empty : ({} : Store (Probability R)).Tallies [] where
  indexed := indexed_empty
  used _ hr := nomatch hr
  stored _ none := nomatch none
  count _ hr := nomatch hr

/-- A use counts for the rule with its sides, or the rule is stored because there is none. -/
theorem Indexed.countUse_cases (h : s.Indexed) (r : Rule (Probability R)) :
    (∃ id p, s.rule? id = some p ∧ p.SameSides r ∧
      s.countUse r = s.modifyWeight id Probability.countOnce) ∨
      ((∀ p ∈ s.rules, ¬p.SameSides r) ∧
        s.countUse r = (s.add { r with weight := r.weight.countOnce }).1) := by
  cases place : s.position? r.left r.right with
  | none =>
    refine Or.inr ⟨(h.position?_eq_none r).mp place, ?_⟩
    rw [countUse, Store.search, place]
    rfl
  | some i =>
    obtain ⟨id, p, at_place, stored, same⟩ := rule_of_position? place
    refine Or.inl ⟨id, p, stored, same, ?_⟩
    rw [countUse, Store.search, place, Option.bind_some, at_place]

/-- The rules after the weight behind one number is changed. -/
theorem Indexed.mem_rules_modifyWeight {W : Type} {s : Store W} (h : s.Indexed) {id : RuleNumber}
    {p : Rule W} (stored : s.rule? id = some p) (f : W → W) {q : Rule W} :
    q ∈ (s.modifyWeight id f).rules ↔
      q = { p with weight := f p.weight } ∨ q ∈ s.rules ∧ ¬q.SameSides p := by
  rw [(h.modifyWeight id f).mem_rules, h.mem_rules]
  simp only [rule?_modifyWeight, Option.map_eq_some_iff]
  constructor
  · rintro ⟨j, r, hr, rfl⟩
    by_cases here : j = id
    · subst here
      obtain rfl : r = p := Option.some.inj (hr.symm.trans stored)
      exact Or.inl (if_pos rfl)
    · rw [if_neg here]
      exact Or.inr ⟨⟨j, hr⟩, fun same => here (h.distinctSides j id r p hr stored same)⟩
  · rintro (rfl | ⟨⟨j, hj⟩, other⟩)
    · exact ⟨id, p, stored, if_pos rfl⟩
    · refine ⟨j, q, hj, if_neg ?_⟩
      rintro rfl
      obtain rfl : q = p := Option.some.inj (hj.symm.trans stored)
      exact other (.refl q)

/-- One more use of other sides leaves the number of uses of a rule alone. -/
theorem count_append_of_not_sameSides (uses : List (Symbol × List Symbol))
    {q r : Rule (Probability R)} (other : ¬q.SameSides r) :
    (uses ++ [r.sides]).count q.sides = uses.count q.sides := by
  have absent : q.sides ∉ [r.sides] := fun there =>
    other (Prod.mk.inj (List.mem_singleton.mp there))
  rw [List.count_append, List.count_eq_zero_of_not_mem absent, Nat.add_zero]

/-- Counting a use of a stored rule once more tallies it. -/
theorem Tallies.countAgain {uses : List (Symbol × List Symbol)} (h : s.Tallies uses)
    {id : RuleNumber} {p : Rule (Probability R)} (stored : s.rule? id = some p) :
    (s.modifyWeight id Probability.countOnce).Tallies (uses ++ [p.sides]) := by
  have mem := fun q => h.indexed.mem_rules_modifyWeight (q := q) stored Probability.countOnce
  have here : p ∈ s.rules := h.indexed.mem_rules.mpr ⟨id, stored⟩
  constructor
  case indexed => exact h.indexed.modifyWeight id _
  case used =>
    intro q hq
    rcases (mem q).mp hq with rfl | ⟨old, -⟩
    · exact List.mem_append_left _ (h.used p here)
    · exact List.mem_append_left _ (h.used q old)
  case stored =>
    intro sides among
    have before : sides ∈ uses := by
      rcases List.mem_append.mp among with old | last
      · exact old
      · rw [List.mem_singleton.mp last]
        exact h.used p here
    obtain ⟨q, hq, rfl⟩ := h.stored sides before
    by_cases same : q.SameSides p
    · exact ⟨_, (mem _).mpr (Or.inl rfl), Prod.ext same.1.symm same.2.symm⟩
    · exact ⟨q, (mem q).mpr (Or.inr ⟨hq, same⟩), rfl⟩
  case count =>
    intro q hq
    rcases (mem q).mp hq with rfl | ⟨old, other⟩
    · change p.weight.count + 1 = (uses ++ [p.sides]).count p.sides
      rw [h.count p here, List.count_append, List.count_singleton_self]
    · rw [count_append_of_not_sameSides uses other]
      exact h.count q old

/-- Storing a new rule for a use tallies it. -/
theorem Tallies.countFirst {uses : List (Symbol × List Symbol)} (h : s.Tallies uses)
    {r : Rule (Probability R)} (uncounted : r.weight.count = 0)
    (new : ∀ p ∈ s.rules, ¬p.SameSides r) :
    (s.add { r with weight := r.weight.countOnce }).1.Tallies (uses ++ [r.sides]) := by
  have mem := fun q => h.indexed.mem_rules_add (r := { r with weight := r.weight.countOnce })
    (q := q)
  constructor
  case indexed => exact h.indexed.add _
  case used =>
    intro q hq
    rcases (mem q).mp hq with old | ⟨rfl, -⟩
    · exact List.mem_append_left _ (h.used q old)
    · exact List.mem_append_right _ List.mem_cons_self
  case stored =>
    intro sides among
    rcases List.mem_append.mp among with old | last
    · obtain ⟨q, hq, rfl⟩ := h.stored sides old
      exact ⟨q, (mem q).mpr (Or.inl hq), rfl⟩
    · exact ⟨_, (mem _).mpr (Or.inr ⟨rfl, new⟩), (List.mem_singleton.mp last).symm⟩
  case count =>
    intro q hq
    rcases (mem q).mp hq with old | ⟨rfl, -⟩
    · rw [count_append_of_not_sameSides uses (new q old)]
      exact h.count q old
    · have never : r.sides ∉ uses := by
        intro there
        obtain ⟨p, hp, sides⟩ := h.stored r.sides there
        exact new p hp (Prod.mk.inj sides)
      change r.weight.count + 1 = (uses ++ [r.sides]).count r.sides
      rw [List.count_append, List.count_eq_zero_of_not_mem never, List.count_singleton_self,
        uncounted]

/-- Counting one use tallies it. -/
theorem Tallies.countUse {uses : List (Symbol × List Symbol)} (h : s.Tallies uses)
    {r : Rule (Probability R)} (uncounted : r.weight.count = 0) :
    (s.countUse r).Tallies (uses ++ [r.sides]) := by
  rcases h.indexed.countUse_cases r with ⟨id, p, stored, same, counted⟩ | ⟨new, counted⟩
  · have sides : p.sides = r.sides := Prod.ext same.1 same.2
    rw [counted, ← sides]
    exact h.countAgain stored
  · rw [counted]
    exact h.countFirst uncounted new

/-- Counting uses one by one tallies them all. -/
theorem Tallies.foldl_countUse {uses : List (Symbol × List Symbol)} (h : s.Tallies uses)
    {more : List (Rule (Probability R))} (uncounted : ∀ r ∈ more, r.weight.count = 0) :
    (more.foldl Store.countUse s).Tallies (uses ++ more.map Rule.sides) := by
  induction more generalizing s uses with
  | nil =>
    rw [List.map_nil, List.append_nil]
    exact h
  | cons r more ih =>
    have step := ih (h.countUse (uncounted r List.mem_cons_self)) fun q hq =>
      uncounted q (List.mem_cons_of_mem r hq)
    rwa [List.append_assoc] at step

/-! ## Totals -/

/-- The sum of the counts of the stored rules with a left symbol. -/
def leftTotal (s : Store (Probability R)) (left : Symbol) : Nat :=
  ((s.rules.filter (·.left == left)).map (·.weight.count)).sum

/-- In an indexed store the count of a left symbol is that sum. -/
theorem Indexed.leftCount_eq (h : s.Indexed) (left : Symbol) :
    s.leftCount left = s.leftTotal left := by
  rw [leftCount, h.withLeft_eq, leftTotal, List.sum_eq_foldl, List.foldl_map]

/-- In a store that tallies uses the total is the number of uses of the left symbol. -/
theorem Tallies.leftTotal_eq {uses : List (Symbol × List Symbol)} (h : s.Tallies uses)
    (left : Symbol) : s.leftTotal left = uses.countP (·.1 == left) := by
  have nodup : (s.rules.map Rule.sides).Nodup :=
    List.pairwise_map.mpr (h.indexed.pairwise_rules.imp fun other same =>
      other (Prod.mk.inj same))
  have perm : (s.rules.map Rule.sides).Perm uses.dedup := by
    rw [List.perm_ext_iff_of_nodup nodup uses.nodup_dedup]
    intro sides
    rw [List.mem_dedup, List.mem_map]
    constructor
    · rintro ⟨r, hr, rfl⟩
      exact h.used r hr
    · exact h.stored sides
  calc
    s.leftTotal left =
        (((s.rules.map Rule.sides).filter (·.1 == left)).map
          fun sides => uses.count sides).sum := by
      rw [leftTotal, List.filter_map, List.map_map]
      refine congrArg List.sum (List.map_congr_left fun r hr => ?_)
      exact h.count r (List.mem_of_mem_filter hr)
    _ = ((uses.dedup.filter (·.1 == left)).map fun sides => uses.count sides).sum :=
      ((perm.filter _).map _).sum_eq
    _ = uses.countP (·.1 == left) := by
      -- the library counts by decidable equality, uses are compared side by side
      rw [show (instBEqProd : BEq (Symbol × List Symbol)) = instBEqOfDecidableEq from
        lawful_beq_subsingleton _ _]
      exact List.sum_map_count_dedup_filter_eq_countP (·.1 == left) uses

/-- Totals depend on left symbols and counts only. -/
theorem leftTotal_map {t : Store (Probability R)} {f : Rule (Probability R) → Rule (Probability R)}
    (rules : t.rules = s.rules.map f) (left : ∀ r, (f r).left = r.left)
    (count : ∀ r, (f r).weight.count = r.weight.count) : t.leftTotal = s.leftTotal := by
  funext a
  rw [leftTotal, rules, List.filter_map, List.map_map, leftTotal]
  simp only [Function.comp_def, left, count]

/-! ## Shares -/

variable [ProbabilityNumber R]

/-- Makes the probabilities of the rules with a left symbol their shares in its count. -/
def shareLeft (s : Store (Probability R)) (left : Symbol) : Store (Probability R) :=
  (s.idsWithLeft left).foldl (fun t id => t.modifyWeight id (·.share (s.leftCount left))) s

/-- The rule with its share in the total of its left symbol. -/
def shared (total : Symbol → Nat) (r : Rule (Probability R)) : Rule (Probability R) :=
  { r with weight := r.weight.share (total r.left) }

/-- The rules behind numbers whose weights are changed. -/
theorem rule?_foldl_share (s : Store (Probability R)) (ids : List RuleNumber) (total : Nat)
    (j : RuleNumber) :
    (ids.foldl (fun t id => t.modifyWeight id (·.share total)) s).rule? j =
      (s.rule? j).map fun r =>
        if j ∈ ids then { r with weight := r.weight.share total } else r := by
  induction ids generalizing s with
  | nil => simp
  | cons id ids ih =>
    rw [List.foldl_cons, ih, rule?_modifyWeight, Option.map_map]
    congr 1
    funext r
    -- a share of a share is a share, so it does not matter if a number comes again
    by_cases first : j = id <;> by_cases later : j ∈ ids <;>
      simp [first, later, Probability.share]

/-- Changing weights behind some numbers leaves the list of numbers alone. -/
theorem byLeft_foldl_share (s : Store (Probability R)) (ids : List RuleNumber) (total : Nat) :
    (ids.foldl (fun t id => t.modifyWeight id (·.share total)) s).byLeft = s.byLeft := by
  induction ids generalizing s with
  | nil => rfl
  | cons id ids ih => exact ih _

/-- It leaves the other list alone, too. -/
theorem byRight_foldl_share (s : Store (Probability R)) (ids : List RuleNumber) (total : Nat) :
    (ids.foldl (fun t id => t.modifyWeight id (·.share total)) s).byRight = s.byRight := by
  induction ids generalizing s with
  | nil => rfl
  | cons id ids ih => exact ih _

/-- The rule with its share, if its left symbol is among those listed. -/
def sharedAmong (lefts : List Symbol) (total : Symbol → Nat) (r : Rule (Probability R)) :
    Rule (Probability R) :=
  if r.left ∈ lefts then shared total r else r

/-- A share changes the probability only. -/
theorem sharedAmong_cases (lefts : List Symbol) (total : Symbol → Nat) (r : Rule (Probability R)) :
    (sharedAmong lefts total r).sides = r.sides ∧
      (sharedAmong lefts total r).weight.count = r.weight.count := by
  rw [sharedAmong]
  split <;> exact ⟨rfl, rfl⟩

/-- Sharing out one left symbol changes the rules with this symbol. -/
theorem Indexed.rules_shareLeft (h : s.Indexed) (left : Symbol) :
    (s.shareLeft left).Indexed ∧
      (s.shareLeft left).rules = s.rules.map (sharedAmong [left] s.leftTotal) := by
  have same : (s.shareLeft left).rule? = (s.mapRules (sharedAmong [left] s.leftTotal)).rule? := by
    funext j
    rw [shareLeft, rule?_foldl_share, rule?_mapRules]
    cases stored : s.rule? j with
    | none => rfl
    | some r =>
      have found : j ∈ s.idsWithLeft left ↔ r.left ∈ [left] := by
        rw [h.mem_idsWithLeft, stored, List.mem_singleton]
        simp
      rw [Option.map_some, Option.map_some, sharedAmong]
      by_cases here : r.left ∈ [left]
      · rw [if_pos (found.mpr here), if_pos here, shared, List.mem_singleton.mp here,
          h.leftCount_eq]
      · rw [if_neg (fun hj => here (found.mp hj)), if_neg here]
  have left_eq : (s.shareLeft left).byLeft = s.byLeft := byLeft_foldl_share s _ _
  have right_eq : (s.shareLeft left).byRight = s.byRight := byRight_foldl_share s _ _
  constructor
  · refine h.of_sides left_eq right_eq fun j => ?_
    rw [same, rule?_mapRules, Option.map_map]
    exact congrFun (congrArg Option.map (funext fun r => (sharedAmong_cases _ _ r).1)) _
  · rw [rules, left_eq, same]
    exact rules_mapRules s _

/-- Sharing out left symbols one by one changes the rules with these symbols. -/
theorem Indexed.rules_foldl_shareLeft (h : s.Indexed) (lefts : List Symbol) :
    (lefts.foldl shareLeft s).Indexed ∧
      (lefts.foldl shareLeft s).rules = s.rules.map (sharedAmong lefts s.leftTotal) := by
  induction lefts generalizing s with
  | nil =>
    refine ⟨h, (List.map_id s.rules).symm.trans (List.map_congr_left fun r _ => ?_)⟩
    exact (if_neg List.not_mem_nil).symm
  | cons left lefts ih =>
    obtain ⟨indexed, rules⟩ := h.rules_shareLeft left
    obtain ⟨indexedAll, rulesAll⟩ := ih indexed
    have totals : (s.shareLeft left).leftTotal = s.leftTotal :=
      leftTotal_map rules (fun r => congrArg Prod.fst (sharedAmong_cases _ _ r).1)
        fun r => (sharedAmong_cases _ _ r).2
    refine ⟨indexedAll, ?_⟩
    rw [List.foldl_cons, rulesAll, rules, List.map_map, totals]
    refine List.map_congr_left fun r _ => ?_
    by_cases first : r.left = left <;> by_cases later : r.left ∈ lefts <;>
      simp [sharedAmong, first, later, shared, Probability.share]

/-- The shares of all rules. -/
theorem Indexed.rules_assignShares (h : s.Indexed) :
    s.assignShares.Indexed ∧ s.assignShares.rules = s.rules.map (shared s.leftTotal) := by
  obtain ⟨indexed, rules⟩ := h.rules_foldl_shareLeft s.leftSides
  refine ⟨indexed, rules.trans (List.map_congr_left fun r hr => if_pos ?_)⟩
  rw [leftSides, List.mem_eraseDups]
  exact List.mem_map_of_mem hr

/-- Sharing out and assigning kinds changes probabilities and kinds only. -/
theorem Indexed.rules_finished (h : s.Indexed) : ∃ heads,
    s.assignShares.assignKinds.rules =
      s.rules.map fun r => (shared s.leftTotal r).assignKind heads := by
  refine ⟨(s.assignShares.rules.map Rule.left).contains, ?_⟩
  rw [Store.assignKinds, rules_mapRules, h.rules_assignShares.2, List.map_map]
  rfl

end Store

end Constituency
