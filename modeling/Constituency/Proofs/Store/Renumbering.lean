import Constituency.Proofs.Store.Update
import Mathlib.Data.List.Basic

/-!
# Numbering rules anew

Splitting long rules changes right sides in place and puts new rules at the end
of both lists. As long as the lists still name every rule and no two rules come
to have the same sides, numbering the rules anew gives an indexed store with the
same rules, and the final check of a conversion succeeds. The gaps that removed
rules left are closed: the number of a rule becomes how many rules came before it.
-/

namespace Constituency.Store

variable {W : Type} {s : Store W}

/-- Changing every rule keeps a store listed. -/
theorem Listed.mapRules (h : s.Listed) (f : Rule W → Rule W) : (s.mapRules f).Listed := by
  have live : ∀ id, ((s.mapRules f).rule? id).isSome = (s.rule? id).isSome := fun id => by
    rw [rule?_mapRules, Option.isSome_map]
  exact ⟨⟨h.left.nodup, fun id => by rw [live]; exact h.left.mem id⟩,
    ⟨h.right.nodup, fun id => by rw [live]; exact h.right.mem id⟩⟩

/-- Putting a rule at the end gives it the next number. -/
theorem rule?_append (s : Store W) (r : Rule W) (id : RuleNumber) :
    (s.append r).rule? id = if id = s.slots.size then some r else s.rule? id :=
  rule?_push rfl id

/-- Putting a rule at the end keeps a store listed. -/
theorem Listed.append (h : s.Listed) (r : Rule W) : (s.append r).Listed := by
  have perm : ∀ index : Array RuleNumber,
      (index.push s.slots.size).toList.Perm (s.slots.size :: index.toList) := fun index => by
    rw [Array.toList_push]
    exact List.perm_append_singleton _ _
  exact ⟨h.left.of_push rfl (perm _), h.right.of_push rfl (perm _)⟩

/-- A rule at the end comes last among the rules. -/
theorem Listed.rules_append (h : s.Listed) (r : Rule W) : (s.append r).rules = s.rules ++ [r] := by
  have old : s.byLeft.toList.filterMap (s.append r).rule? = s.rules :=
    List.filterMap_congr fun id mem => rule?_push_of_mem (t := s.append r) h.left rfl mem
  have new : (s.append r).rule? s.slots.size = some r := by rw [rule?_append, if_pos rfl]
  have ids : (s.append r).byLeft.toList = s.byLeft.toList ++ [s.slots.size] := Array.toList_push
  rw [rules, ids, List.filterMap_append, old, List.filterMap_cons, new]
  rfl

/-! ## Stores made from a list -/

/-- The rule behind a number is the one at that place of the list. -/
theorem rule?_ofRules (rules : List (Rule W)) (id : RuleNumber) :
    (ofRules rules).rule? id = rules[id]? := by
  rw [rule?, ofRules]
  simp only [List.getElem?_toArray, List.getElem?_map]
  cases rules[id]? <;> rfl

/-- The numbers of a list of rules, sorted by the rules. -/
def sortedNumbers (order : Rule W → Rule W → Ordering) (rules : List (Rule W)) : List RuleNumber :=
  (rules.zipIdx.mergeSort fun a b => (order a.1 b.1).isLE).map Prod.snd

/-- Sorting by an order leaves no rule behind a greater one. -/
theorem pairwise_mergeSort_zipIdx (order : Rule W → Rule W → Ordering) [Std.TransCmp order]
    (rules : List (Rule W)) :
    (rules.zipIdx.mergeSort fun a b => (order a.1 b.1).isLE).Pairwise
      fun a b => (order a.1 b.1).isLE := by
  refine List.pairwise_mergeSort ?_ ?_ _
  · intro a b c first second
    exact Std.TransCmp.isLE_trans first second
  · intro a b
    rw [Bool.or_eq_true, show order b.1 a.1 = (order a.1 b.1).swap from Std.OrientedCmp.eq_swap]
    cases order a.1 b.1 <;> decide

/-- The sorted numbers are the places of the list. -/
theorem mem_sortedNumbers (order : Rule W → Rule W → Ordering) (rules : List (Rule W)) (id : Nat) :
    id ∈ sortedNumbers order rules ↔ (rules[id]?).isSome := by
  rw [sortedNumbers, List.mem_map]
  constructor
  · rintro ⟨⟨r, i⟩, hmem, rfl⟩
    have := List.mem_zipIdx_iff_getElem?.mp ((List.mergeSort_perm _ _).mem_iff.mp hmem)
    rw [this]
    rfl
  · intro live
    obtain ⟨r, hr⟩ := Option.isSome_iff_exists.mp live
    have listed : (r, id) ∈ rules.zipIdx := List.mem_zipIdx_iff_getElem?.mpr hr
    exact ⟨(r, id), (List.mergeSort_perm _ _).mem_iff.mpr listed, rfl⟩

/-- The sorted numbers name the rules of the store made from the list. -/
theorem lists_sortedNumbers (order : Rule W → Rule W → Ordering) (rules : List (Rule W)) :
    (ofRules rules).Lists (sortedNumbers order rules).toArray := by
  refine ⟨?_, fun id => ?_⟩
  · have perm : (sortedNumbers order rules).Perm (rules.zipIdx.map Prod.snd) :=
      (List.mergeSort_perm _ _).map _
    rw [perm.nodup_iff, List.zipIdx_map_snd]
    exact List.nodup_range'
  · rw [rule?_ofRules]
    exact mem_sortedNumbers order rules id

/-- When no two rules have the same sides, the sorted numbers are in strict order. -/
theorem sortedBy_sortedNumbers {order : Rule W → Rule W → Ordering} [Std.TransCmp order]
    (ties : ∀ {a b}, order a b = .eq → a.SameSides b) {rules : List (Rule W)}
    (apart : (ofRules rules).DistinctSides) :
    (ofRules rules).SortedBy order (sortedNumbers order rules).toArray := by
  rw [SortedBy]
  change (sortedNumbers order rules).Pairwise _
  have lists := (lists_sortedNumbers order rules).nodup
  change ((rules.zipIdx.mergeSort fun a b => (order a.1 b.1).isLE).map Prod.snd).Nodup at lists
  rw [List.nodup_iff_pairwise_ne, List.pairwise_map] at lists
  rw [sortedNumbers, List.pairwise_map]
  refine List.Pairwise.imp_of_mem ?_ (lists.and (pairwise_mergeSort_zipIdx order rules))
  rintro ⟨a', i⟩ ⟨b', j⟩ ha' hb' ⟨hne, hle⟩ a b ha hb
  have at_i := List.mem_zipIdx_iff_getElem?.mp ((List.mergeSort_perm _ _).mem_iff.mp ha')
  have at_j := List.mem_zipIdx_iff_getElem?.mp ((List.mergeSort_perm _ _).mem_iff.mp hb')
  simp only at at_i at_j ha hb hne hle
  rw [rule?_ofRules] at ha hb
  rw [at_i] at ha
  rw [at_j] at hb
  cases ha
  cases hb
  cases hc : order a' b' with
  | lt => rfl
  | eq =>
    have first : (ofRules rules).rule? i = some a' := by rw [rule?_ofRules, at_i]
    have second : (ofRules rules).rule? j = some b' := by rw [rule?_ofRules, at_j]
    exact absurd (apart i j a' b' first second (ties hc)) hne
  | gt => rw [hc] at hle; cases hle

/-- A store made from rules with distinct sides is indexed. -/
theorem indexed_ofRules {rules : List (Rule W)} (apart : (ofRules rules).DistinctSides) :
    (ofRules rules).Indexed where
  left := lists_sortedNumbers Rule.compareLeftFirst rules
  right := lists_sortedNumbers Rule.compareRightFirst rules
  sortedLeft := sortedBy_sortedNumbers Rule.compareLeftFirst_eq_eq.mp apart
  sortedRight := sortedBy_sortedNumbers Rule.compareRightFirst_eq_eq.mp apart

/-! ## Renumbering -/

/-- The rules of the slots are those with a number. -/
theorem mem_filterMap_slots {r : Rule W} :
    r ∈ s.slots.toList.filterMap id ↔ ∃ i, s.rule? i = some r := by
  rw [List.mem_filterMap]
  constructor
  · rintro ⟨slot, hmem, hslot⟩
    obtain ⟨i, hi⟩ := List.getElem?_of_mem hmem
    refine ⟨i, ?_⟩
    rw [rule?, ← Array.getElem?_toList, hi]
    exact hslot
  · rintro ⟨i, hi⟩
    rw [rule?, Option.join_eq_some_iff] at hi
    exact ⟨some r, Array.mem_toList_iff.mpr (Array.mem_of_getElem? hi), rfl⟩

/-- The slots in use hold rules that differ in their sides. -/
theorem DistinctSides.pairwise_slots (apart : s.DistinctSides) :
    (s.slots.toList.filterMap id).Pairwise fun a b => ¬a.SameSides b := by
  have slots : s.slots.toList.Pairwise fun x y =>
      ∀ a, x = some a → ∀ b, y = some b → ¬a.SameSides b := by
    rw [List.pairwise_iff_getElem]
    intro i j hi hj hlt a ha b hb same
    have at_i : s.rule? i = some a := by
      rw [rule?, ← Array.getElem?_toList, List.getElem?_eq_getElem hi, ha]
      rfl
    have at_j : s.rule? j = some b := by
      rw [rule?, ← Array.getElem?_toList, List.getElem?_eq_getElem hj, hb]
      rfl
    exact Nat.ne_of_lt hlt (apart i j a b at_i at_j same)
  exact List.Pairwise.filterMap id (fun _ _ hxy a ha b hb => hxy a ha b hb) slots

/-- A list whose rules differ in their sides makes a store with distinct sides. -/
theorem distinctSides_ofRules {rules : List (Rule W)}
    (apart : rules.Pairwise fun a b => ¬a.SameSides b) : (ofRules rules).DistinctSides := by
  intro i j a b ha hb same
  rw [rule?_ofRules] at ha hb
  obtain ⟨hi, rfl⟩ := List.getElem?_eq_some_iff.mp ha
  obtain ⟨hj, rfl⟩ := List.getElem?_eq_some_iff.mp hb
  rcases Nat.lt_trichotomy i j with hlt | heq | hgt
  · exact absurd same (List.pairwise_iff_getElem.mp apart i j hi hj hlt)
  · exact heq
  · exact absurd same.symm (List.pairwise_iff_getElem.mp apart j i hj hi hgt)

/-- Renumbering a store with distinct sides gives an indexed one. -/
theorem DistinctSides.indexed_renumber (apart : s.DistinctSides) : s.renumber.Indexed :=
  indexed_ofRules (distinctSides_ofRules apart.pairwise_slots)

/-- Renumbering a listed store with distinct sides keeps the rules. -/
theorem DistinctSides.mem_rules_renumber (apart : s.DistinctSides) {r : Rule W} :
    r ∈ s.renumber.rules ↔ ∃ id, s.rule? id = some r := by
  rw [apart.indexed_renumber.mem_rules, ← mem_filterMap_slots (s := s), List.mem_iff_getElem?]
  simp only [renumber, rule?_ofRules]

/-- Where no number is empty, renumbering is the identity on a store made from a list. -/
theorem renumber_ofRules (rules : List (Rule W)) : (ofRules rules).renumber = ofRules rules := by
  have slots : (ofRules rules).slots.toList.filterMap id = rules := by
    change (rules.map some).toArray.toList.filterMap id = rules
    rw [List.toList_toArray, List.filterMap_map]
    exact List.filterMap_some
  rw [renumber, slots]

/-! ## Numbers after renumbering -/

variable {t : Store W}

/-- How many rules have smaller numbers. -/
def rank (s : Store W) (number : RuleNumber) : Nat :=
  (List.range number).countP fun i => (s.rule? i).isSome

/-- A number with a rule counts for the next one. -/
theorem rank_succ (s : Store W) (number : RuleNumber) :
    s.rank (number + 1) = s.rank number + if (s.rule? number).isSome then 1 else 0 := by
  rw [rank, List.range_succ, List.countP_append, List.countP_singleton, rank]

/-- Ranks grow with numbers. -/
theorem rank_le (s : Store W) {i j : RuleNumber} (h : i ≤ j) : s.rank i ≤ s.rank j :=
  (List.range_sublist.mpr h).countP_le

/-- The rank of a rule is less than those of all later numbers. -/
theorem rank_lt {i j : RuleNumber} {r : Rule W} (hi : s.rule? i = some r) (h : i < j) :
    s.rank i < s.rank j := by
  have next : s.rank (i + 1) = s.rank i + 1 := by rw [rank_succ, hi]; rfl
  exact Nat.lt_of_lt_of_le (Nat.lt_of_lt_of_eq (Nat.lt_succ_self _) next.symm) (s.rank_le h)

/-- Stores with rules at the same smaller numbers rank a number alike. -/
theorem rank_congr {number : RuleNumber}
    (h : ∀ i < number, (t.rule? i).isSome = (s.rule? i).isSome) : t.rank number = s.rank number :=
  List.countP_congr fun i hi => by rw [h i (List.mem_range.mp hi)]

/-- The rank counts the rules among the first slots. -/
theorem length_filterMap_take (s : Store W) {number : RuleNumber} (h : number ≤ s.slots.size) :
    ((s.slots.toList.take number).filterMap id).length = s.rank number := by
  induction number with
  | zero => rfl
  | succ number ih =>
    have inside : number < s.slots.toList.length := h
    have slot : s.rule? number = s.slots.toList[number] := by
      rw [rule?, ← Array.getElem?_toList, List.getElem?_eq_getElem inside]
      rfl
    rw [List.take_succ_eq_append_getElem inside, List.filterMap_append, List.length_append,
      ih (Nat.le_of_succ_le h), rank_succ, slot]
    cases s.slots.toList[number] <;> rfl

/-- Renumbering gives a rule its rank for a number. -/
theorem rule?_renumber {number : RuleNumber} {r : Rule W} (h : s.rule? number = some r) :
    s.renumber.rule? (s.rank number) = some r := by
  have inside : number < s.slots.toList.length := lt_of_rule? h
  have slot : s.slots.toList[number] = some r := by
    rw [← h, rule?, ← Array.getElem?_toList, List.getElem?_eq_getElem inside]
    rfl
  have cut : s.slots.toList =
      s.slots.toList.take number ++ some r :: s.slots.toList.drop (number + 1) := by
    rw [← slot, ← List.drop_eq_getElem_cons inside, List.take_append_drop]
  rw [renumber, rule?_ofRules, cut, List.filterMap_append,
    ← s.length_filterMap_take (Nat.le_of_lt inside), List.getElem?_append_right (Nat.le_refl _),
    Nat.sub_self]
  rfl

/-- A store made from a list has as many rules as the list. -/
theorem size_ofRules (rules : List (Rule W)) : (ofRules rules).size = rules.length := by
  simp [size, ofRules]

/-- Renumbering leaves no number empty. -/
theorem isSome_rule?_renumber (s : Store W) (number : RuleNumber) :
    (s.renumber.rule? number).isSome ↔ number < s.renumber.size := by
  rw [renumber, rule?_ofRules, size_ofRules, Option.isSome_iff_ne_none, Ne,
    List.getElem?_eq_none_iff, Nat.not_le]

/-! ## The final check -/

/-- A relation that holds between all rules of a list holds between neighbours. -/
theorem adjacent_of_pairwise {p : Rule W → Rule W → Bool} {rules : List (Rule W)}
    (h : rules.Pairwise fun a b => p a b = true) : adjacent p rules = true := by
  fun_induction adjacent p rules with
  | case1 a b rest ih =>
    obtain ⟨first, rest⟩ := List.pairwise_cons.mp h
    rw [Bool.and_eq_true]
    exact ⟨first b List.mem_cons_self, ih rest⟩
  | case2 => rfl

/-- When a transitive relation holds between neighbours, it holds between all rules of a list. -/
theorem pairwise_of_adjacent {p : Rule W → Rule W → Bool}
    (trans : ∀ {a b c}, p a b = true → p b c = true → p a c = true) {rules : List (Rule W)}
    (h : adjacent p rules = true) : rules.Pairwise fun a b => p a b = true := by
  fun_induction adjacent p rules with
  | case1 a b rest ih =>
    rw [Bool.and_eq_true] at h
    have below := ih h.2
    refine List.pairwise_cons.mpr ⟨fun c hc => ?_, below⟩
    rcases List.mem_cons.mp hc with rfl | later
    · exact h.1
    · exact trans h.1 ((List.pairwise_cons.mp below).1 c later)
  | case2 rules short =>
    match rules with
    | [] => exact .nil
    | [a] => exact List.pairwise_singleton _ a
    | a :: b :: rest => exact absurd rfl (short a b rest)

/-- In a store that passes the check, the left list is in strict order. -/
theorem sortedLeft_of_isCoherent (coherent : s.isCoherent = true) :
    s.SortedBy Rule.compareLeftFirst s.byLeft := by
  rw [Store.isCoherent, Bool.and_eq_true, Bool.and_eq_true] at coherent
  have sorted := pairwise_of_adjacent (fun {a b c} first second => by
    rw [Ordering.isLT_iff_eq_lt] at first second ⊢
    exact Std.TransCmp.lt_trans first second) coherent.1.2
  refine (List.pairwise_filterMap.mp sorted).imp fun hlt a b ha hb => ?_
  exact Ordering.isLT_iff_eq_lt.mp (hlt a ha b hb)

/-- In a listed store that passes the check, the sides of a rule tell its number. -/
theorem Listed.distinctSides_of_isCoherent (h : s.Listed) (coherent : s.isCoherent = true) :
    s.DistinctSides :=
  fun _ _ _ _ hi hj same =>
    h.left.eq_of_tie (sortedLeft_of_isCoherent coherent) hi hj
      (Rule.compareLeftFirst_eq_eq.mpr same)

/-- An indexed store passes the check. -/
theorem Indexed.isCoherent (h : s.Indexed) : s.isCoherent = true := by
  have total : ∀ l : List RuleNumber, (l.mergeSort).Pairwise fun a b => a ≤ b := by
    intro l
    have trans : ∀ a b c : RuleNumber, decide (a ≤ b) = true → decide (b ≤ c) = true →
        decide (a ≤ c) = true := fun _ _ _ hab hbc => decide_eq_true
      (Nat.le_trans (of_decide_eq_true hab) (of_decide_eq_true hbc))
    have comparable : ∀ a b : RuleNumber, (decide (a ≤ b) || decide (b ≤ a)) = true := by
      intro a b
      rw [Bool.or_eq_true, decide_eq_true_eq, decide_eq_true_eq]
      exact Nat.le_total a b
    exact (List.pairwise_mergeSort trans comparable l).imp of_decide_eq_true
  have perm : s.byLeft.toList.Perm s.byRight.toList :=
    (List.perm_ext_iff_of_nodup h.left.nodup h.right.nodup).mpr fun id => by
      rw [h.left.mem, h.right.mem]
  have same : s.byLeft.toList.mergeSort = s.byRight.toList.mergeSort :=
    List.Perm.eq_of_pairwise (fun _ _ _ _ hab hba => Nat.le_antisymm hab hba) (total _) (total _)
      ((List.mergeSort_perm _ _).trans (perm.trans (List.mergeSort_perm _ _).symm))
  have left := h.sortedLeft.pairwise_rules.imp (S := fun a b => (a.compareLeftFirst b).isLT = true)
    fun {a b} hlt => by rw [hlt]; rfl
  have right := h.sortedRight.pairwise_rules.imp
    (S := fun a b => (a.compareRightFirst b).isLE = true) fun {a b} hlt => by rw [hlt]; rfl
  rw [Store.isCoherent, Bool.and_eq_true, Bool.and_eq_true, beq_iff_eq]
  exact ⟨⟨same, adjacent_of_pairwise left⟩, adjacent_of_pairwise right⟩

end Constituency.Store
