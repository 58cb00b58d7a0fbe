import Constituency.Proofs.Store.Update

/-!
# Removing rules

Removing looks the rule up on the left list and finds its number again on the
right one, among the rules that share the right side. In an indexed store that
never fails, and only the rule with the given sides goes.
-/

namespace Constituency.Store

variable {W : Type} {s : Store W}

/-- An element that has a place in the run of a comparison has its place in the array. -/
theorem getElem?_of_idxOf?_run {key : RuleNumber → Ordering} {index : Array RuleNumber}
    {id : RuleNumber} {k : Nat} (h : (Sorted.run key index).idxOf? id = some k) :
    index[Sorted.lowerBound (key · == .lt) index + k]? = some id := by
  have hlist : (Sorted.run key index).toList.idxOf? id = some k := by
    rw [← List.idxOf?_toArray]
    exact h
  obtain ⟨hk, hid, -⟩ := List.idxOf?_eq_some_iff.mp hlist
  have found : (Sorted.run key index)[k]? = some id := by
    rw [← Array.getElem?_toList, List.getElem?_eq_getElem hk, hid]
  rw [Sorted.run, Array.getElem?_extract] at found
  split at found
  · exact found
  · cases found

/-- The number of a rule has its place on the right list. -/
theorem Indexed.rightPosition?_eq_some (h : s.Indexed) {id : RuleNumber} {q r : Rule W}
    (hid : s.rule? id = some q) (same : q.SameSides r) :
    ∃ place, s.rightPosition? r id = some place ∧ s.byRight[place]? = some id := by
  have mem : id ∈ (Sorted.run (s.compareAt (·.compareRight r)) s.byRight).toList := by
    have found : id ∈ s.idsWithRight r.right := h.mem_idsWithRight.mpr ⟨q, hid, same.2⟩
    exact found
  have some_place : ((Sorted.run (s.compareAt (·.compareRight r)) s.byRight).idxOf? id).isSome := by
    rw [Array.isSome_idxOf?]
    exact Array.mem_toList_iff.mp mem
  obtain ⟨k, hk⟩ := Option.isSome_iff_exists.mp some_place
  exact ⟨_, by rw [rightPosition?, hk]; rfl, getElem?_of_idxOf?_run hk⟩

/-- A list of numbers without one of them names the rules without that one. -/
theorem Lists.erase {index : Array RuleNumber} (h : s.Lists index) {id : RuleNumber} {place : Nat}
    (at_place : index[place]? = some id) {t : Store W}
    (rule : ∀ j, t.rule? j = if j = id then none else s.rule? j) :
    t.Lists (index.eraseIdxIfInBounds place) := by
  have hlist : index.toList[place]? = some id := by rw [Array.getElem?_toList, at_place]
  refine ⟨?_, fun j => ?_⟩
  · rw [Array.toList_eraseIdxIfInBounds]
    exact h.nodup.sublist (List.eraseIdx_sublist _ _)
  · rw [Array.toList_eraseIdxIfInBounds, List.mem_eraseIdx_iff_getElem?, rule]
    constructor
    · rintro ⟨i, hi, hj⟩
      have hne : j ≠ id := by
        rintro rfl
        have inside := (List.getElem?_eq_some_iff.mp hj).1
        exact hi ((List.getElem?_inj inside h.nodup).mp (hj.trans hlist.symm))
      rw [if_neg hne]
      exact (h.mem j).mp (List.mem_of_getElem? hj)
    · intro live
      have hne : j ≠ id := by
        rintro rfl
        rw [if_pos rfl] at live
        cases live
      rw [if_neg hne, ← h.mem] at live
      obtain ⟨i, hi⟩ := List.getElem?_of_mem live
      refine ⟨i, ?_, hi⟩
      rintro rfl
      rw [hlist] at hi
      exact hne (Option.some.inj hi).symm

/-- Taking a number off a list in order leaves it in order. -/
theorem SortedBy.erase {order : Rule W → Rule W → Ordering} {index : Array RuleNumber}
    (sorted : s.SortedBy order index) {id : RuleNumber} {t : Store W} (place : Nat)
    (rule : ∀ j, t.rule? j = if j = id then none else s.rule? j) :
    t.SortedBy order (index.eraseIdxIfInBounds place) := by
  have keeps : ∀ {j a}, t.rule? j = some a → s.rule? j = some a := by
    intro j a ha
    rw [rule] at ha
    split at ha
    · cases ha
    · exact ha
  rw [SortedBy, Array.toList_eraseIdxIfInBounds]
  refine List.Pairwise.sublist (List.eraseIdx_sublist _ _) (sorted.imp ?_)
  intro i j hlt a b ha hb
  exact hlt a b (keeps ha) (keeps hb)

/-- Removing the sides of a stored rule takes that rule away and hands it back; the store stays
indexed and every other number keeps its rule. -/
theorem Indexed.remove_stored (h : s.Indexed) {id : RuleNumber} {q r : Rule W}
    (hid : s.rule? id = some q) (same : q.SameSides r) :
    ∃ t : Store W, s.remove r = .ok (t, some q) ∧ t.Indexed ∧
      ∀ j, t.rule? j = if j = id then none else s.rule? j := by
  have found := h.isSome_position? (h.mem_rules.mpr ⟨id, hid⟩)
  rw [same.1, same.2] at found
  obtain ⟨left, hleft⟩ := Option.isSome_iff_exists.mp found
  obtain ⟨id', q', at_left, hid', same'⟩ := rule_of_position? hleft
  have hnumber : id' = id := h.distinctSides _ _ _ _ hid' hid (Rule.SameSides.trans same' same.symm)
  subst hnumber
  obtain ⟨right, hright, at_right⟩ := h.rightPosition?_eq_some hid same
  refine ⟨⟨s.slots.setIfInBounds id' none, s.byLeft.eraseIdxIfInBounds left,
    s.byRight.eraseIdxIfInBounds right⟩, ?_, ?_⟩
  · rw [remove, hleft]
    simp only [at_left, hright, hid]
  · have rule : ∀ j, Store.rule? ⟨s.slots.setIfInBounds id' none, s.byLeft.eraseIdxIfInBounds left,
        s.byRight.eraseIdxIfInBounds right⟩ j = if j = id' then none else s.rule? j := by
      intro j
      simp only [rule?, Array.getElem?_setIfInBounds]
      by_cases hj : id' = j
      · subst hj
        rw [if_pos rfl, if_pos (lt_of_rule? hid), if_pos rfl]
        rfl
      · rw [if_neg hj, if_neg (Ne.symm hj)]
    exact ⟨⟨⟨h.left.erase at_left rule, h.right.erase at_right rule⟩,
      h.sortedLeft.erase left rule, h.sortedRight.erase right rule⟩, rule⟩

/-- Removing sides that no rule has changes nothing. -/
theorem Indexed.remove_absent (h : s.Indexed) {r : Rule W} (new : ∀ q ∈ s.rules, ¬q.SameSides r) :
    s.remove r = .ok (s, none) := by
  rw [remove, (h.position?_eq_none r).mpr new]

/-- Removing never fails; it leaves an indexed store with the rules that have other sides. -/
theorem Indexed.remove (h : s.Indexed) (r : Rule W) :
    ∃ t old, s.remove r = .ok (t, old) ∧ t.Indexed ∧
      ∀ q, q ∈ t.rules ↔ q ∈ s.rules ∧ ¬q.SameSides r := by
  by_cases there : ∃ q ∈ s.rules, q.SameSides r
  · obtain ⟨q, hq, same⟩ := there
    obtain ⟨id, hid⟩ := h.mem_rules.mp hq
    obtain ⟨t, ht, indexed, rule⟩ := h.remove_stored hid same
    refine ⟨t, some q, ht, indexed, fun p => ?_⟩
    rw [indexed.mem_rules, h.mem_rules]
    constructor
    · rintro ⟨j, hj⟩
      rw [rule] at hj
      split at hj
      · cases hj
      · next hne =>
        refine ⟨⟨j, hj⟩, fun same' => hne ?_⟩
        exact h.distinctSides _ _ _ _ hj hid (same'.trans same.symm)
    · rintro ⟨⟨j, hj⟩, other⟩
      refine ⟨j, ?_⟩
      rw [rule, if_neg, hj]
      rintro rfl
      rw [hid] at hj
      cases hj
      exact other same
  · have new : ∀ q ∈ s.rules, ¬q.SameSides r := fun q hq same => there ⟨q, hq, same⟩
    refine ⟨s, none, h.remove_absent new, h, fun q => ?_⟩
    exact ⟨fun hq => ⟨hq, new q hq⟩, And.left⟩

end Constituency.Store
