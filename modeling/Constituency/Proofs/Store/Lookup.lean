import Constituency.Proofs.Store.Index
import Constituency.Store.Lookup

/-!
# Lookups are filters

In an indexed store a lookup by left symbol or by right side gives exactly the
rules with that side, in the order of the list it searches, and a search by both
sides finds the rule whenever there is one.
-/

namespace Constituency.Store

variable {W : Type} {s : Store W}

/-- The numbers found by left symbol are those on the left list whose rules have it. -/
theorem Indexed.idsWithLeft_eq (h : s.Indexed) (left : Symbol) :
    s.idsWithLeft left = s.byLeft.toList.filter (s.compareAt (compare ·.left left) · == .eq) :=
  Sorted.toList_run (h.sortedLeft.monotone h.left (Rule.along_left left))

/-- The numbers found by right side are those on the right list whose rules have it. -/
theorem Indexed.idsWithRight_eq (h : s.Indexed) (right : List Symbol) :
    s.idsWithRight right = s.byRight.toList.filter (s.compareAt (compare ·.right right) · == .eq) :=
  Sorted.toList_run (h.sortedRight.monotone h.right (Rule.along_right right))

/-- Looking up a left symbol filters the rules by it. -/
theorem Indexed.withLeft_eq (h : s.Indexed) (left : Symbol) :
    s.withLeft left = s.rules.filter (·.left == left) := by
  rw [withLeft, h.idsWithLeft_eq, filterMap_filter_compareAt]
  exact List.filter_congr fun r _ => (beq_eq_compare r.left left).symm

/-- Looking up a right side filters the rules by it. -/
theorem Indexed.withRight_eq (h : s.Indexed) (right : List Symbol) :
    s.withRight right = s.rulesByRight.filter (·.right == right) := by
  rw [withRight, h.idsWithRight_eq, filterMap_filter_compareAt]
  exact List.filter_congr fun r _ => (beq_eq_compare r.right right).symm

/-- A key ties a number exactly when the number has a rule that the key ties. -/
theorem compareAt_eq_eq {key : Rule W → Ordering} {id : RuleNumber} :
    s.compareAt key id = .eq ↔ ∃ r, s.rule? id = some r ∧ key r = .eq := by
  constructor
  · intro heq
    have notAbove : s.compareAt key id ≠ .gt := by rw [heq]; decide
    obtain ⟨r, hr, hkey⟩ := exists_rule_of_compareAt notAbove
    exact ⟨r, hr, hkey.trans heq⟩
  · rintro ⟨r, hr, hkey⟩
    rw [compareAt_of_rule? hr, hkey]

/-- The numbers found by left symbol are those of the rules that have it. -/
theorem Indexed.mem_idsWithLeft (h : s.Indexed) {left : Symbol} {id : RuleNumber} :
    id ∈ s.idsWithLeft left ↔ ∃ r, s.rule? id = some r ∧ r.left = left := by
  rw [h.idsWithLeft_eq, List.mem_filter, beq_iff_eq, compareAt_eq_eq, h.left.mem]
  simp only [Std.LawfulEqCmp.compare_eq_iff_eq]
  constructor
  · exact And.right
  · rintro ⟨r, hr, hleft⟩
    exact ⟨by rw [hr]; rfl, r, hr, hleft⟩

/-- The numbers found by right side are those of the rules that have it. -/
theorem Indexed.mem_idsWithRight (h : s.Indexed) {right : List Symbol} {id : RuleNumber} :
    id ∈ s.idsWithRight right ↔ ∃ r, s.rule? id = some r ∧ r.right = right := by
  rw [h.idsWithRight_eq, List.mem_filter, beq_iff_eq, compareAt_eq_eq, h.right.mem]
  simp only [Std.LawfulEqCmp.compare_eq_iff_eq]
  constructor
  · exact And.right
  · rintro ⟨r, hr, hright⟩
    exact ⟨by rw [hr]; rfl, r, hr, hright⟩

/-- The numbers found by right side are found once each. -/
theorem Indexed.nodup_idsWithRight (h : s.Indexed) (right : List Symbol) :
    (s.idsWithRight right).Nodup := by
  rw [h.idsWithRight_eq]
  exact h.right.nodup.filter _

/-- The rules found by left symbol are the stored ones that have it. -/
theorem Indexed.mem_withLeft (h : s.Indexed) {left : Symbol} {r : Rule W} :
    r ∈ s.withLeft left ↔ r ∈ s.rules ∧ r.left = left := by
  rw [h.withLeft_eq, List.mem_filter, beq_iff_eq]

/-- The rules found by right side are the stored ones that have it. -/
theorem Indexed.mem_withRight (h : s.Indexed) {right : List Symbol} {r : Rule W} :
    r ∈ s.withRight right ↔ r ∈ s.rules ∧ r.right = right := by
  rw [h.withRight_eq, List.mem_filter, beq_iff_eq, h.mem_rulesByRight]

/-- The rules for a word are the stored ones of that kind and right side. -/
theorem Indexed.mem_wordRules (h : s.Indexed) {word : Symbol} {r : Rule W} :
    r ∈ s.wordRules word ↔ r ∈ s.rules ∧ r.right = [word] ∧ r.kind = .terminal := by
  rw [wordRules, List.mem_filter, h.mem_withRight, beq_iff_eq, and_assoc]

/-- Rules found by right side differ in their left symbols. -/
theorem Indexed.nodup_left_withRight (h : s.Indexed) (right : List Symbol) :
    ((s.withRight right).map Rule.left).Nodup := by
  rw [List.nodup_iff_pairwise_ne, List.pairwise_map, h.withRight_eq]
  have apart := h.pairwise_rulesByRight.filter (·.right == right)
  refine List.Pairwise.imp_of_mem ?_ apart
  intro a b ha hb hne hleft
  have hra := beq_iff_eq.mp (List.mem_filter.mp ha).2
  have hrb := beq_iff_eq.mp (List.mem_filter.mp hb).2
  exact hne ⟨hleft, hra.trans hrb.symm⟩

/-- Numbers that all have rules have the rules that they have. -/
theorem map_rule?_of_live {ids : List RuleNumber} (live : ∀ id ∈ ids, ∃ r, s.rule? id = some r) :
    ids.map s.rule? = (ids.filterMap s.rule?).map some := by
  induction ids with
  | nil => rfl
  | cons id ids ih =>
    obtain ⟨r, hr⟩ := live id List.mem_cons_self
    rw [List.map_cons, List.filterMap_cons, hr, List.map_cons,
      ih fun j hj => live j (List.mem_cons_of_mem _ hj)]

/-- The numbers found by left symbol have the rules found by left symbol. -/
theorem Indexed.map_rule?_idsWithLeft (h : s.Indexed) (left : Symbol) :
    (s.idsWithLeft left).map s.rule? = (s.withLeft left).map some := by
  refine map_rule?_of_live fun id hid => ?_
  obtain ⟨r, hr, -⟩ := h.mem_idsWithLeft.mp hid
  exact ⟨r, hr⟩

/-- The numbers found by right side have the rules found by right side. -/
theorem Indexed.map_rule?_idsWithRight (h : s.Indexed) (right : List Symbol) :
    (s.idsWithRight right).map s.rule? = (s.withRight right).map some := by
  refine map_rule?_of_live fun id hid => ?_
  obtain ⟨r, hr, -⟩ := h.mem_idsWithRight.mp hid
  exact ⟨r, hr⟩

/-- Rules found by left symbol differ in their sides. -/
theorem Indexed.pairwise_withLeft (h : s.Indexed) (left : Symbol) :
    (s.withLeft left).Pairwise fun a b => ¬a.SameSides b := by
  rw [h.withLeft_eq]
  exact h.pairwise_rules.filter _

/-! ## Searching by both sides -/

/-- A place that is found has the number of a rule with the sides. -/
theorem rule_of_position? {left : Symbol} {right : List Symbol} {i : Nat}
    (h : s.position? left right = some i) :
    ∃ id r, s.byLeft[i]? = some id ∧ s.rule? id = some r ∧ r.left = left ∧ r.right = right := by
  obtain ⟨id, hid, heq⟩ := Sorted.compare_of_position? h
  obtain ⟨r, hr, hkey⟩ := compareAt_eq_eq.mp heq
  rw [Ordering.then_eq_eq, Std.LawfulEqCmp.compare_eq_iff_eq, Std.LawfulEqCmp.compare_eq_iff_eq]
    at hkey
  exact ⟨id, r, hid, hr, hkey⟩

/-- A place is found whenever a rule has the sides. -/
theorem Indexed.isSome_position? (h : s.Indexed) {r : Rule W} (hr : r ∈ s.rules) :
    (s.position? r.left r.right).isSome := by
  obtain ⟨id, hid⟩ := h.mem_rules.mp hr
  have along := Rule.along_self Rule.compareLeftFirst r
  have mem : id ∈ s.byLeft.toList := (h.left.mem id).mpr (by rw [hid]; rfl)
  have tie : s.compareAt (·.compareLeftFirst r) id = .eq := by
    rw [compareAt_of_rule? hid]
    exact Rule.compareLeftFirst_eq_eq.mpr (.refl r)
  exact Sorted.isSome_position? (h.sortedLeft.monotone h.left along) mem tie

/-- No place is found exactly when no rule has the sides. -/
theorem Indexed.position?_eq_none (h : s.Indexed) (r : Rule W) :
    s.position? r.left r.right = none ↔ ∀ q ∈ s.rules, ¬q.SameSides r := by
  constructor
  · intro hnone q hq same
    have := h.isSome_position? hq
    rw [same.1, same.2, hnone] at this
    cases this
  · intro hall
    cases hp : s.position? r.left r.right with
    | none => rfl
    | some i =>
      obtain ⟨id, q, -, hq, hsame⟩ := rule_of_position? hp
      exact absurd hsame (hall q (h.mem_rules.mpr ⟨id, hq⟩))

/-- A search that finds a rule finds the stored one with the sides. -/
theorem Indexed.withSides?_eq_some (h : s.Indexed) {left : Symbol} {right : List Symbol}
    {r : Rule W} :
    s.withSides? left right = some r ↔ r ∈ s.rules ∧ r.left = left ∧ r.right = right := by
  rw [withSides?, search, Option.bind_eq_some_iff]
  simp only [Option.bind_eq_some_iff]
  constructor
  · rintro ⟨id, ⟨i, hi, hid⟩, hr⟩
    obtain ⟨id', q, hid', hq, hsides⟩ := rule_of_position? hi
    rw [hid] at hid'
    cases hid'
    rw [hr] at hq
    cases hq
    exact ⟨h.mem_rules.mpr ⟨id, hr⟩, hsides⟩
  · rintro ⟨hr, rfl, rfl⟩
    obtain ⟨i, hi⟩ := Option.isSome_iff_exists.mp (h.isSome_position? hr)
    obtain ⟨id, q, hid, hq, hsides⟩ := rule_of_position? hi
    have hqr : q = r := h.eq_of_sameSides (h.mem_rules.mpr ⟨id, hq⟩) hr hsides
    exact ⟨id, ⟨i, hi, hid⟩, hqr ▸ hq⟩

end Constituency.Store
