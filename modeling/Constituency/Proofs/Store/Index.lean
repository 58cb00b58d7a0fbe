import Constituency.Proofs.Rule.Comparison
import Constituency.Proofs.Sorted.Bisection
import Constituency.Store.Basic

/-!
# Stores in order

A store is listed when each of its two lists names every stored rule once and
nothing else, and indexed when both lists are in strict order besides. In an
indexed store the sides of a rule tell its number, so the rules are a finite map
from sides to kinds and weights. Every operation of the store keeps it indexed;
splitting long rules keeps it only listed until the store is renumbered.
-/

namespace Constituency.Store

variable {W : Type}

/-- A list of numbers names every stored rule once and nothing else. -/
structure Lists (s : Store W) (index : Array RuleNumber) : Prop where
  /-- No number occurs twice. -/
  nodup : index.toList.Nodup
  /-- The numbers are those of stored rules. -/
  mem : ∀ id, id ∈ index.toList ↔ (s.rule? id).isSome

/-- The rules that a list of numbers names stand in strict order. -/
def SortedBy (s : Store W) (order : Rule W → Rule W → Ordering) (index : Array RuleNumber) : Prop :=
  index.toList.Pairwise fun i j =>
    ∀ a b, s.rule? i = some a → s.rule? j = some b → order a b = .lt

/-- Both lists of a store name every stored rule once and nothing else. -/
structure Listed (s : Store W) : Prop where
  /-- The left list names the rules. -/
  left : s.Lists s.byLeft
  /-- The right list names the rules. -/
  right : s.Lists s.byRight

/-- Both lists of a store name its rules, each in its strict order. -/
structure Indexed (s : Store W) : Prop extends s.Listed where
  /-- The left list is in order. -/
  sortedLeft : s.SortedBy Rule.compareLeftFirst s.byLeft
  /-- The right list is in order. -/
  sortedRight : s.SortedBy Rule.compareRightFirst s.byRight

/-- No two numbers have rules with the same sides. -/
def DistinctSides (s : Store W) : Prop :=
  ∀ i j a b, s.rule? i = some a → s.rule? j = some b → a.SameSides b → i = j

/-- No stored rule has an empty right side. -/
def Filled (s : Store W) : Prop :=
  ∀ r ∈ s.rules, r.right ≠ []

/-- The empty store is indexed. -/
theorem indexed_empty : ({} : Store W).Indexed := by
  have lists : ({} : Store W).Lists #[] := ⟨.nil, fun _ => by simp [rule?]⟩
  exact ⟨⟨lists, lists⟩, .nil, .nil⟩

/-! ## Stored rules -/

/-- A stored rule has a number below the number of slots. -/
theorem lt_of_rule? {s : Store W} {id : RuleNumber} {r : Rule W} (h : s.rule? id = some r) :
    id < s.slots.size := by
  rw [rule?, Option.join_eq_some_iff] at h
  exact (Array.getElem?_eq_some_iff.mp h).1

/-- A number behind the slots has no rule. -/
theorem rule?_size (s : Store W) : s.rule? s.slots.size = none := by
  simp [rule?]

/-- The named rule is the one that the number has. -/
theorem rule_eq_ok {s : Store W} {id : RuleNumber} {r : Rule W} (h : s.rule? id = some r) :
    s.rule id = .ok r := by
  rw [rule, h]

/-- The rules behind a list that names them are the stored ones. -/
theorem Lists.mem_filterMap {s : Store W} {index : Array RuleNumber} (h : s.Lists index)
    {r : Rule W} : r ∈ index.toList.filterMap s.rule? ↔ ∃ id, s.rule? id = some r := by
  rw [List.mem_filterMap]
  constructor
  · rintro ⟨id, -, hid⟩
    exact ⟨id, hid⟩
  · rintro ⟨id, hid⟩
    exact ⟨id, (h.mem id).mpr (by rw [hid]; rfl), hid⟩

/-- The rules of a listed store are those with a number. -/
theorem Listed.mem_rules {s : Store W} (h : s.Listed) {r : Rule W} :
    r ∈ s.rules ↔ ∃ id, s.rule? id = some r :=
  h.left.mem_filterMap

/-- The right list has the same rules as the left one. -/
theorem Listed.mem_rulesByRight {s : Store W} (h : s.Listed) {r : Rule W} :
    r ∈ s.rulesByRight ↔ r ∈ s.rules := by
  rw [h.mem_rules]
  exact h.right.mem_filterMap

/-- In strict order, no two numbers have rules that the order ties. -/
theorem Lists.eq_of_tie {s : Store W} {order : Rule W → Rule W → Ordering}
    [Std.TransCmp order] {index : Array RuleNumber} (h : s.Lists index)
    (sorted : s.SortedBy order index) {i j : RuleNumber} {a b : Rule W} (hi : s.rule? i = some a)
    (hj : s.rule? j = some b) (tie : order a b = .eq) : i = j := by
  have memI : i ∈ index.toList := (h.mem i).mpr (by rw [hi]; rfl)
  have memJ : j ∈ index.toList := (h.mem j).mpr (by rw [hj]; rfl)
  obtain ⟨m, hm, rfl⟩ := List.getElem_of_mem memI
  obtain ⟨n, hn, rfl⟩ := List.getElem_of_mem memJ
  rcases Nat.lt_trichotomy m n with hlt | rfl | hgt
  · have := List.pairwise_iff_getElem.mp sorted m n hm hn hlt a b hi hj
    rw [tie] at this
    cases this
  · rfl
  · have back := List.pairwise_iff_getElem.mp sorted n m hn hm hgt b a hj hi
    rw [show order b a = (order a b).swap from Std.OrientedCmp.eq_swap, tie] at back
    cases back

/-- In an indexed store the sides of a rule tell its number. -/
theorem Indexed.distinctSides {s : Store W} (h : s.Indexed) : s.DistinctSides :=
  fun _ _ _ _ hi hj same =>
    h.left.eq_of_tie h.sortedLeft hi hj (Rule.compareLeftFirst_eq_eq.mpr same)

/-- Stored rules with the same sides are one rule. -/
theorem DistinctSides.eq {s : Store W} (h : s.DistinctSides) {i j : RuleNumber} {a b : Rule W}
    (hi : s.rule? i = some a) (hj : s.rule? j = some b) (same : a.SameSides b) : a = b := by
  have hij := h i j a b hi hj same
  subst hij
  exact Option.some.inj (hi.symm.trans hj)

/-- In an indexed store, rules with the same sides are one rule. -/
theorem Indexed.eq_of_sameSides {s : Store W} (h : s.Indexed) {a b : Rule W} (ha : a ∈ s.rules)
    (hb : b ∈ s.rules) (same : a.SameSides b) : a = b := by
  obtain ⟨i, hi⟩ := h.mem_rules.mp ha
  obtain ⟨j, hj⟩ := h.mem_rules.mp hb
  exact h.distinctSides.eq hi hj same

/-- A list in strict order lists rules in strict order. -/
theorem SortedBy.pairwise_rules {s : Store W} {order : Rule W → Rule W → Ordering}
    {index : Array RuleNumber} (sorted : s.SortedBy order index) :
    (index.toList.filterMap s.rule?).Pairwise fun a b => order a b = .lt :=
  List.Pairwise.filterMap s.rule? (fun _ _ hlt a ha b hb => hlt a b ha hb) sorted

/-- The rules of an indexed store differ in their sides. -/
theorem Indexed.pairwise_rules {s : Store W} (h : s.Indexed) :
    s.rules.Pairwise fun a b => ¬a.SameSides b := by
  refine h.sortedLeft.pairwise_rules.imp fun hlt same => ?_
  rw [Rule.compareLeftFirst_eq_eq.mpr same] at hlt
  cases hlt

/-- Rules on the right list differ in their sides. -/
theorem Indexed.pairwise_rulesByRight {s : Store W} (h : s.Indexed) :
    s.rulesByRight.Pairwise fun a b => ¬a.SameSides b := by
  refine h.sortedRight.pairwise_rules.imp fun hlt same => ?_
  rw [Rule.compareRightFirst_eq_eq.mpr same] at hlt
  cases hlt

/-- A list in strict order holds no rule twice. -/
theorem nodup_of_pairwise_lt {order : Rule W → Rule W → Ordering} [Std.TransCmp order]
    {rules : List (Rule W)} (sorted : rules.Pairwise fun a b => order a b = .lt) : rules.Nodup := by
  refine sorted.imp fun {a b} hlt heq => ?_
  have tie : order a a = .eq := Std.ReflCmp.compare_self
  rw [← heq, tie] at hlt
  cases hlt

/-- Lists in strict order with the same members are equal. -/
theorem eq_of_pairwise_lt {order : Rule W → Rule W → Ordering} [Std.TransCmp order]
    {rules more : List (Rule W)} (sorted : rules.Pairwise fun a b => order a b = .lt)
    (sortedMore : more.Pairwise fun a b => order a b = .lt) (same : ∀ r, r ∈ rules ↔ r ∈ more) :
    rules = more := by
  have antisymm : ∀ a b, order a b = .lt → order b a = .lt → a = b := fun a b hab hba =>
    absurd hba (Std.OrientedCmp.not_lt_of_lt hab)
  have perm : rules.Perm more :=
    (List.perm_ext_iff_of_nodup (nodup_of_pairwise_lt sorted)
      (nodup_of_pairwise_lt sortedMore)).mpr same
  exact perm.eq_of_pairwise (fun a b _ _ => antisymm a b) sorted sortedMore

/-- The left list of an indexed store holds no rule twice. -/
theorem Indexed.nodup_rules {s : Store W} (h : s.Indexed) : s.rules.Nodup :=
  nodup_of_pairwise_lt h.sortedLeft.pairwise_rules

/-- The right list of an indexed store holds the rules of the left one, each once. -/
theorem Indexed.perm_rulesByRight {s : Store W} (h : s.Indexed) : s.rulesByRight.Perm s.rules :=
  (List.perm_ext_iff_of_nodup (nodup_of_pairwise_lt h.sortedRight.pairwise_rules)
    h.nodup_rules).mpr fun _ => h.mem_rulesByRight

/-! ## Keys along the lists -/

/-- The comparison of a number is that of its rule. -/
theorem compareAt_of_rule? {s : Store W} {key : Rule W → Ordering} {id : RuleNumber} {r : Rule W}
    (h : s.rule? id = some r) : s.compareAt key id = key r := by
  rw [compareAt, h]

/-- A comparison other than greater is that of a stored rule. -/
theorem exists_rule_of_compareAt {s : Store W} {key : Rule W → Ordering} {id : RuleNumber}
    (h : s.compareAt key id ≠ .gt) : ∃ r, s.rule? id = some r ∧ key r = s.compareAt key id := by
  rw [compareAt] at h ⊢
  cases hr : s.rule? id with
  | none => simp [hr] at h
  | some r => exact ⟨r, rfl, rfl⟩

/-- A key that never steps back along an order never steps back along a list in that order. -/
theorem SortedBy.monotone {s : Store W} {order : Rule W → Rule W → Ordering}
    {index : Array RuleNumber} {key : Rule W → Ordering} (sorted : s.SortedBy order index)
    (lists : s.Lists index) (along : Rule.Along order key) :
    Sorted.Monotone (s.compareAt key) index.toList := by
  have pairs : index.toList.Pairwise fun i j =>
      ∃ a b, s.rule? i = some a ∧ s.rule? j = some b ∧ order a b = .lt := by
    refine List.Pairwise.imp_of_mem ?_ sorted
    intro i j hi hj hlt
    obtain ⟨a, ha⟩ := Option.isSome_iff_exists.mp ((lists.mem i).mp hi)
    obtain ⟨b, hb⟩ := Option.isSome_iff_exists.mp ((lists.mem j).mp hj)
    exact ⟨a, b, ha, hb, hlt a b ha hb⟩
  constructor
  · refine pairs.imp ?_
    rintro i j ⟨a, b, ha, hb, hlt⟩ later
    simp only [compareAt_of_rule? hb, compareAt_of_rule? ha, beq_iff_eq] at later ⊢
    exact along.below hlt later
  · refine pairs.imp ?_
    rintro i j ⟨a, b, ha, hb, hlt⟩ later
    simp only [compareAt_of_rule? hb, compareAt_of_rule? ha, bne_iff_ne] at later ⊢
    exact along.notAbove hlt later

/-- The numbers whose rules compare equal name the rules that compare equal. -/
theorem filterMap_filter_compareAt (s : Store W) (key : Rule W → Ordering)
    (ids : List RuleNumber) :
    (ids.filter (s.compareAt key · == .eq)).filterMap s.rule? =
      (ids.filterMap s.rule?).filter (key · == .eq) := by
  induction ids with
  | nil => rfl
  | cons id ids ih =>
    cases hr : s.rule? id with
    | none =>
      have hgt : s.compareAt key id = .gt := by rw [compareAt, hr]
      simp [hr, hgt, ih]
    | some r =>
      rw [List.filter_cons, compareAt_of_rule? hr, List.filterMap_cons, hr]
      by_cases heq : key r = .eq
      · simp [heq, hr, ih]
      · simp [heq, ih]

end Constituency.Store
