import Constituency.Proofs.Store.Lookup

/-!
# Changing a store

What each operation does to the rules by number, and that an indexed store stays
indexed. `add` stores a rule unless one with its sides is there, `remove` takes
away exactly the rule with the given sides, changes in place that keep all sides
keep the lists, and `renumber` puts any listed store with distinct sides back in
order.
-/

namespace Constituency

namespace Rule

variable {W V : Type}

/-- Both sides of a rule. -/
def sides (r : Rule W) : Symbol × List Symbol :=
  (r.left, r.right)

/-- A rule is told by its sides, its kind and its weight. -/
theorem eq_of_sides {q r : Rule W} (sides : q.sides = r.sides) (kind : q.kind = r.kind)
    (weight : q.weight = r.weight) : q = r := by
  obtain ⟨left, right⟩ := Prod.mk.inj sides
  cases q
  cases r
  cases left
  cases right
  cases kind
  cases weight
  rfl

end Rule

namespace Store

variable {W V : Type} {s : Store W}

/-! ## Changes in place -/

/-- A change that keeps the lists and the sides behind every number keeps the store indexed. -/
theorem Indexed.of_sides {t : Store V} (h : s.Indexed) (left : t.byLeft = s.byLeft)
    (right : t.byRight = s.byRight)
    (sides : ∀ id, (t.rule? id).map Rule.sides = (s.rule? id).map Rule.sides) : t.Indexed := by
  have live : ∀ id, (t.rule? id).isSome = (s.rule? id).isSome := by
    intro id
    have := congrArg Option.isSome (sides id)
    rwa [Option.isSome_map, Option.isSome_map] at this
  have source : ∀ {id a}, t.rule? id = some a → ∃ b, s.rule? id = some b ∧ b.sides = a.sides := by
    intro id a ha
    have := sides id
    rw [ha, Option.map_some, eq_comm, Option.map_eq_some_iff] at this
    exact this
  constructor
  · constructor
    · exact ⟨left ▸ h.left.nodup, fun id => by rw [live, left]; exact h.left.mem id⟩
    · exact ⟨right ▸ h.right.nodup, fun id => by rw [live, right]; exact h.right.mem id⟩
  · rw [SortedBy, left]
    refine h.sortedLeft.imp fun hlt a b ha hb => ?_
    obtain ⟨a', ha', same⟩ := source ha
    obtain ⟨b', hb', same'⟩ := source hb
    obtain ⟨hal, har⟩ := Prod.mk.inj same
    obtain ⟨hbl, hbr⟩ := Prod.mk.inj same'
    have := hlt a' b' ha' hb'
    rwa [Rule.compareLeftFirst, Rule.compareLeft, Rule.compareRight, hal, har, hbl, hbr] at this
  · rw [SortedBy, right]
    refine h.sortedRight.imp fun hlt a b ha hb => ?_
    obtain ⟨a', ha', same⟩ := source ha
    obtain ⟨b', hb', same'⟩ := source hb
    obtain ⟨hal, har⟩ := Prod.mk.inj same
    obtain ⟨hbl, hbr⟩ := Prod.mk.inj same'
    have := hlt a' b' ha' hb'
    rwa [Rule.compareRightFirst, Rule.compareLeft, Rule.compareRight, hal, har, hbl, hbr] at this

/-- Changing every rule changes the rule behind each number. -/
theorem rule?_mapRules (s : Store W) (f : Rule W → Rule W) (id : RuleNumber) :
    (s.mapRules f).rule? id = (s.rule? id).map f := by
  simp only [rule?, mapRules, Array.getElem?_map]
  cases s.slots[id]? with
  | none => rfl
  | some slot => rfl

/-- Changing rules without their sides keeps a store indexed. -/
theorem Indexed.mapRules (h : s.Indexed) {f : Rule W → Rule W} (hf : ∀ r, (f r).sides = r.sides) :
    (s.mapRules f).Indexed := by
  refine h.of_sides rfl rfl fun id => ?_
  rw [rule?_mapRules, Option.map_map]
  exact congrFun (congrArg Option.map (funext hf)) _

/-- The rules after a change of every rule. -/
theorem rules_mapRules (s : Store W) (f : Rule W → Rule W) :
    (s.mapRules f).rules = s.rules.map f := by
  have hfun : (s.mapRules f).rule? = fun id => (s.rule? id).map f := funext (rule?_mapRules s f)
  rw [rules, hfun, rules, List.map_filterMap]
  rfl

/-- Changing the weight behind one number leaves the other rules alone. -/
theorem rule?_modifyWeight (s : Store W) (id : RuleNumber) (f : W → W) (j : RuleNumber) :
    (s.modifyWeight id f).rule? j =
      (s.rule? j).map fun r => if j = id then { r with weight := f r.weight } else r := by
  simp only [rule?, modifyWeight, Array.getElem?_modify]
  by_cases hj : j = id
  · subst hj
    rw [if_pos rfl]
    cases hslot : s.slots[j]? with
    | none => rfl
    | some slot => cases slot <;> simp
  · rw [if_neg (Ne.symm hj)]
    simp [hj]

/-- Changing a weight keeps a store indexed. -/
theorem Indexed.modifyWeight (h : s.Indexed) (id : RuleNumber) (f : W → W) :
    (s.modifyWeight id f).Indexed := by
  refine h.of_sides rfl rfl fun j => ?_
  rw [rule?_modifyWeight, Option.map_map]
  congr 1
  funext r
  simp only [Function.comp_apply]
  split <;> rfl

/-- A rule of a store with a changed weight was stored before, perhaps with another weight. -/
theorem Indexed.exists_of_mem_modifyWeight (h : s.Indexed) {id : RuleNumber}
    {f : W → W} {q : Rule W} (hq : q ∈ (s.modifyWeight id f).rules) :
    ∃ p ∈ s.rules, ∃ weight, q = { p with weight } := by
  obtain ⟨j, hj⟩ := (h.modifyWeight id f).mem_rules.mp hq
  rw [rule?_modifyWeight] at hj
  obtain ⟨p, hp, rfl⟩ := Option.map_eq_some_iff.mp hj
  refine ⟨p, h.mem_rules.mpr ⟨j, hp⟩, ?_⟩
  by_cases changed : j = id
  · exact ⟨f p.weight, by rw [if_pos changed]⟩
  · exact ⟨p.weight, by rw [if_neg changed]⟩

/-! ## Storing one rule more -/

/-- A new rule gets the next number, and the others keep theirs. -/
theorem rule?_push {s t : Store W} {r : Rule W} (slots : t.slots = s.slots.push (some r))
    (id : RuleNumber) : t.rule? id = if id = s.slots.size then some r else s.rule? id := by
  rw [rule?, slots, Array.getElem?_push]
  split <;> rfl

/-- A list with the new number in it names the rules and the new one. -/
theorem Lists.of_push {t : Store W} {r : Rule W} {index extended : Array RuleNumber}
    (h : s.Lists index) (slots : t.slots = s.slots.push (some r))
    (perm : extended.toList.Perm (s.slots.size :: index.toList)) : t.Lists extended := by
  have fresh : s.slots.size ∉ index.toList := by
    rw [h.mem, rule?_size]
    exact Bool.false_ne_true
  refine ⟨perm.nodup_iff.mpr (List.nodup_cons.mpr ⟨fresh, h.nodup⟩), fun id => ?_⟩
  rw [perm.mem_iff, List.mem_cons, h.mem, rule?_push slots]
  by_cases hid : id = s.slots.size <;> simp [hid]

/-- Behind the numbers of a list, a new rule changes nothing. -/
theorem rule?_push_of_mem {t : Store W} {r : Rule W} {index : Array RuleNumber} (h : s.Lists index)
    (slots : t.slots = s.slots.push (some r)) {id : RuleNumber} (mem : id ∈ index.toList) :
    t.rule? id = s.rule? id := by
  rw [rule?_push slots, if_neg]
  rintro rfl
  rw [h.mem, rule?_size] at mem
  cases mem

/-- The place of insertion cuts a list into what is before the new rule and what is not. -/
theorem toList_insertAt {order : Rule W → Rule W → Ordering} [Std.TransCmp order]
    {index : Array RuleNumber} (h : s.Lists index) (sorted : s.SortedBy order index) (r : Rule W)
    (id : RuleNumber) :
    (s.insertAt (order · r) index id).toList =
      index.toList.filter (s.compareAt (order · r) · == .lt) ++
        id :: index.toList.filter (fun j => !(s.compareAt (order · r) j == .lt)) := by
  have leading := (sorted.monotone h (Rule.along_self order r)).less
  obtain ⟨before, behind⟩ := Sorted.take_drop_lowerBound leading
  have hle := (Sorted.lowerBound_cut leading).1
  rw [← before, ← behind, insertAt, Array.insertIdxIfInBounds, dif_pos hle, Array.toList_insertIdx,
    Sorted.insertIdx_eq_take_drop (by simpa using hle)]

/-- Inserting a rule whose sides are new keeps a list in order. -/
theorem SortedBy.insertAt {order : Rule W → Rule W → Ordering} [Std.TransCmp order]
    (ties : ∀ {a b}, order a b = .eq → a.SameSides b) {index : Array RuleNumber}
    (h : s.Lists index) (sorted : s.SortedBy order index) {r : Rule W}
    (new : ∀ id q, s.rule? id = some q → ¬q.SameSides r) {t : Store W}
    (slots : t.slots = s.slots.push (some r)) :
    t.SortedBy order (s.insertAt (order · r) index s.slots.size) := by
  have at_size : t.rule? s.slots.size = some r := by rw [rule?_push slots, if_pos rfl]
  have keeps : ∀ {id}, id ∈ index.toList → t.rule? id = s.rule? id := rule?_push_of_mem h slots
  have old : t.SortedBy order index := by
    refine List.Pairwise.imp_of_mem ?_ sorted
    intro i j hi hj hlt a b ha hb
    exact hlt a b (keeps hi ▸ ha) (keeps hj ▸ hb)
  rw [SortedBy, toList_insertAt h sorted, List.pairwise_append, List.pairwise_cons]
  refine ⟨old.filter _, ⟨?_, old.filter _⟩, ?_⟩
  -- the new rule comes before those that do not compare less to it
  · intro j hj a b ha hb
    obtain ⟨hmem, hnot⟩ := List.mem_filter.mp hj
    rw [at_size] at ha
    cases ha
    rw [keeps hmem] at hb
    rw [compareAt_of_rule? hb] at hnot
    have hne : order b r ≠ .eq := fun heq => new j b hb (ties heq)
    rw [show order r b = (order b r).swap from Std.OrientedCmp.eq_swap]
    cases hc : order b r with
    | lt => simp [hc] at hnot
    | eq => exact absurd hc hne
    | gt => rfl
  · intro i hi j hj a b ha hb
    obtain ⟨hmem, hless⟩ := List.mem_filter.mp hi
    rw [keeps hmem] at ha
    rw [compareAt_of_rule? ha, beq_iff_eq] at hless
    rcases List.mem_cons.mp hj with rfl | hj
    · rw [at_size] at hb
      cases hb
      exact hless
    -- an old rule before the new one, and one that is not: the old order decides
    · obtain ⟨hmem', hnot⟩ := List.mem_filter.mp hj
      rw [keeps hmem'] at hb
      rw [compareAt_of_rule? hb] at hnot
      have hge : (order r b).isLE := by
        rw [show order r b = (order b r).swap from Std.OrientedCmp.eq_swap]
        cases hc : order b r with
        | lt => simp [hc] at hnot
        | eq => rfl
        | gt => rfl
      exact Std.TransCmp.lt_of_lt_of_isLE hless hge

/-- A rule with sides that are there already is not stored again. -/
theorem add_of_isSome {r : Rule W} (h : (s.position? r.left r.right).isSome) :
    s.add r = (s, false) := by
  rw [add]
  cases hp : s.position? r.left r.right with
  | none => rw [hp] at h; cases h
  | some i => rfl

/-- The slots after storing a rule with new sides. -/
theorem slots_add {r : Rule W} (h : s.position? r.left r.right = none) :
    (s.add r).1.slots = s.slots.push (some r) := by
  rw [add, h]

/-- Storing a rule keeps a store indexed. -/
theorem Indexed.add (h : s.Indexed) (r : Rule W) : (s.add r).1.Indexed := by
  cases hp : s.position? r.left r.right with
  | some i =>
    rw [add_of_isSome (by rw [hp]; rfl)]
    exact h
  | none =>
    have slots := slots_add hp
    have new : ∀ id q, s.rule? id = some q → ¬q.SameSides r := fun id q hq =>
      (h.position?_eq_none r).mp hp q (h.mem_rules.mpr ⟨id, hq⟩)
    have perm : ∀ (order : Rule W → Rule W → Ordering) [Std.TransCmp order]
        {index : Array RuleNumber}, s.Lists index → s.SortedBy order index →
        (s.insertAt (order · r) index s.slots.size).toList.Perm
          (s.slots.size :: index.toList) := by
      intro order _ index lists sorted
      rw [toList_insertAt lists sorted]
      exact List.perm_middle.trans ((List.filter_append_perm _ _).cons _)
    have left : (s.add r).1.byLeft =
        s.insertAt (·.compareLeftFirst r) s.byLeft s.slots.size := by rw [Store.add, hp]
    have right : (s.add r).1.byRight =
        s.insertAt (·.compareRightFirst r) s.byRight s.slots.size := by rw [Store.add, hp]
    constructor
    · constructor
      · exact h.left.of_push slots (left ▸ perm Rule.compareLeftFirst h.left h.sortedLeft)
      · exact h.right.of_push slots (right ▸ perm Rule.compareRightFirst h.right h.sortedRight)
    · rw [left]
      exact SortedBy.insertAt Rule.compareLeftFirst_eq_eq.mp h.left h.sortedLeft new slots
    · rw [right]
      exact SortedBy.insertAt Rule.compareRightFirst_eq_eq.mp h.right h.sortedRight new slots

/-- Numbers with a rule keep it when another rule is stored. -/
theorem rule?_add_of_eq_some {r q : Rule W} {id : RuleNumber} (h : s.rule? id = some q) :
    (s.add r).1.rule? id = some q := by
  cases hp : s.position? r.left r.right with
  | some i =>
    rw [add_of_isSome (by rw [hp]; rfl)]
    exact h
  | none =>
    rw [rule?_push (slots_add hp), if_neg (Nat.ne_of_lt (lt_of_rule? h)), h]

/-- The rules after storing one: a rule is new only when its sides are. -/
theorem Indexed.mem_rules_add (h : s.Indexed) {r q : Rule W} :
    q ∈ (s.add r).1.rules ↔ q ∈ s.rules ∨ (q = r ∧ ∀ p ∈ s.rules, ¬p.SameSides r) := by
  cases hp : s.position? r.left r.right with
  | some i =>
    obtain ⟨id, p, -, hpid, same⟩ := rule_of_position? hp
    rw [add_of_isSome (by rw [hp]; rfl)]
    constructor
    · exact Or.inl
    · rintro (hq | ⟨-, none⟩)
      · exact hq
      · exact absurd same (none p (h.mem_rules.mpr ⟨id, hpid⟩))
  | none =>
    have new := (h.position?_eq_none r).mp hp
    rw [(h.add r).mem_rules, h.mem_rules]
    constructor
    · rintro ⟨id, hid⟩
      rw [rule?_push (slots_add hp)] at hid
      split at hid
      · cases hid
        exact Or.inr ⟨rfl, new⟩
      · exact Or.inl ⟨id, hid⟩
    · rintro (⟨id, hid⟩ | ⟨rfl, -⟩)
      · exact ⟨id, rule?_add_of_eq_some hid⟩
      · exact ⟨s.slots.size, by rw [rule?_push (slots_add hp), if_pos rfl]⟩

/-- Storing a list of rules keeps a store indexed. -/
theorem Indexed.addAll (h : s.Indexed) (rules : List (Rule W)) : (s.addAll rules).Indexed := by
  induction rules generalizing s with
  | nil => exact h
  | cons r rules ih => exact ih (h.add r)

/-- Numbers with a rule keep it when a list of rules is stored. -/
theorem rule?_addAll_of_eq_some {rules : List (Rule W)} {q : Rule W} {id : RuleNumber}
    (h : s.rule? id = some q) : (s.addAll rules).rule? id = some q := by
  induction rules generalizing s with
  | nil => exact h
  | cons r rules ih => exact ih (rule?_add_of_eq_some h)

/-- The rules after storing a list of rules that differ in their sides: those of the list whose
sides were new are there besides. -/
theorem Indexed.mem_rules_addAll (h : s.Indexed) {rules : List (Rule W)}
    (apart : rules.Pairwise fun a b => ¬a.SameSides b) {q : Rule W} :
    q ∈ (s.addAll rules).rules ↔
      q ∈ s.rules ∨ (q ∈ rules ∧ ∀ p ∈ s.rules, ¬p.SameSides q) := by
  induction rules generalizing s with
  | nil => simp [Store.addAll]
  | cons r rules ih =>
    obtain ⟨first, apart⟩ := List.pairwise_cons.mp apart
    have step := ih (h.add r) apart
    rw [show s.addAll (r :: rules) = (s.add r).1.addAll rules from rfl, step, h.mem_rules_add]
    constructor
    · rintro ((hq | ⟨rfl, new⟩) | ⟨hq, new⟩)
      · exact Or.inl hq
      · exact Or.inr ⟨List.mem_cons_self, new⟩
      · exact Or.inr ⟨List.mem_cons_of_mem r hq, fun p hp =>
          new p (h.mem_rules_add.mpr (Or.inl hp))⟩
    · rintro (hq | ⟨hq, new⟩)
      · exact Or.inl (Or.inl hq)
      · rcases List.mem_cons.mp hq with rfl | later
        · exact Or.inl (Or.inr ⟨rfl, new⟩)
        · refine Or.inr ⟨later, fun p hp => ?_⟩
          rcases h.mem_rules_add.mp hp with hp | ⟨rfl, -⟩
          · exact new p hp
          · exact first q later

end Store

end Constituency
