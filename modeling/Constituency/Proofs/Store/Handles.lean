import Constituency.Proofs.Store.FiniteMap

/-!
# Numbers as handles

A number that a search found stays the number of its rule for as long as no request
removes the sides of the rule, whatever else is asked in between. Once they are
removed, the number is empty and stays so: a rule that is stored later gets a number
that was never used, also when it has the sides of the old one. So one number never
stands for two rules with different sides.
-/

namespace Constituency.Store

variable {W : Type} {s t : Store W}

/-! ## Searching -/

/-- A search finds the number of the rule with the sides. -/
theorem Indexed.search_eq_some (h : s.Indexed) {left : Symbol} {right : List Symbol}
    {id : RuleNumber} :
    s.search left right = some id ↔ ∃ r, s.rule? id = some r ∧ r.left = left ∧ r.right = right := by
  rw [search, Option.bind_eq_some_iff]
  constructor
  · rintro ⟨i, place, at_place⟩
    obtain ⟨id', r, at_place', found⟩ := rule_of_position? place
    rw [at_place, Option.some_inj] at at_place'
    exact at_place' ▸ ⟨r, found⟩
  · rintro ⟨r, hr, rfl, rfl⟩
    obtain ⟨i, place⟩ :=
      Option.isSome_iff_exists.mp (h.isSome_position? (h.mem_rules.mpr ⟨id, hr⟩))
    obtain ⟨id', q, at_place, hq, same⟩ := rule_of_position? place
    have number : id' = id := h.distinctSides _ _ _ _ hq hr same
    exact ⟨i, place, number ▸ at_place⟩

/-- A number resolves to the rule behind it. -/
theorem rule_eq_ok_iff {id : RuleNumber} {r : Rule W} :
    s.rule id = .ok r ↔ s.rule? id = some r := by
  refine ⟨fun resolved => ?_, rule_eq_ok⟩
  rw [rule] at resolved
  split at resolved
  · rename_i q found
    rw [found, Except.ok.inj resolved]
  · cases resolved

/-- A number without a rule cannot be resolved. -/
theorem rule_eq_error {id : RuleNumber} (h : s.rule? id = none) :
    s.rule id = .error .noSuchRule := by
  rw [rule, h]

/-! ## Later states -/

/-- The sides and the weight of the rule with a number. -/
def record? (s : Store W) (id : RuleNumber) : Option ((Symbol × List Symbol) × W) :=
  (s.rule? id).map fun r => (r.sides, r.weight)

/-- A rule with its number makes the record of that number. -/
theorem record?_eq_some {id : RuleNumber} {sides : Symbol × List Symbol} {weight : W} :
    s.record? id = some (sides, weight) ↔ ∃ r, s.rule? id = some r ∧ r.sides = sides ∧
      r.weight = weight := by
  rw [record?, Option.map_eq_some_iff]
  simp only [Prod.mk.injEq]

/-- A later state of a store: numbers that were given are neither filled nor changed, and those are
emptied whose sides are gone. -/
structure Later (s : Store W) (gone : List (Symbol × List Symbol)) (t : Store W) : Prop where
  /-- Numbers are never taken back. -/
  size : s.slots.size ≤ t.slots.size
  /-- The records are those from before whose sides are not gone. -/
  record : ∀ id < s.slots.size, t.record? id = (s.record? id).filter fun e => decide (e.1 ∉ gone)

section Filter

variable {gone : List (Symbol × List Symbol)} {sides : Symbol × List Symbol} (weight : W)

/-- A record passes when its sides are not gone. -/
theorem filter_record_of_not_mem (h : sides ∉ gone) :
    (some (sides, weight)).filter (fun e => decide (e.1 ∉ gone)) = some (sides, weight) :=
  Option.filter_some_pos (decide_eq_true h)

/-- A record does not pass when its sides are gone. -/
theorem filter_record_of_mem (h : sides ∈ gone) :
    (some (sides, weight)).filter (fun e => decide (e.1 ∉ gone)) = none :=
  Option.filter_some_neg (Bool.not_eq_true _ ▸ decide_eq_false (not_not_intro h))

end Filter

namespace Later

variable {m : Store W} {gone more : List (Symbol × List Symbol)}

/-- Where nothing is gone, equal records make a later state. -/
theorem of_record (size : s.slots.size ≤ t.slots.size)
    (record : ∀ id < s.slots.size, t.record? id = s.record? id) : s.Later [] t := by
  refine ⟨size, fun id inside => ?_⟩
  rw [record id inside]
  cases s.record? id with
  | none => rfl
  | some e => exact (filter_record_of_not_mem e.2 List.not_mem_nil).symm

/-- A state later than a later state is later, and what is gone adds up. -/
theorem trans (first : s.Later gone m) (second : m.Later more t) : s.Later (gone ++ more) t := by
  refine ⟨Nat.le_trans first.size second.size, fun id inside => ?_⟩
  rw [second.record id (Nat.lt_of_lt_of_le inside first.size), first.record id inside,
    Option.filter_filter]
  congr 1
  funext e
  simp only [List.mem_append, not_or, Bool.decide_and]

/-- A number keeps its sides and weight where these are not gone. -/
theorem kept (h : s.Later gone t) {id : RuleNumber} {r : Rule W} (hr : s.rule? id = some r)
    (stays : r.sides ∉ gone) : ∃ kind, t.rule? id = some { r with kind } := by
  have record : t.record? id = some (r.sides, r.weight) := by
    rw [h.record id (lt_of_rule? hr), record?, hr, Option.map_some,
      filter_record_of_not_mem _ stays]
  obtain ⟨q, hq, sides, weight⟩ := record?_eq_some.mp record
  exact ⟨q.kind, hq.trans (congrArg some (Rule.eq_of_sides sides rfl weight))⟩

/-- A number is empty where its sides are gone. -/
theorem emptied (h : s.Later gone t) {id : RuleNumber} {r : Rule W} (hr : s.rule? id = some r)
    (leaves : r.sides ∈ gone) : t.rule? id = none := by
  have record : t.record? id = none := by
    rw [h.record id (lt_of_rule? hr), record?, hr, Option.map_some, filter_record_of_mem _ leaves]
  rwa [record?, Option.map_eq_none_iff] at record

/-- A rule that has an old number has the sides from before. -/
theorem sides_eq (h : s.Later gone t) {id : RuleNumber} {r q : Rule W} (hr : s.rule? id = some r)
    (hq : t.rule? id = some q) : q.sides = r.sides := by
  have record := h.record id (lt_of_rule? hr)
  rw [record?, record?, hr, hq, Option.map_some, Option.map_some, eq_comm,
    Option.filter_eq_some_iff] at record
  exact (congrArg Prod.fst (Option.some_inj.mp record.1)).symm

end Later

/-! ## What requests do to numbers -/

/-- The sides that a request removes. -/
def Request.removed : Request W → List (Symbol × List Symbol)
  | .remove r => [r.sides]
  | _ => []

/-- The sides that requests remove are those of the rules that they ask to remove. -/
theorem Request.mem_removed {requests : List (Request W)} {sides : Symbol × List Symbol} :
    sides ∈ requests.flatMap removed ↔ ∃ q, .remove q ∈ requests ∧ q.sides = sides := by
  rw [List.mem_flatMap]
  constructor
  · rintro ⟨request, asked, removes⟩
    cases request with
    | remove q => exact ⟨q, asked, (List.mem_singleton.mp removes).symm⟩
    | _ => cases removes
  · rintro ⟨q, asked, rfl⟩
    exact ⟨.remove q, asked, List.mem_singleton_self _⟩

/-- Whether a request stores a rule. -/
def Request.isAdd : Request W → Bool
  | .add _ _ => true
  | _ => false

/-- Storing a rule gives at most one number more. -/
theorem size_slots_add (s : Store W) (r : Rule W) :
    s.slots.size ≤ (s.add r).1.slots.size ∧ (s.add r).1.slots.size ≤ s.slots.size + 1 := by
  cases place : s.position? r.left r.right with
  | some i =>
    rw [add_of_isSome (by rw [place]; rfl)]
    exact ⟨Nat.le_refl _, Nat.le_succ _⟩
  | none =>
    rw [slots_add place, Array.size_push]
    exact ⟨Nat.le_succ _, Nat.le_refl _⟩

/-- Storing a rule changes none of the numbers so far. -/
theorem rule?_add_of_lt (s : Store W) (r : Rule W) {id : RuleNumber} (h : id < s.slots.size) :
    (s.add r).1.rule? id = s.rule? id := by
  cases place : s.position? r.left r.right with
  | some i => rw [add_of_isSome (by rw [place]; rfl)]
  | none => rw [rule?_push (slots_add place), if_neg (Nat.ne_of_lt h)]

/-- Storing a rule leads to a later state. -/
theorem later_add (s : Store W) (r : Rule W) : s.Later [] (s.add r).1 :=
  .of_record (s.size_slots_add r).1 fun id inside => by
    rw [record?, rule?_add_of_lt s r inside, ← record?]

/-- Giving all rules their kinds leads to a later state. -/
theorem later_assignKinds (s : Store W) : s.Later [] s.assignKinds := by
  refine .of_record (Nat.le_of_eq Array.size_map.symm) fun id _ => ?_
  rw [record?, assignKinds, rule?_mapRules, Option.map_map]
  rfl

/-- Removing a rule gives no number and takes none back. -/
theorem size_slots_remove {r : Rule W} {old : Option (Rule W)} (h : s.remove r = .ok (t, old)) :
    t.slots.size = s.slots.size := by
  rw [remove] at h
  split at h
  · cases h
    rfl
  · split at h
    · cases h
      rfl
    · split at h
      · cases h
      · cases h
        exact Array.size_setIfInBounds

/-- Removing a rule never fails and leads to a later state without its sides. -/
theorem Indexed.later_remove (h : s.Indexed) (r : Rule W) :
    ∃ t old, s.remove r = .ok (t, old) ∧ t.Indexed ∧ s.Later [r.sides] t := by
  -- records with other sides pass
  have passes : ∀ {id}, (∀ q, s.rule? id = some q → ¬q.SameSides r) →
      s.record? id = (s.record? id).filter fun e => decide (e.1 ∉ [r.sides]) := by
    intro id other
    cases hid : s.rule? id with
    | none =>
      rw [record?, hid]
      rfl
    | some q =>
      have apart : q.sides ∉ [r.sides] := fun same =>
        other q hid (Prod.mk.inj (List.mem_singleton.mp same))
      rw [record?, hid, Option.map_some, filter_record_of_not_mem _ apart]
  by_cases there : ∃ q ∈ s.rules, q.SameSides r
  · obtain ⟨q, hq, same⟩ := there
    obtain ⟨id, hid⟩ := h.mem_rules.mp hq
    obtain ⟨t, ht, indexed, rule⟩ := h.remove_stored hid same
    refine ⟨t, some q, ht, indexed, Nat.le_of_eq (size_slots_remove ht).symm, fun j _ => ?_⟩
    rw [record?, rule]
    by_cases here : j = id
    · have goes : q.sides ∈ [r.sides] := List.mem_singleton.mpr (Prod.ext same.1 same.2)
      rw [if_pos here, here, record?, hid, Option.map_some, filter_record_of_mem _ goes]
      rfl
    · rw [if_neg here, ← record?]
      exact passes fun p hp same' =>
        here (h.distinctSides _ _ _ _ hp hid (same'.trans same.symm))
  · refine ⟨s, none, h.remove_absent fun q hq same => there ⟨q, hq, same⟩, h, Nat.le_refl _,
      fun id _ => passes fun q hq same => there ⟨q, h.mem_rules.mpr ⟨id, hq⟩, same⟩⟩

/-- A request never fails; it leads to a later state without the sides that it removes, and gives at
most one number more, if it stores a rule. -/
theorem Indexed.later_answer (h : s.Indexed) (request : Request W) :
    ∃ t answer, s.answer request = .ok (t, answer) ∧ t.Indexed ∧ s.Later request.removed t ∧
      t.slots.size ≤ s.slots.size + if request.isAdd then 1 else 0 := by
  have same : s.Later [] s := .of_record (Nat.le_refl _) fun _ _ => rfl
  cases request with
  | add r _ => exact ⟨_, _, rfl, h.add r, s.later_add r, (s.size_slots_add r).2⟩
  | remove r =>
    obtain ⟨t, old, removed, indexed, later⟩ := h.later_remove r
    exact ⟨t, .removed old, by rw [answer, removed]; rfl, indexed, later,
      Nat.le_of_eq (size_slots_remove removed)⟩
  | search r =>
    cases found : s.search r.left r.right with
    | none => exact ⟨s, .found none, by rw [answer, found], h, same, Nat.le_refl _⟩
    | some id =>
      obtain ⟨q, hq, -⟩ := h.search_eq_some.mp found
      refine ⟨s, .found (some q), ?_, h, same, Nat.le_refl _⟩
      rw [answer, found]
      simp only [rule_eq_ok hq]
      rfl
  | assignKinds =>
    exact ⟨_, _, rfl, h.assignKinds, s.later_assignKinds, Nat.le_of_eq Array.size_map⟩
  | list => exact ⟨s, _, rfl, h, same, Nat.le_refl _⟩

/-- Requests never fail; they lead to a later state without the sides that they remove, and give at
most one number more for each rule that they store. -/
theorem Indexed.later_serve (h : s.Indexed) (requests : List (Request W)) :
    ∃ t answers, s.serve requests = .ok (t, answers) ∧ t.Indexed ∧
      s.Later (requests.flatMap Request.removed) t ∧
      t.slots.size ≤ s.slots.size + requests.countP Request.isAdd := by
  induction requests generalizing s with
  | nil => exact ⟨s, [], rfl, h, .of_record (Nat.le_refl _) fun _ _ => rfl, Nat.le_refl _⟩
  | cons request requests ih =>
    obtain ⟨m, first, done, indexed, later, size⟩ := h.later_answer request
    obtain ⟨t, rest, done', indexed', later', size'⟩ := ih indexed
    refine ⟨t, first :: rest, ?_, indexed', later.trans later', ?_⟩
    · rw [serve, done]
      simp only [bind, Except.bind, done']
      rfl
    · rw [List.countP_cons]
      omega

/-! ## Handles -/

/-- What the numbers that a search finds before some requests are worth after them. -/
structure Handles (s : Store W) (requests : List (Request W)) (t : Store W) : Prop where
  /-- Each request to store a rule takes one number at most. -/
  size : t.slots.size ≤ s.slots.size + requests.countP Request.isAdd
  /-- A number that is found has the rule with the sides, and is one of those given. -/
  found : ∀ left right id, s.search left right = some id →
    id < s.slots.size ∧ ∃ r, s.rule id = .ok r ∧ r.left = left ∧ r.right = right
  /-- It stays the number of the rule, with its sides and weight, if these are not removed. -/
  kept : ∀ left right id r, s.search left right = some id → s.rule id = .ok r →
    (∀ q, .remove q ∈ requests → q.sides ≠ (left, right)) →
    t.search left right = some id ∧ ∃ kind, t.rule id = .ok { r with kind }
  /-- It has no rule once they are removed, whatever is stored. -/
  gone : ∀ left right id q, s.search left right = some id → .remove q ∈ requests →
    q.sides = (left, right) → t.rule id = .error .noSuchRule
  /-- It is not found for other sides. -/
  single : ∀ left right id left' right', s.search left right = some id →
    t.search left' right' = some id → left' = left ∧ right' = right

/-- Numbers are handles between conversions. -/
theorem Indexed.exists_handles (h : s.Indexed) (requests : List (Request W)) :
    ∃ t answers, s.serve requests = .ok (t, answers) ∧ s.Handles requests t := by
  obtain ⟨t, answers, done, indexed, later, size⟩ := h.later_serve requests
  refine ⟨t, answers, done, size, ?_, ?_, ?_, ?_⟩
  · intro left right id found
    obtain ⟨r, hr, sides⟩ := h.search_eq_some.mp found
    exact ⟨lt_of_rule? hr, r, rule_eq_ok hr, sides⟩
  · intro left right id r found resolved stays
    obtain ⟨q, hq, rfl, rfl⟩ := h.search_eq_some.mp found
    obtain rfl : q = r := Except.ok.inj ((rule_eq_ok hq).symm.trans resolved)
    have passes : q.sides ∉ requests.flatMap Request.removed := by
      rw [Request.mem_removed]
      rintro ⟨p, hp, same⟩
      exact stays p hp same
    obtain ⟨kind, kept⟩ := later.kept hq passes
    exact ⟨indexed.search_eq_some.mpr ⟨_, kept, rfl, rfl⟩, kind, rule_eq_ok kept⟩
  · intro left right id q found asked same
    obtain ⟨r, hr, rfl, rfl⟩ := h.search_eq_some.mp found
    exact rule_eq_error (later.emptied hr (Request.mem_removed.mpr ⟨q, asked, same⟩))
  · intro left right id left' right' found found'
    obtain ⟨r, hr, rfl, rfl⟩ := h.search_eq_some.mp found
    obtain ⟨q, hq, rfl, rfl⟩ := indexed.search_eq_some.mp found'
    exact Prod.mk.inj (later.sides_eq hr hq)

end Constituency.Store
