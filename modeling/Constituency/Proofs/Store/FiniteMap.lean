import Constituency.Proofs.Rule.Kinds
import Constituency.Proofs.Store.Scanning
import Std.Data.TreeMap

/-!
# The store is a finite map

Whatever is asked of a store that started empty, it answers like a finite map
from the two sides of a rule to its kind and weight. Storing a rule inserts its
entry unless there is one for its sides, removing erases the entry and hands it
back, and the rules are the entries in the order of their sides. The numbers and
the two lists of numbers are of no account, and no request fails.
-/

namespace Constituency

/-- Compares the sides of rules: by the left symbol, then by the right side. -/
def compareSides (a b : Symbol × List Symbol) : Ordering :=
  (compare a.1 b.1).then (compare a.2 b.2)

instance : Std.TransCmp compareSides :=
  inferInstanceAs (Std.TransCmp (compareLex (compareOn Prod.fst) (compareOn Prod.snd)))

instance : Std.LawfulEqCmp compareSides where
  eq_of_compare {a b} h := by
    rw [compareSides, Ordering.then_eq_eq, Std.LawfulEqCmp.compare_eq_iff_eq,
      Std.LawfulEqCmp.compare_eq_iff_eq] at h
    exact Prod.ext h.1 h.2

/-- A finite map from the sides of rules to their kinds and weights. -/
abbrev RuleMap (W : Type) :=
  Std.TreeMap (Symbol × List Symbol) (RuleKind × W) compareSides

namespace RuleMap

variable {W : Type} {m : RuleMap W}

/-- The rule with the given sides. -/
def rule? (m : RuleMap W) (sides : Symbol × List Symbol) : Option (Rule W) :=
  m[sides]?.map fun entry => ⟨sides.1, sides.2, entry.1, entry.2⟩

/-- The rules in the order of their sides. -/
def rules (m : RuleMap W) : List (Rule W) :=
  m.toList.map fun entry => ⟨entry.1.1, entry.1.2, entry.2.1, entry.2.2⟩

/-- Gives every rule the kind it has among the left symbols of the map. -/
def assignKinds (m : RuleMap W) : RuleMap W :=
  m.map fun sides entry => (Rule.kindAmong (m.rules.map Rule.left).contains sides.2, entry.2)

/-- The rule that is found has the sides and is an entry of the map. -/
theorem rule?_eq_some {sides : Symbol × List Symbol} {r : Rule W} :
    m.rule? sides = some r ↔ r.sides = sides ∧ m[r.sides]? = some (r.kind, r.weight) := by
  rw [rule?, Option.map_eq_some_iff]
  constructor
  · rintro ⟨entry, found, rfl⟩
    exact ⟨rfl, found⟩
  · rintro ⟨rfl, found⟩
    exact ⟨_, found, rfl⟩

/-- The rules are the entries of the map. -/
theorem mem_rules {r : Rule W} : r ∈ m.rules ↔ m[r.sides]? = some (r.kind, r.weight) := by
  rw [rules, List.mem_map, ← Std.TreeMap.mem_toList_iff_getElem?_eq_some]
  constructor
  · rintro ⟨entry, mem, rfl⟩
    exact mem
  · exact fun mem => ⟨_, mem, rfl⟩

/-- The rules are in strict order. -/
theorem pairwise_rules (m : RuleMap W) :
    m.rules.Pairwise fun a b => a.compareLeftFirst b = .lt := by
  rw [rules, List.pairwise_map]
  exact Std.TreeMap.ordered_keys_toList (t := m)

/-- There are as many rules as entries. -/
theorem length_rules (m : RuleMap W) : m.rules.length = m.size := by
  rw [rules, List.length_map, Std.TreeMap.length_toList]

end RuleMap

namespace Store

variable {W : Type}

/-! ## Requests -/

/-- What can be asked of a store. -/
inductive Request (W : Type) where
  /-- Stores a rule with a right side. -/
  | add (r : Rule W) (filled : r.right ≠ [])
  /-- Removes the rule with the sides of the given one. -/
  | remove (r : Rule W)
  /-- Searches the rule with the sides of the given one. -/
  | search (r : Rule W)
  /-- Gives all rules their kinds. -/
  | assignKinds
  /-- Counts and lists the rules. -/
  | list

/-- What is answered to a request. -/
inductive Answer (W : Type) where
  /-- Whether the rule was new. -/
  | added (new : Bool)
  /-- The rule that was removed, if there was one. -/
  | removed (old : Option (Rule W))
  /-- The rule that was found, if there is one. -/
  | found (rule : Option (Rule W))
  /-- Nothing but that it is done. -/
  | done
  /-- The number of rules, and the rules. -/
  | listed (size : Nat) (rules : List (Rule W))

/-- The store after a request, and its answer. -/
def answer (s : Store W) : Request W → Except Fault (Store W × Answer W)
  | .add r _ => .ok ((s.add r).1, .added (s.add r).2)
  | .remove r => (s.remove r).map fun result => (result.1, .removed result.2)
  | .search r =>
    match s.search r.left r.right with
    | none => .ok (s, .found none)
    | some id => (s.rule id).map fun q => (s, .found (some q))
  | .assignKinds => .ok (s.assignKinds, .done)
  | .list => .ok (s, .listed s.size s.rules)

/-- The store after the requests of a list, and its answers. -/
def serve (s : Store W) : List (Request W) → Except Fault (Store W × List (Answer W))
  | [] => .ok (s, [])
  | request :: requests => do
    let (s, first) ← s.answer request
    let (s, rest) ← s.serve requests
    return (s, first :: rest)

end Store

namespace RuleMap

variable {W : Type}

/-- The map after a request, and its answer. -/
def answer (m : RuleMap W) : Store.Request W → RuleMap W × Store.Answer W
  | .add r _ =>
    if r.sides ∈ m then (m, .added false)
    else (m.insert r.sides (r.kind, r.weight), .added true)
  | .remove r => (m.erase r.sides, .removed (m.rule? r.sides))
  | .search r => (m, .found (m.rule? r.sides))
  | .assignKinds => (m.assignKinds, .done)
  | .list => (m, .listed m.size m.rules)

/-- The map after the requests of a list, and its answers. -/
def serve (m : RuleMap W) : List (Store.Request W) → RuleMap W × List (Store.Answer W)
  | [] => (m, [])
  | request :: requests =>
    let (m, first) := m.answer request
    let (m, rest) := serve m requests
    (m, first :: rest)

end RuleMap

namespace Store

variable {W : Type} {s : Store W} {m : RuleMap W}

/-! ## Stores that represent a map -/

/-- An indexed store whose rules are the entries of a map. -/
structure Represents (s : Store W) (m : RuleMap W) : Prop where
  /-- The store is indexed. -/
  indexed : s.Indexed
  /-- The rules are the entries. -/
  mem : ∀ r, r ∈ s.rules ↔ m[r.sides]? = some (r.kind, r.weight)

/-- The empty store represents the empty map. -/
theorem represents_empty : ({} : Store W).Represents ∅ :=
  ⟨indexed_empty, fun r => by simp [rules]⟩

/-- An indexed store has as many rules as its left list has numbers. -/
theorem Indexed.size_eq (h : s.Indexed) : s.size = s.rules.length := by
  have live : s.byLeft.toList.map s.rule? = s.rules.map some :=
    map_rule?_of_live fun id hid => Option.isSome_iff_exists.mp ((h.left.mem id).mp hid)
  have lengths := congrArg List.length live
  rwa [List.length_map, List.length_map, Array.length_toList] at lengths

namespace Represents

variable (h : s.Represents m)

include h

/-- The rules are listed in the same order. -/
theorem rules_eq : s.rules = m.rules :=
  eq_of_pairwise_lt h.indexed.sortedLeft.pairwise_rules m.pairwise_rules fun r => by
    rw [h.mem, RuleMap.mem_rules]

/-- There are as many rules. -/
theorem size_eq : s.size = m.size := by
  rw [h.indexed.size_eq, h.rules_eq, m.length_rules]

/-- A rule is stored with given sides when the map finds it there. -/
theorem rule?_eq_some {q r : Rule W} :
    m.rule? r.sides = some q ↔ q ∈ s.rules ∧ q.SameSides r := by
  rw [RuleMap.rule?_eq_some, h.mem, and_comm, Rule.sides, Rule.sides, Prod.mk.injEq]
  rfl

/-- Without a stored rule with the sides the map finds none. -/
theorem rule?_eq_none {r : Rule W} :
    m.rule? r.sides = none ↔ ∀ q ∈ s.rules, ¬q.SameSides r := by
  rw [Option.eq_none_iff_forall_ne_some]
  simp only [ne_eq, h.rule?_eq_some, not_and]

/-- The map has an entry for the sides of a rule when a rule with them is stored. -/
theorem sides_mem {r : Rule W} : r.sides ∈ m ↔ ∃ q ∈ s.rules, q.SameSides r := by
  have found : (m.rule? r.sides).isSome ↔ ∃ q ∈ s.rules, q.SameSides r := by
    simp only [Option.isSome_iff_exists, h.rule?_eq_some]
  rw [← found, Std.TreeMap.mem_iff_isSome_getElem?, RuleMap.rule?, Option.isSome_map]

/-! ## Requests to such a store -/

/-- Storing a rule whose sides are there changes nothing. -/
theorem add_of_mem {r : Rule W} (there : r.sides ∈ m) : s.add r = (s, false) := by
  obtain ⟨q, hq, same⟩ := h.sides_mem.mp there
  have found := h.indexed.isSome_position? hq
  rw [same.1, same.2] at found
  exact add_of_isSome found

/-- Storing a rule with new sides inserts its entry. -/
theorem add_of_not_mem {r : Rule W} (new : r.sides ∉ m) :
    (s.add r).2 = true ∧ (s.add r).1.Represents (m.insert r.sides (r.kind, r.weight)) := by
  have absent : ∀ q ∈ s.rules, ¬q.SameSides r := fun q hq same =>
    new (h.sides_mem.mpr ⟨q, hq, same⟩)
  refine ⟨?_, h.indexed.add r, fun q => ?_⟩
  · rw [Store.add, (h.indexed.position?_eq_none r).mpr absent]
  · rw [h.indexed.mem_rules_add, Std.TreeMap.getElem?_insert]
    split
    · next tie =>
      have sides : q.sides = r.sides := (Std.LawfulEqCmp.eq_of_compare tie).symm
      constructor
      · rintro (old | ⟨rfl, -⟩)
        · exact absurd (Prod.mk.inj sides) (absent q old)
        · rfl
      · intro entry
        obtain ⟨kind, weight⟩ := Prod.mk.inj (Option.some.inj entry)
        exact Or.inr ⟨Rule.eq_of_sides sides kind.symm weight.symm, absent⟩
    · next apart =>
      rw [← h.mem]
      exact ⟨fun stored => stored.resolve_right fun new =>
        apart (new.1 ▸ Std.ReflCmp.compare_self), Or.inl⟩

/-- Removing erases the entry for the sides and hands it back. -/
theorem remove (r : Rule W) :
    ∃ t : Store W, s.remove r = .ok (t, m.rule? r.sides) ∧ t.Represents (m.erase r.sides) := by
  obtain ⟨t, old, removed, indexed, mem⟩ := h.indexed.remove r
  have handed : old = m.rule? r.sides := by
    cases found : m.rule? r.sides with
    | none =>
      rw [h.indexed.remove_absent (h.rule?_eq_none.mp found)] at removed
      cases removed
      rfl
    | some q =>
      obtain ⟨hq, same⟩ := h.rule?_eq_some.mp found
      obtain ⟨id, hid⟩ := h.indexed.mem_rules.mp hq
      obtain ⟨t', removed', -⟩ := h.indexed.remove_stored hid same
      rw [removed'] at removed
      cases removed
      rfl
  refine ⟨t, handed ▸ removed, indexed, fun q => ?_⟩
  rw [mem, h.mem, Std.TreeMap.getElem?_erase]
  split
  · next tie =>
    have sides : q.sides = r.sides := (Std.LawfulEqCmp.eq_of_compare tie).symm
    exact ⟨fun stays => absurd (Prod.mk.inj sides) stays.2, fun entry => nomatch entry⟩
  · next apart =>
    refine and_iff_left fun same => apart ?_
    rw [Rule.sides, Rule.sides, same.1, same.2]
    exact Std.ReflCmp.compare_self

/-- A search finds the rule that the map has for the sides. -/
theorem search (r : Rule W) :
    s.answer (.search r) = .ok (s, .found (m.rule? r.sides)) := by
  rw [answer]
  cases place : s.position? r.left r.right with
  | none =>
    have absent := h.rule?_eq_none.mpr ((h.indexed.position?_eq_none r).mp place)
    rw [Store.search, place, absent]
    rfl
  | some i =>
    obtain ⟨id, q, at_place, hid, same⟩ := rule_of_position? place
    have stored := h.rule?_eq_some.mpr ⟨h.indexed.mem_rules.mpr ⟨id, hid⟩, same⟩
    rw [Store.search, place, Option.bind_some, at_place, stored]
    simp only [rule_eq_ok hid]
    rfl

/-- Giving all rules their kinds does so in the map. -/
theorem assignKinds : s.assignKinds.Represents m.assignKinds := by
  refine ⟨h.indexed.assignKinds, fun q => ?_⟩
  rw [Store.assignKinds, rules_mapRules, List.mem_map, RuleMap.assignKinds,
    Std.TreeMap.getElem?_map, Option.map_eq_some_iff, h.rules_eq]
  constructor
  · rintro ⟨p, hp, rfl⟩
    exact ⟨(p.kind, p.weight), RuleMap.mem_rules.mp hp, rfl⟩
  · rintro ⟨entry, found, same⟩
    obtain ⟨kind, weight⟩ := Prod.mk.inj same
    exact ⟨⟨q.left, q.right, entry.1, entry.2⟩, RuleMap.mem_rules.mpr found,
      Rule.eq_of_sides rfl kind weight⟩

/-- A store answers a request like the map it represents, and represents the map afterwards. -/
theorem answer (request : Request W) :
    ∃ t : Store W, s.answer request = .ok (t, (m.answer request).2) ∧
      t.Represents (m.answer request).1 := by
  cases request with
  | add r filled =>
    rw [RuleMap.answer, Store.answer]
    split
    · next there =>
      rw [h.add_of_mem there]
      exact ⟨s, rfl, h⟩
    · next new =>
      obtain ⟨stored, represents⟩ := h.add_of_not_mem new
      exact ⟨_, by rw [stored], represents⟩
  | remove r =>
    obtain ⟨t, removed, represents⟩ := h.remove r
    exact ⟨t, by rw [Store.answer, removed]; rfl, represents⟩
  | search r => exact ⟨s, h.search r, h⟩
  | assignKinds => exact ⟨_, rfl, h.assignKinds⟩
  | list => exact ⟨s, by rw [Store.answer, h.size_eq, h.rules_eq]; rfl, h⟩

/-- A store answers requests like the map it represents, and represents the map afterwards. -/
theorem serve (requests : List (Request W)) :
    ∃ t : Store W, s.serve requests = .ok (t, (m.serve requests).2) ∧
      t.Represents (m.serve requests).1 := by
  induction requests generalizing s m with
  | nil => exact ⟨s, rfl, h⟩
  | cons request requests ih =>
    obtain ⟨t, first, represents⟩ := h.answer request
    obtain ⟨u, rest, last⟩ := ih represents
    refine ⟨u, ?_, last⟩
    rw [Store.serve, first]
    simp only [bind, Except.bind, rest]
    rfl

end Represents

/-- Whatever is asked of a store that starts empty, it answers like a finite map that starts empty,
without a fault. At every point it lists the entries of the map, in the order of their sides. What
is refused leaves it as it is, and removing may search the lists and scan them from wherever the
searches land. -/
theorem exists_serve (requests : List (Request W)) :
    ∃ s : Store W, ({} : Store W).serve requests = .ok (s, (RuleMap.serve ∅ requests).2) ∧
      s.rules = (RuleMap.serve ∅ requests).1.rules ∧
      s.size = (RuleMap.serve ∅ requests).1.size ∧
      s.rules.Pairwise (fun a b => a.compareLeftFirst b = .lt) ∧
      (∀ r, (s.add r).2 = false → (s.add r).1 = s) ∧
      (∀ r t, s.remove r = .ok (t, none) → t = s) ∧
      ∀ search r, s.removeScanning search r = s.remove r := by
  obtain ⟨s, served, represents⟩ := represents_empty.serve requests
  refine ⟨s, served, represents.rules_eq, represents.size_eq,
    represents.indexed.sortedLeft.pairwise_rules, fun r refused => ?_, fun r t removed => ?_,
    represents.indexed.removeScanning_eq⟩
  · by_cases there : r.sides ∈ (RuleMap.serve ∅ requests).1
    · rw [represents.add_of_mem there]
    · rw [(represents.add_of_not_mem there).1] at refused
      cases refused
  · obtain ⟨u, removed', -⟩ := represents.remove r
    have none := (Prod.mk.inj (Except.ok.inj (removed'.symm.trans removed))).2
    have unchanged := represents.indexed.remove_absent (represents.rule?_eq_none.mp none)
    exact (Prod.mk.inj (Except.ok.inj (removed.symm.trans unchanged))).1

end Store

end Constituency
