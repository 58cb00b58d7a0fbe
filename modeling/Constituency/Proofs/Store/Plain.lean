import Constituency.Store.Lookup

/-!
# Stores without weights

Leaving out the weights of the rules turns a store into a plain one. No store
ever looks at a weight: rules are compared by their sides and told apart by
their kinds. So a store and its plain copy find rules at the same places, and
each operation on the one is the same operation on the other.
-/

namespace Constituency

namespace Rule

variable {W : Type}

/-- The rule without its weight. -/
def plain (r : Rule W) : Rule Unit :=
  ⟨r.left, r.right, r.kind, ()⟩

@[simp] theorem left_plain (r : Rule W) : r.plain.left = r.left := rfl

@[simp] theorem right_plain (r : Rule W) : r.plain.right = r.right := rfl

@[simp] theorem kind_plain (r : Rule W) : r.plain.kind = r.kind := rfl

/-- The weight has no part in the kind that a rule is given. -/
theorem plain_assignKind (heads : Symbol → Bool) (r : Rule W) :
    (r.assignKind heads).plain = r.plain.assignKind heads := rfl

/-- The weight has no part in replacing a pair. -/
theorem plain_mergePair (first second new : Symbol) (r : Rule W) :
    (r.mergePair first second new).plain = r.plain.mergePair first second new := by
  rw [mergePair, mergePair, right_plain]
  cases mergePair? first second new r.right <;> rfl

/-- Sides make a rule with a weight when they make one without. -/
theorem map_plain_ofSides? (left : Symbol) (right : List Symbol) (weight : W) :
    (ofSides? left right weight).map plain = ofSides? left right () := by
  rw [ofSides?, ofSides?]
  split <;> rfl

end Rule

namespace Store

variable {W : Type}

/-- The store without the weights of its rules. -/
def plain (s : Store W) : Store Unit where
  slots := s.slots.map (Option.map Rule.plain)
  byLeft := s.byLeft
  byRight := s.byRight

/-- The empty store has no weights. -/
theorem plain_empty : ({} : Store W).plain = {} := by
  simp [plain]

/-- Every number has the rule without its weight. -/
theorem rule?_plain (s : Store W) (id : RuleNumber) :
    s.plain.rule? id = (s.rule? id).map Rule.plain := by
  rw [rule?, rule?, plain, Array.getElem?_map]
  cases s.slots[id]? <;> rfl

/-- A number without a rule has none in either store. -/
theorem rule_plain (s : Store W) (id : RuleNumber) :
    s.plain.rule id = (s.rule id).map Rule.plain := by
  rw [rule, rule, rule?_plain]
  cases s.rule? id <;> rfl

/-- Numbers have the rules without their weights. -/
theorem filterMap_rule?_plain (s : Store W) (ids : List RuleNumber) :
    ids.filterMap s.plain.rule? = (ids.filterMap s.rule?).map Rule.plain := by
  rw [List.map_filterMap]
  exact congrArg (ids.filterMap ·) (funext s.rule?_plain)

/-- The rules in order are those of the store without their weights. -/
theorem rules_plain (s : Store W) : s.plain.rules = s.rules.map Rule.plain :=
  s.filterMap_rule?_plain s.byLeft.toList

/-- The left symbols of the rules are the same. -/
theorem map_left_rules_plain (s : Store W) :
    s.plain.rules.map Rule.left = s.rules.map Rule.left := by
  rw [rules_plain, List.map_map]
  rfl

/-- So are the rules by right side. -/
theorem rulesByRight_plain (s : Store W) : s.plain.rulesByRight = s.rulesByRight.map Rule.plain :=
  s.filterMap_rule?_plain s.byRight.toList

/-! ## Lookups -/

/-- A comparison of rules without weights compares numbers in both stores alike. -/
theorem compareAt_plain (s : Store W) (order : Rule Unit → Ordering) :
    s.plain.compareAt order = s.compareAt fun r => order r.plain := by
  funext id
  rw [compareAt, compareAt, rule?_plain]
  cases s.rule? id <;> rfl

/-- Sides stand at the same place of the left list. -/
theorem position?_plain (s : Store W) (left : Symbol) (right : List Symbol) :
    s.plain.position? left right = s.position? left right := by
  rw [position?, compareAt_plain]
  rfl

/-- A left symbol has the same numbers. -/
theorem idsWithLeft_plain (s : Store W) (left : Symbol) :
    s.plain.idsWithLeft left = s.idsWithLeft left := by
  rw [idsWithLeft, compareAt_plain]
  rfl

/-- A right side has the same numbers. -/
theorem idsWithRight_plain (s : Store W) (right : List Symbol) :
    s.plain.idsWithRight right = s.idsWithRight right := by
  rw [idsWithRight, compareAt_plain]
  rfl

/-- A right side has the same rules. -/
theorem withRight_plain (s : Store W) (right : List Symbol) :
    s.plain.withRight right = (s.withRight right).map Rule.plain := by
  rw [withRight, idsWithRight_plain]
  exact s.filterMap_rule?_plain _

/-- Choosing rules by their kind does not look at the weight. -/
theorem filter_kind_map_plain (kind : RuleKind) (rules : List (Rule W)) :
    (rules.map Rule.plain).filter (·.kind == kind) =
      (rules.filter (·.kind == kind)).map Rule.plain := by
  rw [List.filter_map]
  rfl

/-- A word has the same rules. -/
theorem wordRules_plain (s : Store W) (word : Symbol) :
    s.plain.wordRules word = (s.wordRules word).map Rule.plain := by
  rw [wordRules, withRight_plain]
  exact filter_kind_map_plain .terminal _

/-- Two symbols have the same rules. -/
theorem pairRules_plain (s : Store W) (first second : Symbol) :
    s.plain.pairRules first second = (s.pairRules first second).map Rule.plain :=
  s.withRight_plain [first, second]

/-- The left symbols of the rules for words are the same. -/
theorem tags_plain (s : Store W) : s.plain.tags = s.tags := by
  rw [tags, rules_plain, filter_kind_map_plain, List.map_map]
  rfl

/-! ## Operations -/

/-- A number goes to the same place of a sorted list. -/
theorem insertAt_plain (s : Store W) (order : Rule Unit → Ordering) (index : Array RuleNumber)
    (id : RuleNumber) :
    s.plain.insertAt order index id = s.insertAt (fun r => order r.plain) index id := by
  rw [insertAt, compareAt_plain]
  rfl

/-- A rule is stored in both stores or in neither. -/
theorem add_plain (s : Store W) (r : Rule W) :
    s.plain.add r.plain = ((s.add r).1.plain, (s.add r).2) := by
  rw [add, add, Rule.left_plain, Rule.right_plain, position?_plain]
  cases s.position? r.left r.right with
  | some i => rfl
  | none =>
    simp only [insertAt_plain]
    simp [plain, Rule.compareLeftFirst, Rule.compareRightFirst, Rule.compareLeft,
      Rule.compareRight]

/-- Storing a list of rules is the same in both stores. -/
theorem addAll_plain (s : Store W) (rules : List (Rule W)) :
    s.plain.addAll (rules.map Rule.plain) = (s.addAll rules).plain := by
  induction rules generalizing s with
  | nil => rfl
  | cons r rules ih =>
    rw [List.map_cons, addAll, List.foldl_cons, add_plain]
    exact ih (s.add r).1

/-- Storing a rule at the end is the same in both stores. -/
theorem append_plain (s : Store W) (r : Rule W) : s.plain.append r.plain = (s.append r).plain := by
  simp [append, plain]

/-- A number stands at the same place of the right list. -/
theorem rightPosition?_plain (s : Store W) (r : Rule W) (id : RuleNumber) :
    s.plain.rightPosition? r.plain id = s.rightPosition? r id := by
  rw [rightPosition?, compareAt_plain]
  rfl

/-- A rule is removed from both stores, or from neither, or fails to be removed alike. -/
theorem remove_plain (s : Store W) (r : Rule W) :
    s.plain.remove r.plain =
      (s.remove r).map fun result => (result.1.plain, result.2.map Rule.plain) := by
  rw [remove, remove, Rule.left_plain, Rule.right_plain, position?_plain]
  cases s.position? r.left r.right with
  | none => rfl
  | some left =>
    simp only [rightPosition?_plain]
    rw [show s.plain.byLeft = s.byLeft from rfl]
    cases s.byLeft[left]? with
    | none => rfl
    | some id =>
      dsimp only
      cases s.rightPosition? r id with
      | none => rfl
      | some right => simp [Except.map, plain, ← rule?_plain, Array.map_setIfInBounds]

/-- Changing every rule is the same in both stores when the change does not look at the weight. -/
theorem mapRules_plain (s : Store W) {f : Rule Unit → Rule Unit} {f' : Rule W → Rule W}
    (same : ∀ r, (f' r).plain = f r.plain) : s.plain.mapRules f = (s.mapRules f').plain := by
  have slots : Option.map f ∘ Option.map Rule.plain = Option.map Rule.plain ∘ Option.map f' := by
    funext slot
    cases slot with
    | none => rfl
    | some r => exact congrArg some (same r).symm
  simp only [mapRules, plain, Array.map_map, slots]

/-- Rules have the same kinds in both stores. -/
theorem assignKinds_plain (s : Store W) : s.plain.assignKinds = s.assignKinds.plain := by
  rw [assignKinds, map_left_rules_plain]
  exact s.mapRules_plain (Rule.plain_assignKind _)

/-- Changing a weight changes nothing in the plain store. -/
theorem plain_modifyWeight (s : Store W) (id : RuleNumber) (f : W → W) :
    (s.modifyWeight id f).plain = s.plain := by
  have slots : (s.slots.modify id (Option.map fun r => { r with weight := f r.weight })).map
      (Option.map Rule.plain) = s.slots.map (Option.map Rule.plain) := by
    refine Array.ext (by simp) fun i hi hi' => ?_
    have inside : i < s.slots.size := by simpa using hi'
    rw [Array.getElem_map, Array.getElem_map, Array.getElem_modify]
    generalize s.slots[i] = slot
    split <;> cases slot <;> rfl
  rw [plain, plain, modifyWeight, slots]

/-- Numbering a list of rules is the same in both stores. -/
theorem ofRules_plain (rules : List (Rule W)) :
    ofRules (rules.map Rule.plain) = (ofRules rules).plain := by
  have sorted : ∀ (order : Rule Unit → Rule Unit → Ordering) (order' : Rule W → Rule W → Ordering),
      (∀ a b, order a.plain b.plain = order' a b) →
      ((rules.map Rule.plain).zipIdx.mergeSort fun a b => (order a.1 b.1).isLE).map Prod.snd =
        (rules.zipIdx.mergeSort fun a b => (order' a.1 b.1).isLE).map Prod.snd := by
    intro order order' same
    rw [List.zipIdx_map, ← List.map_mergeSort, List.map_map]
    · rfl
    · intro a _ b _
      simp only [Prod.map_fst]
      rw [same]
  have left := sorted Rule.compareLeftFirst Rule.compareLeftFirst fun _ _ => rfl
  have right := sorted Rule.compareRightFirst Rule.compareRightFirst fun _ _ => rfl
  simp only [ofRules, plain, left, right]
  simp

/-- Dropping the empty numbers is the same in both stores. -/
theorem renumber_plain (s : Store W) : s.plain.renumber = s.renumber.plain := by
  have live : s.plain.slots.toList.filterMap id = (s.slots.toList.filterMap id).map Rule.plain := by
    rw [plain, Array.toList_map, List.filterMap_map, List.map_filterMap]
    exact congrArg (s.slots.toList.filterMap ·) (funext fun slot => by cases slot <;> rfl)
  rw [renumber, live, ofRules_plain, renumber]

/-- Neighbours compare alike in both stores. -/
theorem adjacent_map_plain (p : Rule Unit → Rule Unit → Bool) (rules : List (Rule W)) :
    adjacent p (rules.map Rule.plain) = adjacent (fun a b => p a.plain b.plain) rules := by
  induction rules with
  | nil => rfl
  | cons a rest ih =>
    cases rest with
    | nil => rfl
    | cons b rest => exact congrArg (p a.plain b.plain && ·) ih

/-- The lists of both stores are in order, or those of neither. -/
theorem isCoherent_plain (s : Store W) : s.plain.isCoherent = s.isCoherent := by
  rw [isCoherent, rules_plain, rulesByRight_plain, adjacent_map_plain, adjacent_map_plain]
  rfl

end Store

end Constituency
