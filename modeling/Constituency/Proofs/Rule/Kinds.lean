import Constituency.Proofs.Store.Update

/-!
# Kinds of rules

The kind of a rule is read off its right side: by its length, and for a single
symbol by whether it heads a rule of the grammar. A rule fits when its kind
tells the length of its right side as far as kinds can. In a classified store
the kind is one function of the right side for all rules.
-/

namespace Constituency

namespace Rule

variable {W : Type}

/-- A unit rule expands into a single category. -/
theorem exists_of_kindAmong_unit {heads : Symbol → Bool} {right : List Symbol}
    (h : kindAmong heads right = .unit) : ∃ a, right = [a] := by
  match right with
  | [] => cases h
  | [a] => exact ⟨a, rfl⟩
  | [a, b] => cases h
  | a :: b :: c :: rest => cases h

/-- A right side that is neither a word nor a single category has two symbols or more. -/
theorem two_le_length_of_kindAmong {heads : Symbol → Bool} {right : List Symbol}
    (notWord : kindAmong heads right ≠ .terminal) (notUnit : kindAmong heads right ≠ .unit) :
    2 ≤ right.length := by
  match right with
  | [] => exact absurd rfl notWord
  | [a] =>
    rw [kindAmong] at notWord notUnit
    split at notWord
    · exact absurd rfl notWord
    · next h => exact absurd (if_neg h) notUnit
  | a :: b :: rest => rw [List.length_cons, List.length_cons]; omega

/-- With two right symbols or more a rule is neither for a word nor a unit rule. -/
theorem kindAmong_of_two_le {heads : Symbol → Bool} {right : List Symbol}
    (h : 2 ≤ right.length) :
    kindAmong heads right ≠ .terminal ∧ kindAmong heads right ≠ .unit := by
  match right with
  | [] => simp at h
  | [a] => simp at h
  | [a, b] => exact ⟨RuleKind.noConfusion, RuleKind.noConfusion⟩
  | a :: b :: c :: rest => exact ⟨RuleKind.noConfusion, RuleKind.noConfusion⟩

/-- The kind of a rule fits the length of its right side. -/
structure Fits (r : Rule W) : Prop where
  /-- There is a right symbol. -/
  filled : r.right ≠ []
  /-- Binary rules are those with two right symbols. -/
  binary : r.kind = .binary ↔ r.right.length = 2
  /-- Long rules are those with three right symbols or more. -/
  long : r.kind = .long ↔ 3 ≤ r.right.length

/-- A rule for a word that fits has the word alone on its right side. -/
theorem Fits.right_eq_of_terminal {r : Rule W} (h : r.Fits) (kind : r.kind = .terminal)
    {word : Symbol} (head : r.right.head? = some word) : r.right = [word] := by
  have notBinary : r.right.length ≠ 2 := fun two => by
    have := h.binary.mpr two
    rw [kind] at this
    cases this
  have notLong : ¬3 ≤ r.right.length := fun three => by
    have := h.long.mpr three
    rw [kind] at this
    cases this
  match hright : r.right with
  | [] => exact absurd hright h.filled
  | [a] =>
    rw [hright, List.head?_cons] at head
    rw [Option.some.inj head]
  | a :: b :: rest =>
    rw [hright, List.length_cons, List.length_cons] at notBinary notLong
    omega

/-- A unit rule that fits expands into a single symbol. -/
theorem Fits.exists_right_of_unit {r : Rule W} (h : r.Fits) (unit : r.kind = .unit) :
    ∃ a, r.right = [a] := by
  have filled := List.length_pos_iff.mpr h.filled
  have notBinary : r.right.length ≠ 2 := fun two =>
    RuleKind.noConfusion (unit.symm.trans (h.binary.mpr two))
  have notLong : ¬3 ≤ r.right.length := fun three =>
    RuleKind.noConfusion (unit.symm.trans (h.long.mpr three))
  exact List.length_eq_one_iff.mp (by omega)

/-- A classified rule with a right side fits. -/
theorem fits_of_kindAmong {r : Rule W} {heads : Symbol → Bool} (filled : r.right ≠ [])
    (kind : r.kind = kindAmong heads r.right) : r.Fits := by
  refine ⟨filled, ?_, ?_⟩ <;> rw [kind]
  · match h : r.right with
    | [] => exact absurd h filled
    | [a] => rw [kindAmong]; split <;> simp
    | [a, b] => simp [kindAmong, RuleKind.ofLength]
    | a :: b :: c :: rest => simp [kindAmong, RuleKind.ofLength]
  · match h : r.right with
    | [] => exact absurd h filled
    | [a] => rw [kindAmong]; split <;> simp
    | [a, b] => simp [kindAmong, RuleKind.ofLength]
    | a :: b :: c :: rest => simp [kindAmong, RuleKind.ofLength]

end Rule

namespace Store

variable {W : Type} {s : Store W}

/-- Every rule has the kind that its right side has among some left symbols. -/
def Classified (s : Store W) (heads : Symbol → Bool) : Prop :=
  ∀ r ∈ s.rules, r.kind = Rule.kindAmong heads r.right

/-- When assigning kinds changes nothing, the rules have the kinds assigned. -/
theorem classified_of_assignKinds (h : s.assignKinds = s) :
    s.Classified (s.rules.map Rule.left).contains := by
  have same : s.rules.map (Rule.assignKind (s.rules.map Rule.left).contains) = s.rules := by
    rw [← rules_mapRules]
    exact congrArg Store.rules h
  have each := List.map_inj_left.mp (same.trans (List.map_id s.rules).symm)
  intro r hr
  exact (congrArg Rule.kind (each r hr)).symm

/-- A change that leaves every stored rule as it is leaves a listed store as it is. -/
theorem Listed.mapRules_eq_self (h : s.Listed) {f : Rule W → Rule W}
    (same : ∀ r ∈ s.rules, f r = r) : s.mapRules f = s := by
  have slots : s.slots.map (Option.map f) = s.slots := by
    apply Array.ext_getElem?
    intro id
    rw [Array.getElem?_map]
    match hslot : s.slots[id]? with
    | none => rfl
    | some none => rfl
    | some (some r) =>
      have stored : r ∈ s.rules := h.mem_rules.mpr ⟨id, by rw [rule?, hslot]; rfl⟩
      rw [Option.map_some, Option.map_some, same r stored]
  rw [mapRules, slots]

/-- Assigning kinds changes nothing when the rules have the kinds assigned. -/
theorem Listed.assignKinds_eq_self (h : s.Listed)
    (classified : s.Classified (s.rules.map Rule.left).contains) : s.assignKinds = s := by
  apply h.mapRules_eq_self
  intro r hr
  rw [Rule.assignKind, ← classified r hr]

/-- Assigning kinds keeps a store indexed. -/
theorem Indexed.assignKinds (h : s.Indexed) : s.assignKinds.Indexed :=
  h.mapRules fun _ => rfl

/-- A rule of a store with assigned kinds was stored before, with its kind assigned since. -/
theorem exists_of_mem_assignKinds {q : Rule W} (hq : q ∈ s.assignKinds.rules) :
    ∃ p ∈ s.rules, q = p.assignKind (s.rules.map Rule.left).contains := by
  rw [assignKinds, rules_mapRules] at hq
  obtain ⟨p, hp, rfl⟩ := List.mem_map.mp hq
  exact ⟨p, hp, rfl⟩

/-- Assigning kinds a second time changes nothing. -/
theorem assignKinds_assignKinds (s : Store W) : s.assignKinds.assignKinds = s.assignKinds := by
  have heads : s.assignKinds.rules.map Rule.left = s.rules.map Rule.left := by
    rw [assignKinds, rules_mapRules, List.map_map]
    rfl
  have slots : ∀ slot : Option (Rule W),
      (slot.map (Rule.assignKind (s.rules.map Rule.left).contains)).map
        (Rule.assignKind (s.rules.map Rule.left).contains) =
      slot.map (Rule.assignKind (s.rules.map Rule.left).contains) := by
    intro slot
    cases slot <;> rfl
  rw [assignKinds, heads, mapRules, assignKinds, mapRules]
  dsimp only
  rw [Array.map_map]
  congr 1
  exact Array.map_congr_left fun slot _ => slots slot

end Store

end Constituency
