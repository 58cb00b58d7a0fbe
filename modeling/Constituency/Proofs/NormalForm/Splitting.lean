import Constituency.NormalForm.LongRules
import Constituency.Proofs.NormalForm.Collapsing
import Constituency.Proofs.Rule.Kinds
import Constituency.Proofs.Store.Renumbering

/-!
# Splitting off one pair

One step of splitting replaces a pair of symbols by a new helper in every long
rule and gives the helper a rule for the pair. As long as the helper occurs
nowhere yet, the rules before can be read off the rules afterwards by writing
the pair for the helper again. On derivations this is splicing: every derivation
before the step comes from exactly one afterwards by splicing the helper out,
and the product of the weights is the same.
-/

namespace Constituency

variable {W : Type}

/-- Writes a pair of symbols for every helper. -/
def unmerge (first second new : Symbol) (symbols : List Symbol) : List Symbol :=
  symbols.flatMap fun a => if a = new then [first, second] else [a]

/-- The pair is written list by list. -/
theorem unmerge_append (first second new : Symbol) (symbols more : List Symbol) :
    unmerge first second new (symbols ++ more) =
      unmerge first second new symbols ++ unmerge first second new more :=
  List.flatMap_append

/-- Another symbol stays. -/
theorem unmerge_cons_of_ne {first second new a : Symbol} (h : a ≠ new) (symbols : List Symbol) :
    unmerge first second new (a :: symbols) = a :: unmerge first second new symbols := by
  rw [unmerge, List.flatMap_cons, if_neg h, unmerge, List.singleton_append]

/-- Without the helper there is nothing to write. -/
theorem unmerge_of_not_mem {first second new : Symbol} {symbols : List Symbol}
    (h : new ∉ symbols) : unmerge first second new symbols = symbols := by
  induction symbols with
  | nil => rfl
  | cons a symbols ih =>
    rw [List.mem_cons, not_or] at h
    rw [unmerge_cons_of_ne (Ne.symm h.1), ih h.2]

/-- For a helper the pair is written. -/
theorem unmerge_cons_new (first second new : Symbol) (symbols : List Symbol) :
    unmerge first second new (new :: symbols) =
      first :: second :: unmerge first second new symbols := by
  rw [unmerge, List.flatMap_cons, if_pos rfl, unmerge]
  rfl

/-- Replacing a pair of neighbours takes them out between what stands before and behind. -/
theorem exists_of_mergePair? {first second new : Symbol} {right replaced : List Symbol}
    (h : mergePair? first second new right = some replaced) :
    ∃ front back, right = front ++ first :: second :: back ∧ replaced = front ++ new :: back := by
  fun_induction mergePair? first second new right generalizing replaced with
  | case1 a b rest hab =>
    obtain ⟨rfl, rfl⟩ := hab
    cases h
    exact ⟨[], rest, rfl, rfl⟩
  | case2 a b rest hab ih =>
    obtain ⟨more, hmore, rfl⟩ := Option.map_eq_some_iff.mp h
    obtain ⟨front, back, hright, rfl⟩ := ih hmore
    exact ⟨a :: front, back, by rw [hright, List.cons_append], rfl⟩
  | case3 => cases h

namespace Store

/-! ## Rules after a step -/

/-- What replacing a pair does to a rule: nothing, or it is long and the pair gives way to the
helper. -/
theorem mergeLong_cases (first second new : Symbol) (r : Rule W) :
    mergeLong first second new r = r ∨
      (r.kind = .long ∧ ∃ front back, r.right = front ++ first :: second :: back ∧
        mergeLong first second new r =
          { r with
            right := front ++ new :: back
            kind := if (front ++ new :: back).length = 2 then .binary else r.kind }) := by
  rw [mergeLong]
  split
  · next kind =>
    rw [Rule.mergePair]
    split
    · next right hright =>
      obtain ⟨front, back, hfront, rfl⟩ := exists_of_mergePair? hright
      exact Or.inr ⟨kind, front, back, hfront, rfl⟩
    · exact Or.inl rfl
  · exact Or.inl rfl

/-- Replacing a pair keeps the left symbol. -/
theorem left_mergeLong (first second new : Symbol) (r : Rule W) :
    (mergeLong first second new r).left = r.left := by
  rcases mergeLong_cases first second new r with h | ⟨-, front, back, -, h⟩ <;> rw [h]

/-- Replacing a pair keeps the weight. -/
theorem weight_mergeLong (first second new : Symbol) (r : Rule W) :
    (mergeLong first second new r).weight = r.weight := by
  rcases mergeLong_cases first second new r with h | ⟨-, front, back, -, h⟩ <;> rw [h]

/-- A rule that branches and fits still branches. -/
theorem two_le_length_mergeLong {first second new : Symbol} {r : Rule W} (fits : r.Fits)
    (two : 2 ≤ r.right.length) : 2 ≤ (mergeLong first second new r).right.length := by
  rcases mergeLong_cases first second new r with same | ⟨kind, front, back, hright, same⟩
  · rw [same]
    exact two
  · have long := fits.long.mp kind
    rw [hright] at long
    rw [same]
    simp only [List.length_append, List.length_cons] at long ⊢
    omega

/-- A rule that is not long stays. -/
theorem mergeLong_of_ne {first second new : Symbol} {r : Rule W} (h : r.kind ≠ .long) :
    mergeLong first second new r = r := by
  rw [mergeLong, if_neg h]

/-- Only a rule for a word becomes one. -/
theorem mergeLong_eq_self_of_terminal {first second new : Symbol} {r : Rule W}
    (h : (mergeLong first second new r).kind = .terminal) : mergeLong first second new r = r := by
  rcases mergeLong_cases first second new r with same | ⟨kind, front, back, -, same⟩
  · exact same
  · rw [same] at h
    dsimp only at h
    split at h
    · cases h
    · rw [kind] at h
      cases h

/-- A right side that lacked the helper is read off by writing the pair again. -/
theorem unmerge_mergeLong {first second new : Symbol} {r : Rule W} (fresh : new ∉ r.right) :
    unmerge first second new (mergeLong first second new r).right = r.right := by
  rcases mergeLong_cases first second new r with h | ⟨-, front, back, hright, h⟩
  · rw [h, unmerge_of_not_mem fresh]
  · rw [hright, List.mem_append, List.mem_cons, List.mem_cons, not_or, not_or, not_or] at fresh
    rw [h, hright, unmerge_append, unmerge_cons_new, unmerge_of_not_mem fresh.1,
      unmerge_of_not_mem fresh.2.2.2]

/-- Replacing a pair makes no right side longer. -/
theorem length_mergeLong_le (first second new : Symbol) (r : Rule W) :
    (mergeLong first second new r).right.length ≤ r.right.length := by
  rcases mergeLong_cases first second new r with h | ⟨-, front, back, hright, h⟩
  · exact Nat.le_of_eq (by rw [h])
  · rw [h, hright]
    simp only [List.length_append, List.length_cons]
    omega

/-- Replacing a pair in a rule that fits leaves a rule that fits. -/
theorem fits_mergeLong {first second new : Symbol} {r : Rule W} (h : r.Fits) :
    (mergeLong first second new r).Fits := by
  rcases mergeLong_cases first second new r with same | ⟨kind, front, back, hright, same⟩
  · rw [same]
    exact h
  · have long := h.long.mp kind
    rw [hright] at long
    rw [same]
    simp only [List.length_append, List.length_cons] at long
    constructor
    · exact List.append_ne_nil_of_right_ne_nil front (List.cons_ne_nil new back)
    all_goals
      dsimp only
      simp only [List.length_append, List.length_cons, kind]
      split <;> simp <;> omega

/-- Replacing a pair leaves a right symbol. -/
theorem right_mergeLong_ne_nil {first second new : Symbol} {r : Rule W} (h : r.right ≠ []) :
    (mergeLong first second new r).right ≠ [] := by
  rcases mergeLong_cases first second new r with same | ⟨-, front, back, -, same⟩
  · rw [same]
    exact h
  · rw [same]
    exact List.append_ne_nil_of_right_ne_nil front (List.cons_ne_nil new back)

/-! ## Stores after a step -/

/-- The symbols of a stored rule are symbols of the store. -/
theorem mem_symbols {s : Store W} {r : Rule W} (hr : r ∈ s.rules) {a : Symbol}
    (ha : a ∈ r.left :: r.right) :
    a ∈ s.symbols :=
  List.mem_flatMap.mpr ⟨r, hr, ha⟩

section Step

variable [Weight W] {s : Store W} {first second new : Symbol}

/-- The rule of a helper. -/
def helperRule (first second new : Symbol) : Rule W :=
  ⟨new, [first, second], .binary, Weight.neutral⟩

/-- The rules by number after a step. -/
theorem rule?_splitPair (s : Store W) (first second new : Symbol) (id : RuleNumber) :
    (s.splitPair first second new).rule? id =
      if id = s.slots.size then some (helperRule first second new)
      else (s.rule? id).map (mergeLong first second new) := by
  have size : (s.mapRules (mergeLong first second new)).slots.size = s.slots.size :=
    Array.size_map
  rw [splitPair, rule?_append, size, rule?_mapRules]
  rfl

/-- A step keeps a store listed. -/
theorem Listed.splitPair (h : s.Listed) (first second new : Symbol) :
    (s.splitPair first second new).Listed :=
  (h.mapRules _).append _

/-- The rules after a step, in their order: what becomes of those before, and that of the helper. -/
theorem Listed.rules_splitPair (h : s.Listed) (first second new : Symbol) :
    (s.splitPair first second new).rules =
      s.rules.map (mergeLong first second new) ++ [helperRule first second new] := by
  have appended := (h.mapRules (mergeLong first second new)).rules_append
    (helperRule first second new)
  rw [rules_mapRules] at appended
  exact appended

/-- A rule after a step is that of the helper, or what becomes of one before. -/
theorem Listed.mem_rules_splitPair (h : s.Listed) {r : Rule W} :
    r ∈ (s.splitPair first second new).rules ↔
      r = helperRule first second new ∨ ∃ q ∈ s.rules, r = mergeLong first second new q := by
  rw [h.rules_splitPair, List.mem_append, List.mem_map, List.mem_singleton, or_comm]
  simp only [eq_comm]

/-- A step with a fresh helper keeps rules apart in their sides. -/
theorem DistinctSides.splitPair (apart : s.DistinctSides) (h : s.Listed)
    (fresh : new ∉ s.symbols) : (s.splitPair first second new).DistinctSides := by
  have freshLeft : ∀ {id q}, s.rule? id = some q → q.left ≠ new := fun {id q} hq heq =>
    fresh (mem_symbols (h.mem_rules.mpr ⟨id, hq⟩) (heq ▸ List.mem_cons_self))
  have freshRight : ∀ {id q}, s.rule? id = some q → new ∉ q.right := fun {id q} hq hmem =>
    fresh (mem_symbols (h.mem_rules.mpr ⟨id, hq⟩) (List.mem_cons_of_mem _ hmem))
  intro i j a b ha hb same
  rw [rule?_splitPair] at ha hb
  split at ha
  · next hi =>
    cases ha
    split at hb
    · next hj => rw [hi, hj]
    · obtain ⟨q, hq, rfl⟩ := Option.map_eq_some_iff.mp hb
      have left := same.1
      rw [left_mergeLong] at left
      exact absurd left.symm (freshLeft hq)
  · obtain ⟨p, hp, rfl⟩ := Option.map_eq_some_iff.mp ha
    split at hb
    · cases hb
      have left := same.1
      rw [left_mergeLong] at left
      exact absurd left (freshLeft hp)
    · obtain ⟨q, hq, rfl⟩ := Option.map_eq_some_iff.mp hb
      have left := same.1
      have right := congrArg (unmerge first second new) same.2
      rw [left_mergeLong, left_mergeLong] at left
      rw [unmerge_mergeLong (freshRight hp), unmerge_mergeLong (freshRight hq)] at right
      exact apart i j p q hp hq ⟨left, right⟩

/-- The rule of a helper fits. -/
theorem fits_helperRule (first second new : Symbol) :
    (helperRule (W := W) first second new).Fits :=
  ⟨List.cons_ne_nil _ _, by simp [helperRule], by simp [helperRule]⟩

/-- A step leaves no right side empty. -/
theorem Listed.filled_splitPair (h : s.Listed) (filled : s.Filled) (first second new : Symbol) :
    (s.splitPair first second new).Filled := by
  intro r hr
  rcases h.mem_rules_splitPair.mp hr with rfl | ⟨q, hq, rfl⟩
  · exact (fits_helperRule first second new).filled
  · exact right_mergeLong_ne_nil (filled q hq)

/-- A step leaves rules that fit. -/
theorem Listed.fits_splitPair (h : s.Listed) (fits : ∀ r ∈ s.rules, r.Fits)
    (first second new : Symbol) : ∀ r ∈ (s.splitPair first second new).rules, r.Fits := by
  intro r hr
  rcases h.mem_rules_splitPair.mp hr with rfl | ⟨q, hq, rfl⟩
  · exact fits_helperRule first second new
  · exact fits_mergeLong (fits q hq)

/-- A step brings in no symbol but the helper. -/
theorem Listed.mem_symbols_splitPair (h : s.Listed) {r : Rule W} (hr : r ∈ s.rules)
    {rest : List Symbol} (right : r.right = first :: second :: rest) {a : Symbol}
    (ha : a ∈ (s.splitPair first second new).symbols) : a = new ∨ a ∈ s.symbols := by
  obtain ⟨p, hp, hap⟩ := List.mem_flatMap.mp ha
  rcases h.mem_rules_splitPair.mp hp with rfl | ⟨q, hq, rfl⟩
  · simp only [helperRule, List.mem_cons, List.not_mem_nil, or_false] at hap
    rcases hap with rfl | rfl | rfl
    · exact Or.inl rfl
    · exact Or.inr (mem_symbols hr (by rw [right]; simp))
    · exact Or.inr (mem_symbols hr (by rw [right]; simp))
  · rw [left_mergeLong] at hap
    rcases mergeLong_cases first second new q with same | ⟨-, front, back, hright, same⟩
    · rw [same] at hap
      exact Or.inr (mem_symbols hq hap)
    · rw [same] at hap
      have inside : a = new ∨ a ∈ q.left :: q.right := by
        rw [hright]
        simp only [List.mem_cons, List.mem_append] at hap ⊢
        tauto
      exact inside.imp_right (mem_symbols hq)

end Step

end Store

end Constituency
