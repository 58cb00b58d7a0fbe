import Constituency.Proofs.NormalForm.Elimination
import Mathlib.Algebra.Group.Nat.Defs

/-!
# Unit elimination computes the unit closure

A category unfolds into a rule by a chain of unit rules from the category to the
left symbol of the rule; the weights along the chain multiply. After unit
elimination a rule that is no unit rule is there exactly when its left symbol
unfolded into a rule with that right side and kind. Its weight is the product
along one such chain, but of several chains it need not be the best: a composed
rule is dropped when its sides are stored already.
-/

namespace Constituency

/-- A value of weights that multiplies when one rule is applied inside another. -/
structure Multiplicative {W M : Type} [Weight W] [Monoid M] (value : W → M) : Prop where
  /-- A composed weight has the product of the values. -/
  compose : ∀ a b, value (Weight.compose a b) = value a * value b
  /-- The rule of a helper symbol changes no product. -/
  neutral : value Weight.neutral = 1

/-- Weights can be passed over. -/
theorem multiplicative_one {W : Type} [Weight W] : Multiplicative fun _ : W => (1 : Nat) :=
  ⟨fun _ _ => rfl, rfl⟩

namespace Store

variable {W M : Type} [Monoid M] {value : W → M} {s t : Store W}

/-- A category unfolds by unit rules into a rule that is none; the value is that of all weights
along the way. -/
inductive Unfolds (s : Store W) (value : W → M) : Symbol → Rule W → M → Prop
  /-- The left symbol of a rule unfolds into the rule. -/
  | rule {r : Rule W} (stored : r ∈ s.rules) (other : r.kind ≠ .unit) :
      Unfolds s value r.left r (value r.weight)
  /-- A unit rule is followed by what its category unfolds into. -/
  | unit {u r : Rule W} {a : Symbol} {m : M} (stored : u ∈ s.rules) (kind : u.kind = .unit)
      (right : u.right = [a]) (rest : Unfolds s value a r m) :
      Unfolds s value u.left r (value u.weight * m)

/-- What is unfolded into is a stored rule and no unit rule. -/
theorem Unfolds.target {a : Symbol} {r : Rule W} {m : M} (h : s.Unfolds value a r m) :
    r ∈ s.rules ∧ r.kind ≠ .unit := by
  induction h with
  | rule stored other => exact ⟨stored, other⟩
  | unit _ _ _ _ ih => exact ih

/-- A property of all weights that products inherit is one of all chains. -/
theorem Unfolds.admits_value (admits : M → Prop) (weights : ∀ r ∈ s.rules, admits (value r.weight))
    (mul : ∀ {m n}, admits m → admits n → admits (m * n)) {a : Symbol} {r : Rule W} {m : M}
    (h : s.Unfolds value a r m) : admits m := by
  induction h with
  | rule stored => exact weights _ stored
  | unit stored _ _ _ ih => exact mul (weights _ stored) ih

/-- Where all unit rules are loops, a category unfolds into its own rules only. -/
theorem Unfolds.left_eq (loops : ∀ u ∈ s.rules, u.kind = .unit → u.right = [u.left]) {a : Symbol}
    {r : Rule W} {m : M} (h : s.Unfolds value a r m) : r.left = a := by
  induction h with
  | rule => rfl
  | unit stored kind right _ ih =>
    have same := (loops _ stored kind).symm.trans right
    rw [ih, ← List.singleton_inj.mp same]

/-- A category that a unit rule asks for stands for unit rules. -/
theorem kindAmong_of_asked {heads : Symbol → Bool} {target : Symbol}
    (classified : s.Classified heads)
    (asked : ∃ u ∈ s.rules, u.kind = .unit ∧ u.right.head? = some target) :
    Rule.kindAmong heads [target] = .unit := by
  obtain ⟨u, hu, kind, head⟩ := asked
  have unit := (classified u hu).symm.trans kind
  obtain ⟨a, right⟩ := Rule.exists_of_kindAmong_unit unit
  rw [right, List.head?_cons, Option.some_inj] at head
  rw [← head, ← right, unit]

section Step

variable [Weight W] {target : Symbol} {heads : Symbol → Bool}

/-- What a category unfolds into after an expansion it unfolded into before, with the same
value. -/
theorem Expanded.unfolds_before (h : s.Expanded t target) (mult : Multiplicative value)
    (classified : s.Classified heads) (unit : Rule.kindAmong heads [target] = .unit) {a : Symbol}
    {r : Rule W} {m : M} (hr : t.Unfolds value a r m) :
    ∃ q, s.Unfolds value a q m ∧ q.right = r.right ∧ q.kind = r.kind := by
  have kindOf : ∀ u ∈ s.rules, u.right = [target] → u.kind = .unit := fun u hu right => by
    rw [classified u hu, right, unit]
  induction hr with
  | @rule r stored other =>
    rcases ((h.mem r).mp stored).2 with old | ⟨⟨u, hu, i, hi, right, rfl, rfl⟩, -⟩
    · exact ⟨r, .rule old other, rfl, rfl⟩
    · refine ⟨i, ?_, rfl, rfl⟩
      rw [show value (u.chain i).weight = value u.weight * value i.weight from mult.compose _ _]
      exact .unit hu (kindOf u hu right) right (.rule hi other)
  | @unit v r a m stored kind right rest ih =>
    obtain ⟨q, hq, sameRight, sameKind⟩ := ih
    rcases ((h.mem v).mp stored).2 with old | ⟨⟨u, hu, i, hi, rightU, rfl, rfl⟩, -⟩
    · exact ⟨q, .unit old kind right hq, sameRight, sameKind⟩
    · refine ⟨q, ?_, sameRight, sameKind⟩
      rw [show value (u.chain i).weight = value u.weight * value i.weight from mult.compose _ _,
        mul_assoc]
      exact .unit hu (kindOf u hu rightU) rightU (.unit hi kind right hq)

/-- Whatever the expanded category has a rule for afterwards, the left symbols of the replaced
rules have a rule for, too. -/
theorem Expanded.exists_rule_of_target (h : s.Expanded t target)
    (classified : s.Classified heads) {u i : Rule W} (hu : u ∈ s.rules)
    (right : u.right = [target]) (hi : i ∈ t.rules) (left : i.left = target) :
    ∃ q ∈ t.rules, q.left = u.left ∧ q.right = i.right ∧ q.kind = i.kind := by
  obtain ⟨hne, from_old⟩ := (h.mem i).mp hi
  have old : i ∈ s.rules := by
    rcases from_old with old | ⟨⟨w, -, j, hj, -, leftJ, rfl⟩, new⟩
    · exact old
    · exact absurd ⟨leftJ.trans left.symm, rfl⟩ (new j hj)
  by_cases there : ∃ q ∈ s.rules, q.SameSides (u.chain i)
  · obtain ⟨q, hq, same⟩ := there
    have sameRight : q.right = i.right := same.2
    refine ⟨q, (h.mem q).mpr ⟨sameRight ▸ hne, Or.inl hq⟩, same.1, sameRight, ?_⟩
    rw [classified q hq, classified i old, sameRight]
  · have new : ∀ q ∈ s.rules, ¬q.SameSides (u.chain i) := fun q hq same => there ⟨q, hq, same⟩
    exact ⟨u.chain i, (h.mem _).mpr ⟨hne, Or.inr ⟨⟨u, hu, i, old, right, left, rfl⟩, new⟩⟩,
      rfl, rfl, rfl⟩

/-- What a category unfolds into before an expansion it unfolds into afterwards, up to weights. -/
theorem Expanded.unfolds_after (h : s.Expanded t target) (classified : s.Classified heads)
    (unit : Rule.kindAmong heads [target] = .unit) {a : Symbol} {r : Rule W} {m : M}
    (hr : s.Unfolds value a r m) :
    ∃ q n, t.Unfolds value a q n ∧ q.right = r.right ∧ q.kind = r.kind := by
  induction hr with
  | @rule r stored other =>
    have hne : r.right ≠ [target] := fun right => other (by rw [classified r stored, right, unit])
    exact ⟨r, _, .rule ((h.mem r).mpr ⟨hne, Or.inl stored⟩) other, rfl, rfl⟩
  | @unit u r a m stored kind right rest ih =>
    obtain ⟨q, n, hq, sameRight, sameKind⟩ := ih
    by_cases there : a = target
    -- the unit rule is replaced: its left symbol takes over the next rule of the chain
    · subst there
      cases hq with
      | @rule q storedQ other =>
        obtain ⟨p, hp, leftP, rightP, kindP⟩ :=
          h.exists_rule_of_target classified stored right storedQ rfl
        refine ⟨p, value p.weight, ?_, rightP.trans sameRight, kindP.trans sameKind⟩
        rw [← leftP]
        exact .rule hp (kindP ▸ other)
      | @unit w q b n storedW kindW rightW rest =>
        obtain ⟨p, hp, leftP, rightP, kindP⟩ :=
          h.exists_rule_of_target classified stored right storedW rfl
        refine ⟨q, value p.weight * n, ?_, sameRight, sameKind⟩
        rw [← leftP]
        exact .unit hp (kindP.trans kindW) (rightP.trans rightW) rest
    · have hne : u.right ≠ [target] := fun rightU =>
        there (List.singleton_inj.mp (right.symm.trans rightU))
      have stays : u ∈ t.rules := (h.mem u).mpr ⟨hne, Or.inl stored⟩
      exact ⟨q, value u.weight * n, .unit stays kind right hq, sameRight, sameKind⟩

end Step

section Run

variable [Weight W] {heads : Symbol → Bool}

/-- What a category unfolds into at the end it unfolded into at the start, with the same value. -/
theorem Expansions.unfolds_before (h : Expansions s t) (mult : Multiplicative value)
    (classified : s.Classified heads) {a : Symbol} {r : Rule W} {m : M}
    (hr : t.Unfolds value a r m) :
    ∃ q, s.Unfolds value a q m ∧ q.right = r.right ∧ q.kind = r.kind := by
  induction h with
  | done => exact ⟨r, hr, rfl, rfl⟩
  | step asked first _ ih =>
    obtain ⟨q, hq, sameRight, sameKind⟩ := ih (first.classified classified) hr
    obtain ⟨p, hp, rightP, kindP⟩ :=
      first.unfolds_before mult classified (kindAmong_of_asked classified asked) hq
    exact ⟨p, hp, rightP.trans sameRight, kindP.trans sameKind⟩

/-- What a category unfolds into at the start it unfolds into at the end, up to weights. -/
theorem Expansions.unfolds_after (h : Expansions s t) (classified : s.Classified heads)
    {a : Symbol} {r : Rule W} {m : M} (hr : s.Unfolds value a r m) :
    ∃ q n, t.Unfolds value a q n ∧ q.right = r.right ∧ q.kind = r.kind := by
  induction h generalizing r m with
  | done => exact ⟨r, m, hr, rfl, rfl⟩
  | step asked first _ ih =>
    obtain ⟨q, n, hq, sameRight, sameKind⟩ :=
      first.unfolds_after classified (kindAmong_of_asked classified asked) hr
    obtain ⟨p, k, hp, rightP, kindP⟩ := ih (first.classified classified) hq
    exact ⟨p, k, hp, rightP.trans sameRight, kindP.trans sameKind⟩

/-- The rules of a store after unit elimination are the unit closure of the rules before. -/
structure UnitClosed (s t : Store W) (value : W → M) : Prop where
  /-- A rule has its weight from a chain that its left symbol unfolded along. -/
  before : ∀ r ∈ t.rules, r.kind ≠ .unit →
    ∃ q, s.Unfolds value r.left q (value r.weight) ∧ q.right = r.right ∧ q.kind = r.kind
  /-- Whatever a symbol unfolded into, it has a rule for. -/
  after : ∀ a r m, s.Unfolds value a r m →
    ∃ q ∈ t.rules, q.left = a ∧ q.right = r.right ∧ q.kind = r.kind

/-- A chain of expansions that leaves loops at most computes the unit closure. -/
theorem Expansions.unitClosed (h : Expansions s t) (mult : Multiplicative value)
    (classified : s.Classified heads)
    (loops : ∀ u ∈ t.rules, u.kind = .unit → u.right = [u.left]) : s.UnitClosed t value := by
  constructor
  · intro r hr other
    exact h.unfolds_before mult classified (.rule hr other)
  · intro a r m hr
    obtain ⟨q, n, hq, sameRight, sameKind⟩ := h.unfolds_after classified hr
    exact ⟨q, hq.target.1, hq.left_eq loops, sameRight, sameKind⟩

end Run

end Store

end Constituency
