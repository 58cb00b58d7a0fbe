import Constituency.Rule.Order

/-!
# Laws of the orders of rules

Both orders are total, and two rules compare equal exactly when they have the
same sides. A lookup compares every rule with one key, a left symbol or a right
side. It may bisect a list only when its key never steps back along the order of
that list; `Along` names this, and the lemmas give it for each list and key of
the store.
-/

namespace Constituency

instance : Std.TransOrd Symbol :=
  inferInstanceAs (Std.TransCmp (compareOn Symbol.name))

instance : Std.LawfulEqOrd Symbol where
  eq_of_compare {a b} h := by
    have hname : a.name = b.name := Std.LawfulEqOrd.eq_of_compare h
    cases a
    cases b
    exact congrArg Symbol.mk hname

/-- Two values are equal when they compare equal. -/
theorem beq_eq_compare {α : Type} [BEq α] [LawfulBEq α] [Ord α] [Std.LawfulEqOrd α] (a b : α) :
    (a == b) = (compare a b == .eq) := by
  rw [Bool.eq_iff_iff, beq_iff_eq, beq_iff_eq, Std.LawfulEqCmp.compare_eq_iff_eq]

namespace Rule

variable {W : Type}

/-- Two rules expand one symbol into one right side; kind and weight may differ. -/
def SameSides (a b : Rule W) : Prop :=
  a.left = b.left ∧ a.right = b.right

/-- Rules have the same sides as themselves. -/
theorem SameSides.refl (a : Rule W) : a.SameSides a :=
  ⟨rfl, rfl⟩

/-- Having the same sides does not depend on the order of the two rules. -/
theorem SameSides.symm {a b : Rule W} (h : a.SameSides b) : b.SameSides a :=
  ⟨h.1.symm, h.2.symm⟩

/-- Rules that share their sides with one rule share them with each other. -/
theorem SameSides.trans {a b c : Rule W} (first : a.SameSides b) (second : b.SameSides c) :
    a.SameSides c :=
  ⟨first.1.trans second.1, first.2.trans second.2⟩

instance : Std.TransCmp (compareLeftFirst (W := W)) :=
  inferInstanceAs (Std.TransCmp (compareLex (compareOn left) (compareOn right)))

instance : Std.TransCmp (compareRightFirst (W := W)) :=
  inferInstanceAs (Std.TransCmp (compareLex (compareOn right) (compareOn left)))

/-- The order of the left list ties exactly the rules with the same sides. -/
theorem compareLeftFirst_eq_eq {a b : Rule W} : compareLeftFirst a b = .eq ↔ a.SameSides b := by
  rw [compareLeftFirst, Ordering.then_eq_eq, compareLeft, compareRight,
    Std.LawfulEqCmp.compare_eq_iff_eq, Std.LawfulEqCmp.compare_eq_iff_eq]
  rfl

/-- The order of the right list ties exactly the rules with the same sides. -/
theorem compareRightFirst_eq_eq {a b : Rule W} :
    compareRightFirst a b = .eq ↔ a.SameSides b := by
  rw [compareRightFirst, Ordering.then_eq_eq, compareLeft, compareRight,
    Std.LawfulEqCmp.compare_eq_iff_eq, Std.LawfulEqCmp.compare_eq_iff_eq]
  exact And.comm

/-- A key that never steps back along an order: what comes before a rule that is below is below,
and what comes before a rule that is not above is not above. -/
structure Along (order : Rule W → Rule W → Ordering) (key : Rule W → Ordering) : Prop where
  /-- Rules before one that is below are below. -/
  below : ∀ {a b}, order a b = .lt → key b = .lt → key a = .lt
  /-- Rules before one that is not above are not above. -/
  notAbove : ∀ {a b}, order a b = .lt → key b ≠ .gt → key a ≠ .gt

/-- Comparing with one rule never steps back along the order itself. -/
theorem along_self (order : Rule W → Rule W → Ordering) [Std.TransCmp order] (r : Rule W) :
    Along order (order · r) where
  below first second := Std.TransCmp.lt_trans first second
  notAbove {a b} first second := by
    have hle : (order b r).isLE := Ordering.ne_gt_iff_isLE.mp second
    have hlt : order a r = .lt := Std.TransCmp.lt_of_lt_of_isLE first hle
    rw [hlt]
    decide

/-- A primary key never steps back along an order that compares by it first. -/
theorem along_of_then {α : Type} [Ord α] [Std.TransOrd α] (side : Rule W → α)
    (order second : Rule W → Rule W → Ordering)
    (hfirst : ∀ a b, order a b = (compare (side a) (side b)).then (second a b)) (x : α) :
    Along order (fun r => compare (side r) x) := by
  have hle : ∀ {a b}, order a b = .lt → (compare (side a) (side b)).isLE := by
    intro a b h
    rw [hfirst, Ordering.then_eq_lt] at h
    rcases h with h | h
    · rw [h]; rfl
    · rw [h.1]; rfl
  constructor
  · intro a b h hb
    exact Std.TransCmp.lt_of_isLE_of_lt (hle h) hb
  · intro a b h hb
    exact Ordering.ne_gt_iff_isLE.mpr
      (Std.TransCmp.isLE_trans (hle h) (Ordering.ne_gt_iff_isLE.mp hb))

/-- The left symbol never steps back along the left list. -/
theorem along_left (x : Symbol) : Along (compareLeftFirst (W := W)) (compare ·.left x) :=
  along_of_then left compareLeftFirst compareRight (fun _ _ => rfl) x

/-- The right side never steps back along the right list. -/
theorem along_right (x : List Symbol) : Along (compareRightFirst (W := W)) (compare ·.right x) :=
  along_of_then right compareRightFirst compareLeft (fun _ _ => rfl) x

/-- Comparing beginnings of lists first changes no comparison of lists. -/
theorem compare_take_then {α : Type} [Ord α] (n : Nat) (xs ys : List α) :
    (compare (xs.take n) (ys.take n)).then (compare xs ys) = compare xs ys := by
  induction n generalizing xs ys with
  | zero => rfl
  | succ n ih =>
    match xs, ys with
    | [], [] => rfl
    | [], y :: ys => rfl
    | x :: xs, [] => rfl
    | x :: xs, y :: ys =>
      rw [List.take_succ_cons, List.take_succ_cons, List.compare_cons_cons, List.compare_cons_cons]
      cases compare x y with
      | lt => rfl
      | eq => exact ih xs ys
      | gt => rfl

/-- The beginning of the right side never steps back along the right list. -/
theorem along_take (n : Nat) (x : List Symbol) :
    Along (compareRightFirst (W := W)) (fun r => compare (r.right.take n) x) := by
  refine along_of_then (·.right.take n) compareRightFirst compareRightFirst (fun a b => ?_) x
  rw [compareRightFirst, compareRight, ← Ordering.then_assoc, compare_take_then]

end Rule

end Constituency
