import Mathlib.Data.Prod.Lex
import Constituency.Score

/-!
# The ranking of scores

Keeping the better of two scores, again and again, finds a best one when the
order is total. Floating point numbers are not ordered so, since an undefined one
compares with nothing; all others are, both infinities included, and the two zeros
tie. Their order is that of a triple of integers: the kind, the exponent and the
mantissa, the latter two turned round below zero.
-/

open Float.Model (UnpackedFloat)

namespace Constituency.Score

/-! ## Ranked scores -/

/-- Scores that are totally ordered; `sound` tells which scores these are. -/
structure Ranked {S : Type} [Score S] (sound : S → Prop) : Prop where
  /-- Of two scores at most one is better than the other. -/
  asymm {a b : S} (ha : sound a) (hb : sound b) (h : Score.better a b = true) :
    Score.better b a = false
  /-- A score that is no better than a second one is no better than what that is no better than. -/
  trans {a b c : S} (ha : sound a) (hb : sound b) (hc : sound c) (h : Score.better a b = false)
    (h' : Score.better b c = false) : Score.better a c = false
  /-- Two scores tie when neither is better. -/
  ties {a b : S} (ha : sound a) (hb : sound b) (h : Score.better a b = false)
    (h' : Score.better b a = false) : Score.ties a b = true

namespace Ranked

variable {S : Type} [Score S] {sound : S → Prop} {a b c : S}

/-- No score is better than itself. -/
theorem irrefl (ranked : Ranked sound) (ha : sound a) : Score.better a a = false := by
  cases h : Score.better a a with
  | false => rfl
  | true => exact h.symm.trans (ranked.asymm ha ha h)

/-- What is better than a score is better than all that is no better than that score. -/
theorem better_of_not_better (ranked : Ranked sound) (ha : sound a) (hb : sound b) (hc : sound c)
    (h : Score.better a b = true) (h' : Score.better c b = false) : Score.better a c = true := by
  cases worse : Score.better a c with
  | true => rfl
  | false => exact (ranked.trans ha hc hb worse h').symm.trans h

end Ranked

/-! ## Floating point numbers -/

/-- The place of a number in the order: its kind, exponent and mantissa. -/
def rank : UnpackedFloat → Int ×ₗ Int ×ₗ Int
  | .notANumber => toLex (-3, toLex (0, 0))
  | .infinity .negative => toLex (-2, toLex (0, 0))
  | .finite .negative mantissa exponent _ => toLex (-1, toLex (-exponent, -mantissa))
  | .zero _ => toLex (0, toLex (0, 0))
  | .finite .positive mantissa exponent _ => toLex (1, toLex (exponent, mantissa))
  | .infinity .positive => toLex (2, toLex (0, 0))

/-- Turning the signs turns the order round. -/
theorem compare_neg_neg (a b : Int) : compare (-a) (-b) = (compare a b).swap := by
  rw [Std.OrientedOrd.eq_swap (α := Int), Ordering.swap_inj]
  simp only [compare, compareOfLessAndEq]
  grind

/-- Natural numbers compare like the integers they are. -/
theorem compare_natCast (a b : Nat) : compare (a : Int) (b : Int) = compare a b := by
  simp only [compare, compareOfLessAndEq]
  grind

/-- Numbers compare as their ranks do. -/
theorem compare_eq_rank {a b : UnpackedFloat} (ha : a.isNaN = false) (hb : b.isNaN = false) :
    a.compare b = some (compare (rank a) (rank b)) := by
  rcases a with (_ | _) | _ | _ | ⟨_ | _, m, e, _⟩ <;>
    rcases b with (_ | _) | _ | _ | ⟨_ | _, m', e', _⟩
  case finite.positive.finite.positive =>
    change _ = some ((compare e e').then (compare (m : Int) m'))
    rw [compare_natCast]
    rfl
  case finite.negative.finite.negative =>
    change _ = some ((compare (-e) (-e')).then (compare (-(m : Int)) (-m')))
    rw [compare_neg_neg, compare_neg_neg, compare_natCast, ← Ordering.swap_then]
    rfl
  -- numbers of different kinds are told apart by the kind alone
  all_goals first | contradiction | rfl

variable {a b : Float}

/-- The rank of a floating point number. -/
def rankOf (a : Float) : Int ×ₗ Int ×ₗ Int :=
  rank a.toModel.unpack

/-- The smaller of two numbers has the lower rank. -/
theorem lt_iff_rankOf_lt (ha : a.isNaN = false) (hb : b.isNaN = false) :
    a < b ↔ rankOf a < rankOf b := by
  change decide ((a.toModel.unpack.compare b.toModel.unpack == some .lt) = true) = true ↔ _
  rw [compare_eq_rank ha hb, decide_eq_true_iff, beq_iff_eq, Option.some_inj,
    compare_lt_iff_lt, rankOf, rankOf]

/-- A number is at most another one if it does not have the higher rank. -/
theorem le_iff_rankOf_le (ha : a.isNaN = false) (hb : b.isNaN = false) :
    a ≤ b ↔ rankOf a ≤ rankOf b := by
  change decide (Option.any (·.isLE) (a.toModel.unpack.compare b.toModel.unpack) = true) = true ↔ _
  rw [compare_eq_rank ha hb, decide_eq_true_iff, Option.any_some, Ordering.isLE_iff_ne_gt,
    compare_gt_iff_gt, not_lt, rankOf, rankOf]

/-- Numbers are equal if their ranks are. -/
theorem beq_iff_rankOf_eq (ha : a.isNaN = false) (hb : b.isNaN = false) :
    (a == b) = true ↔ rankOf a = rankOf b := by
  change (a.toModel.unpack.compare b.toModel.unpack == some .eq) = true ↔ _
  rw [compare_eq_rank ha hb, beq_iff_eq, Option.some_inj, compare_eq_iff_eq, rankOf, rankOf]

/-- A score is no better than another one if it is at most that one. -/
theorem better_eq_false_iff (ha : a.isNaN = false) (hb : b.isNaN = false) :
    Score.better a b = false ↔ a ≤ b := by
  change decide (b < a) = false ↔ _
  rw [decide_eq_false_iff_not, lt_iff_rankOf_lt hb ha, not_lt, le_iff_rankOf_le ha hb]

/-- All floating point numbers but the undefined one are ranked. -/
theorem ranked_float : Ranked fun a : Float => a.isNaN = false where
  asymm ha hb h := by
    have lower := (lt_iff_rankOf_lt hb ha).mp (of_decide_eq_true h)
    rw [better_eq_false_iff hb ha, le_iff_rankOf_le hb ha]
    exact lower.le
  trans ha hb hc h h' := by
    rw [better_eq_false_iff ha hb, le_iff_rankOf_le ha hb] at h
    rw [better_eq_false_iff hb hc, le_iff_rankOf_le hb hc] at h'
    rw [better_eq_false_iff ha hc, le_iff_rankOf_le ha hc]
    exact h.trans h'
  ties ha hb h h' := by
    rw [better_eq_false_iff ha hb, le_iff_rankOf_le ha hb] at h
    rw [better_eq_false_iff hb ha, le_iff_rankOf_le hb ha] at h'
    exact (beq_iff_rankOf_eq ha hb).mpr (h.antisymm h')

end Constituency.Score
