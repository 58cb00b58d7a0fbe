/-!
# Searching sorted arrays

A comparison that never steps back along an array (less, then equal, then
greater) cuts it into three consecutive parts. `lowerBound` finds a cut by
bisection, `run` is the middle part and `position?` its first place.
-/

namespace Constituency.Sorted

variable {α : Type}

/-- Bisects the places from `lo` up to `hi` for the first element that is not below. -/
def bisect (below : α → Bool) (xs : Array α) (lo hi : Nat) (h : hi ≤ xs.size) : Nat :=
  if hlt : lo < hi then
    let mid := lo + (hi - lo) / 2
    have hmid : mid < xs.size := by omega
    if below xs[mid] then bisect below xs (mid + 1) hi h
    else bisect below xs lo mid (by omega)
  else lo
termination_by hi - lo

/-- The number of leading elements that are below, when all those that are below lead. -/
def lowerBound (below : α → Bool) (xs : Array α) : Nat :=
  bisect below xs 0 xs.size (Nat.le_refl _)

/-- The stretch of elements that compare equal. -/
def run (compare : α → Ordering) (xs : Array α) : Array α :=
  xs.extract (lowerBound (compare · == .lt) xs) (lowerBound (compare · != .gt) xs)

/-- The place of the first element that compares equal. -/
def position? (compare : α → Ordering) (xs : Array α) : Option Nat :=
  let i := lowerBound (compare · == .lt) xs
  match xs[i]? with
  | some x => if compare x == .eq then some i else none
  | none => none

end Constituency.Sorted
