import Constituency.Proofs.Sorted.Bisection

/-!
# Widening from any place

A run can also be found from inside: a search lands on some element that
compares equal, and the stretch is widened to both sides while the neighbours
are accepted. A search promises no more than to find such an element when there
is one. Wherever it lands, widening gives the run between the two cuts.
-/

namespace Constituency.Sorted

variable {α : Type}

/-- Moves a start down to the front while the element before it is accepted. -/
def widenDown (accepts : α → Bool) (xs : Array α) : Nat → Nat
  | 0 => 0
  | start + 1 =>
    if xs[start]?.any accepts then widenDown accepts xs start else start + 1

/-- Moves a stop up to the end while the element at it is accepted. -/
def widenUp (accepts : α → Bool) (xs : Array α) (stop : Nat) : Nat :=
  if h : stop < xs.size then
    if accepts xs[stop] then widenUp accepts xs (stop + 1) else stop
  else stop
termination_by xs.size - stop

/-- The stretch around a place in which the elements are accepted. -/
def widen (accepts : α → Bool) (xs : Array α) (mid : Nat) : Array α :=
  xs.extract (widenDown accepts xs mid) (widenUp accepts xs (mid + 1))

/-- A search for an element that compares equal; of several such elements it may find any. -/
structure Search (α : Type) where
  /-- The place it lands on. -/
  find : (α → Ordering) → Array α → Option Nat
  /-- What it lands on compares equal. -/
  hit : ∀ {compare : α → Ordering} {xs : Array α} {mid : Nat}, Monotone compare xs.toList →
    find compare xs = some mid → ∃ x, xs[mid]? = some x ∧ compare x = .eq
  /-- Where it finds nothing, nothing compares equal. -/
  miss : ∀ {compare : α → Ordering} {xs : Array α}, Monotone compare xs.toList →
    find compare xs = none → ∀ x ∈ xs.toList, compare x ≠ .eq

/-- The search for the first element that compares equal. -/
def Search.first : Search α where
  find := position?
  hit _ found := compare_of_position? found
  miss monotone none x hx heq := by
    have found := isSome_position? monotone hx heq
    rw [none] at found
    cases found

/-- The places of the accepted elements are those from `low` on and before `high`. -/
structure Between (accepts : α → Bool) (xs : Array α) (low high : Nat) : Prop where
  /-- The places are places of the array. -/
  high_le : high ≤ xs.size
  /-- An element is accepted exactly at those places. -/
  accepted : ∀ i (hi : i < xs.size), accepts xs[i] = true ↔ low ≤ i ∧ i < high

namespace Between

variable {accepts : α → Bool} {xs : Array α} {low high : Nat}

/-- From inside, the start moves to the first accepted place. -/
theorem widenDown_eq (h : Between accepts xs low high) {start : Nat} (from_low : low ≤ start)
    (to_high : start ≤ high) : widenDown accepts xs start = low := by
  have size := h.high_le
  induction start with
  | zero =>
    rw [widenDown]
    omega
  | succ start ih =>
    have inside : start < xs.size := by omega
    have accepted := h.accepted start inside
    rw [widenDown, Array.getElem?_eq_getElem inside, Option.any_some]
    by_cases more : low ≤ start
    · rw [if_pos (accepted.mpr ⟨more, by omega⟩)]
      exact ih more (by omega)
    · have stops : ¬accepts xs[start] = true := fun yes => more (accepted.mp yes).1
      rw [if_neg stops]
      omega

/-- From inside, the stop moves behind the last accepted place. -/
theorem widenUp_eq (h : Between accepts xs low high) {stop : Nat} (from_low : low ≤ stop)
    (to_high : stop ≤ high) : widenUp accepts xs stop = high := by
  have size := h.high_le
  fun_induction widenUp accepts xs stop with
  | case1 stop inside yes ih =>
    have before := ((h.accepted stop inside).mp yes).2
    exact ih (by omega) (by omega)
  | case2 stop inside no =>
    have behind : ¬stop < high := fun before => no ((h.accepted stop inside).mpr ⟨from_low, before⟩)
    omega
  | case3 stop behind => omega

/-- From an accepted place, widening gives the whole stretch. -/
theorem widen_eq (h : Between accepts xs low high) {mid : Nat} {x : α} (at_mid : xs[mid]? = some x)
    (yes : accepts x = true) : widen accepts xs mid = xs.extract low high := by
  obtain ⟨inside, rfl⟩ := Array.getElem?_eq_some_iff.mp at_mid
  have bounds := (h.accepted mid inside).mp yes
  rw [widen, h.widenDown_eq bounds.1 (by omega), h.widenUp_eq (by omega) (by omega)]

end Between

/-- What compares equal lies between the two cuts. -/
theorem Monotone.between {compare : α → Ordering} {xs : Array α} (h : Monotone compare xs.toList) :
    Between (compare · == .eq) xs (lowerBound (compare · == .lt) xs)
      (lowerBound (compare · != .gt) xs) := by
  have low := lowerBound_cut h.less
  have high := lowerBound_cut h.notGreater
  refine ⟨high.1, fun i hi => ?_⟩
  rw [← high.2 i hi, ← Nat.not_lt, ← low.2 i hi]
  cases compare xs[i] <;> decide

/-- Wherever a search lands, widening while elements compare equal gives the run. -/
theorem Monotone.widen_eq_run {compare : α → Ordering} {xs : Array α}
    (h : Monotone compare xs.toList) {mid : Nat} {x : α} (at_mid : xs[mid]? = some x)
    (tie : compare x = .eq) : widen (compare · == .eq) xs mid = run compare xs :=
  h.between.widen_eq at_mid (beq_iff_eq.mpr tie)

/-- Widening while elements compare equal to one key gives what compares equal to it, from wherever
a search for a second key lands, when the second key ties only elements that the first one ties. -/
theorem Search.toList_widen (search : Search α) {key coarse : α → Ordering} {xs : Array α}
    (hkey : Monotone key xs.toList) (hcoarse : Monotone coarse xs.toList)
    (tie : ∀ x, key x = .eq → coarse x = .eq) {mid : Nat} (found : search.find key xs = some mid) :
    (widen (coarse · == .eq) xs mid).toList = xs.toList.filter (coarse · == .eq) := by
  obtain ⟨x, at_mid, heq⟩ := search.hit hkey found
  rw [hcoarse.widen_eq_run at_mid (tie x heq), toList_run hcoarse]

end Constituency.Sorted
