import Constituency.Proofs.Sorted.Widening
import Constituency.Proofs.Store.Removal

/-!
# Removing by scanning

A search of the right list by the right side alone may land on any rule that
shares it. To find the number that was taken off the left list, the places are
scanned from there, down to the front first and then up to the end, each way
while rules share the right side. Wherever the search lands, the number is met,
since the rules that share a right side stand side by side; so removing by
scanning is removing.
-/

namespace Constituency

namespace Sorted

variable {α : Type} {accepts : α → Bool} {xs : Array α} {low high : Nat}

/-- The places scanned from one of them: down to the front and then up to the end, each way while
elements are accepted. -/
def scanned (accepts : α → Bool) (xs : Array α) (mid : Nat) : List Nat :=
  (List.range (mid + 1)).reverse.takeWhile (fun i => xs[i]?.any accepts) ++
    (List.range' (mid + 1) (xs.size - (mid + 1))).takeWhile fun i => xs[i]?.any accepts

namespace Between

/-- The accepted places are places of accepted elements. -/
theorem any_getElem? (h : Between accepts xs low high) {i : Nat} (from_low : low ≤ i)
    (before_high : i < high) : xs[i]?.any accepts = true := by
  have inside : i < xs.size := Nat.lt_of_lt_of_le before_high h.high_le
  rw [Array.getElem?_eq_getElem inside, Option.any_some]
  exact (h.accepted i inside).mpr ⟨from_low, before_high⟩

/-- Scanning down from an accepted place meets all accepted places up to it. -/
theorem mem_scanned_down (h : Between accepts xs low high) {i mid : Nat} (from_low : low ≤ i)
    (to_mid : i ≤ mid) (before_high : mid < high) :
    i ∈ (List.range (mid + 1)).reverse.takeWhile fun i => xs[i]?.any accepts := by
  induction mid with
  | zero =>
    obtain rfl : i = 0 := by omega
    simp [h.any_getElem? from_low before_high]
  | succ mid ih =>
    rw [List.range_succ, List.reverse_append, List.reverse_singleton, List.singleton_append,
      List.takeWhile_cons, if_pos (h.any_getElem? (by omega) before_high), List.mem_cons]
    rcases Nat.eq_or_lt_of_le to_mid with here | further
    · exact Or.inl here
    · exact Or.inr (ih (by omega) (by omega))

/-- Scanning up from an accepted place meets all accepted places from it on. -/
theorem mem_scanned_up (h : Between accepts xs low high) {start len i : Nat}
    (from_low : low ≤ start) (from_start : start ≤ i) (inside : i < start + len)
    (before_high : i < high) :
    i ∈ (List.range' start len).takeWhile fun i => xs[i]?.any accepts := by
  induction len generalizing start with
  | zero => omega
  | succ len ih =>
    rw [List.range'_succ, List.takeWhile_cons, if_pos (h.any_getElem? from_low (by omega)),
      List.mem_cons]
    rcases Nat.eq_or_lt_of_le from_start with here | further
    · exact Or.inl here.symm
    · exact Or.inr (ih (by omega) further (by omega))

/-- From whichever accepted place a scan starts, it meets all of them. -/
theorem mem_scanned (h : Between accepts xs low high) {mid i : Nat} (midLow : low ≤ mid)
    (midHigh : mid < high) (from_low : low ≤ i) (before_high : i < high) :
    i ∈ scanned accepts xs mid := by
  have size := h.high_le
  rcases Nat.lt_or_ge mid i with above | below
  · exact List.mem_append_right _ (h.mem_scanned_up (by omega) above (by omega) before_high)
  · exact List.mem_append_left _ (h.mem_scanned_down from_low below midHigh)

end Between

/-- Of the elements that compare equal, a scan from any one meets every other. -/
theorem Monotone.mem_scanned {compare : α → Ordering} (h : Monotone compare xs.toList)
    {mid i : Nat} {x y : α} (at_mid : xs[mid]? = some x) (tie : compare x = .eq)
    (at_i : xs[i]? = some y) (tie' : compare y = .eq) :
    i ∈ scanned (compare · == .eq) xs mid := by
  obtain ⟨inside, rfl⟩ := Array.getElem?_eq_some_iff.mp at_mid
  obtain ⟨inside', rfl⟩ := Array.getElem?_eq_some_iff.mp at_i
  have bounds := (h.between.accepted mid inside).mp (beq_iff_eq.mpr tie)
  have bounds' := (h.between.accepted i inside').mp (beq_iff_eq.mpr tie')
  exact h.between.mem_scanned bounds.1 bounds.2 bounds'.1 bounds'.2

/-- Where an element compares equal, a search lands. -/
theorem Search.exists_find (search : Search α) {compare : α → Ordering}
    (h : Monotone compare xs.toList) {i : Nat} {x : α} (at_i : xs[i]? = some x)
    (tie : compare x = .eq) :
    ∃ mid y, search.find compare xs = some mid ∧ xs[mid]? = some y ∧ compare y = .eq := by
  cases found : search.find compare xs with
  | none =>
    exact absurd tie (search.miss h found x (Array.mem_toList_iff.mpr (Array.mem_of_getElem? at_i)))
  | some mid =>
    obtain ⟨y, at_mid, tie'⟩ := search.hit h found
    exact ⟨mid, y, rfl, at_mid, tie'⟩

end Sorted

namespace Store

variable {W : Type} {s : Store W}

/-- A number has one place in a list that names it. -/
theorem Lists.eq_of_getElem? {index : Array RuleNumber} (h : s.Lists index) {i j : Nat}
    {id : RuleNumber} (hi : index[i]? = some id) (hj : index[j]? = some id) : i = j := by
  rw [← Array.getElem?_toList] at hi hj
  exact (List.getElem?_inj (List.getElem?_eq_some_iff.mp hi).1 h.nodup).mp (hi.trans hj.symm)

/-- The place of a number in the right list, scanned for from where a search for the right side of
`r` lands. -/
def scannedPosition? (s : Store W) (search : Sorted.Search RuleNumber) (r : Rule W)
    (id : RuleNumber) : Option Nat :=
  (search.find (s.compareAt (·.compareRight r)) s.byRight).bind fun mid =>
    (Sorted.scanned (s.compareAt (·.compareRight r) · == .eq) s.byRight mid).find?
      (s.byRight[·]? == some id)

/-- Removes the rule with the sides of `r` and hands it back: a search of the left list tells its
number, and a scan of the right list finds the number again. -/
def removeScanning (s : Store W) (search : Sorted.Search RuleNumber) (r : Rule W) :
    Except Fault (Store W × Option (Rule W)) :=
  match search.find (s.compareAt (·.compareLeftFirst r)) s.byLeft with
  | none => .ok (s, none)
  | some left =>
    match s.byLeft[left]? with
    | none => .ok (s, none)
    | some id =>
      match s.scannedPosition? search r id with
      | none => .error (.unindexedRule r.left r.right)
      | some right =>
        .ok ({ slots := s.slots.setIfInBounds id none
               byLeft := s.byLeft.eraseIdxIfInBounds left
               byRight := s.byRight.eraseIdxIfInBounds right }, s.rule? id)

/-- A scan finds the place of every stored number, wherever the search lands. -/
theorem Indexed.scannedPosition?_eq_some (h : s.Indexed) (search : Sorted.Search RuleNumber)
    {id : RuleNumber} {q r : Rule W} (hid : s.rule? id = some q) (same : q.SameSides r)
    {place : Nat} (at_place : s.byRight[place]? = some id) :
    s.scannedPosition? search r id = some place := by
  have monotone : Sorted.Monotone (s.compareAt (·.compareRight r)) s.byRight.toList :=
    h.sortedRight.monotone h.right (Rule.along_right r.right)
  have tie : s.compareAt (·.compareRight r) id = .eq := by
    rw [compareAt_of_rule? hid, Rule.compareRight, Std.LawfulEqCmp.compare_eq_iff_eq]
    exact same.2
  obtain ⟨mid, other, found, at_mid, tie'⟩ := search.exists_find monotone at_place tie
  have met := monotone.mem_scanned at_mid tie' at_place tie
  have here : (s.byRight[place]? == some id) = true := beq_iff_eq.mpr at_place
  obtain ⟨place', found'⟩ : ∃ place', (Sorted.scanned (s.compareAt (·.compareRight r) · == .eq)
      s.byRight mid).find? (s.byRight[·]? == some id) = some place' :=
    Option.isSome_iff_exists.mp (List.find?_isSome.mpr ⟨place, met, here⟩)
  have at_place' : s.byRight[place']? = some id := beq_iff_eq.mp (List.find?_some found' :)
  rw [scannedPosition?, found, Option.bind_some, found', h.right.eq_of_getElem? at_place' at_place]

/-- Removing by scanning is removing, wherever the searches land. -/
theorem Indexed.removeScanning_eq (h : s.Indexed) (search : Sorted.Search RuleNumber)
    (r : Rule W) : s.removeScanning search r = s.remove r := by
  have monotone : Sorted.Monotone (s.compareAt (·.compareLeftFirst r)) s.byLeft.toList :=
    h.sortedLeft.monotone h.left (Rule.along_self Rule.compareLeftFirst r)
  rw [removeScanning, Store.remove]
  cases position : s.position? r.left r.right with
  | none =>
    have absent := (h.position?_eq_none r).mp position
    cases found : search.find (s.compareAt (·.compareLeftFirst r)) s.byLeft with
    | none => rfl
    | some left =>
      obtain ⟨id, -, tie⟩ := search.hit monotone found
      obtain ⟨q, hid, same⟩ := compareAt_eq_eq.mp tie
      exact absurd (Rule.compareLeftFirst_eq_eq.mp same) (absent q (h.mem_rules.mpr ⟨id, hid⟩))
  | some left =>
    obtain ⟨id, q, at_left, hid, same⟩ := rule_of_position? position
    have tie : s.compareAt (·.compareLeftFirst r) id = .eq := by
      rw [compareAt_of_rule? hid]
      exact Rule.compareLeftFirst_eq_eq.mpr same
    obtain ⟨left', id', found, at_left', tie'⟩ := search.exists_find monotone at_left tie
    obtain ⟨q', hid', same'⟩ := compareAt_eq_eq.mp tie'
    have number : id' = id := h.distinctSides _ _ _ _ hid' hid
      (Rule.SameSides.trans (Rule.compareLeftFirst_eq_eq.mp same') (Rule.SameSides.symm same))
    subst number
    obtain rfl := h.left.eq_of_getElem? at_left' at_left
    obtain ⟨right, hright, at_right⟩ := h.rightPosition?_eq_some hid same
    simp only [found, at_left, hright, h.scannedPosition?_eq_some search hid same at_right]

end Store

end Constituency
