import Constituency.Sorted

/-!
# Bisection finds the cut

When the elements that are below lead, `lowerBound` counts them: the array is
cut into those that are below and those that are not. When a comparison never
steps back, the run is exactly the elements that compare equal, and a place is
found whenever there is such an element.
-/

namespace Constituency.Sorted

variable {α : Type}

/-- What comes before an element that is below is below. -/
def Leading (below : α → Bool) (xs : List α) : Prop :=
  xs.Pairwise fun a b => below b = true → below a = true

/-- Of two places, the earlier one is below when the later one is. -/
theorem Leading.getElem {below : α → Bool} {xs : Array α} (h : Leading below xs.toList) {i j : Nat}
    (hij : i ≤ j) (hj : j < xs.size) (later : below xs[j] = true) : below xs[i] = true := by
  rcases Nat.lt_or_eq_of_le hij with hlt | rfl
  · exact List.pairwise_iff_getElem.mp h i j
      (by simpa using Nat.lt_trans hlt hj) (by simpa using hj)
      hlt later
  · exact later

/-- Bisection ends between the elements that are below and the others, when it starts with all
places before `lo` below and none from `hi` on. -/
theorem bisect_cut {below : α → Bool} {xs : Array α} (h : Leading below xs.toList) (lo hi : Nat)
    (hsize : hi ≤ xs.size) (order : lo ≤ hi)
    (before : ∀ i (inside : i < xs.size), i < lo → below xs[i] = true)
    (behind : ∀ i (inside : i < xs.size), hi ≤ i → below xs[i] = false) :
    bisect below xs lo hi hsize ≤ xs.size ∧
      ∀ i (inside : i < xs.size), below xs[i] = true ↔ i < bisect below xs lo hi hsize := by
  fun_induction bisect below xs lo hi hsize with
  | case1 lo hi hsize hlt mid hmid hbelow ih =>
    refine ih (by omega) ?_ behind
    intro i hi' hlow
    exact h.getElem (by omega) hmid hbelow
  | case2 lo hi hsize hlt mid hmid hbelow ih =>
    refine ih (by omega) before ?_
    intro i hi' hhigh
    cases hb : below xs[i] with
    | false => rfl
    | true => exact absurd (h.getElem hhigh hi' hb) hbelow
  | case3 lo hi hsize hlt =>
    have hend : lo = hi := by omega
    subst hend
    refine ⟨hsize, fun i hi' => ⟨fun hb => ?_, fun hlow => before i hi' hlow⟩⟩
    by_cases hhigh : lo ≤ i
    · rw [behind i hi' hhigh] at hb
      cases hb
    · omega

/-- The lower bound is a place of the array or its end, and exactly the places before it are
below. -/
theorem lowerBound_cut {below : α → Bool} {xs : Array α} (h : Leading below xs.toList) :
    lowerBound below xs ≤ xs.size ∧
      ∀ i (hi : i < xs.size), below xs[i] = true ↔ i < lowerBound below xs :=
  bisect_cut h 0 xs.size (Nat.le_refl _) (Nat.zero_le _) (fun _ _ hlow => absurd hlow (by omega))
    (fun _ hi hhigh => absurd hi (by omega))

/-- A list is cut where its elements stop to be below. -/
theorem take_drop_of_cut {below : α → Bool} {xs : List α} {n : Nat}
    (cut : ∀ i (hi : i < xs.length), below xs[i] = true ↔ i < n) :
    xs.take n = xs.filter below ∧ xs.drop n = xs.filter (!below ·) := by
  induction xs generalizing n with
  | nil => simp
  | cons x xs ih =>
    have hx := cut 0 (by simp)
    cases n with
    | zero =>
      have hnone : ∀ a ∈ x :: xs, below a = false := by
        intro a ha
        obtain ⟨i, hi, rfl⟩ := List.getElem_of_mem ha
        have := cut i hi
        cases hb : below (x :: xs)[i] with
        | false => rfl
        | true => exact absurd (this.mp hb) (by omega)
      constructor
      · exact (List.filter_eq_nil_iff.mpr fun a ha => by simp [hnone a ha]).symm
      · exact (List.filter_eq_self.mpr fun a ha => by simp [hnone a ha]).symm
    | succ n =>
      have hbelow : below x = true := hx.mpr (by omega)
      have hrest := ih (n := n) fun i hi => by
        have next := cut (i + 1) (by simpa using hi)
        rw [List.getElem_cons_succ] at next
        rw [next]
        omega
      simp [hbelow, hrest.1, hrest.2]

/-- The lower bound cuts the list of the elements where they stop to be below. -/
theorem toList_cut {below : α → Bool} {xs : Array α} (h : Leading below xs.toList) (i : Nat)
    (hi : i < xs.toList.length) : below xs.toList[i] = true ↔ i < lowerBound below xs := by
  rw [Array.getElem_toList]
  exact (lowerBound_cut h).2 i (by simpa using hi)

/-- The lower bound cuts an array into what is below and what is not. -/
theorem take_drop_lowerBound {below : α → Bool} {xs : Array α} (h : Leading below xs.toList) :
    xs.toList.take (lowerBound below xs) = xs.toList.filter below ∧
      xs.toList.drop (lowerBound below xs) = xs.toList.filter (!below ·) :=
  take_drop_of_cut (toList_cut h)

/-- Inserting at a place puts the element between what is before the place and the rest. -/
theorem insertIdx_eq_take_drop {xs : List α} {i : Nat} (h : i ≤ xs.length) (x : α) :
    xs.insertIdx i x = xs.take i ++ x :: xs.drop i := by
  induction xs generalizing i with
  | nil =>
    rw [List.length_nil, Nat.le_zero] at h
    subst h
    rfl
  | cons y xs ih =>
    cases i with
    | zero => rfl
    | succ i =>
      rw [List.insertIdx_succ_cons, ih (by simpa using h), List.take_succ_cons,
        List.drop_succ_cons, List.cons_append]

/-- A comparison never steps back along a list: it says less, then equal, then greater. -/
structure Monotone (compare : α → Ordering) (xs : List α) : Prop where
  /-- Those that compare less lead. -/
  less : Leading (compare · == .lt) xs
  /-- Those that do not compare greater lead. -/
  notGreater : Leading (compare · != .gt) xs

/-- The stretch from the first cut to the second one holds what lies between them. -/
theorem extract_eq_filter {low high : α → Bool} {xs : List α} {m n : Nat}
    (cutLow : ∀ i (hi : i < xs.length), low xs[i] = true ↔ i < m)
    (cutHigh : ∀ i (hi : i < xs.length), high xs[i] = true ↔ i < n) :
    (xs.drop m).take (n - m) = xs.filter fun a => !low a && high a := by
  have cut : ∀ i (hi : i < (xs.take n).length), low (xs.take n)[i] = true ↔ i < m := by
    intro i hi
    rw [List.getElem_take]
    exact cutLow i (by rw [List.length_take] at hi; omega)
  rw [← List.drop_take, (take_drop_of_cut cut).2, (take_drop_of_cut cutHigh).1, List.filter_filter]

/-- The run of a comparison that never steps back is what compares equal. -/
theorem toList_run {compare : α → Ordering} {xs : Array α} (h : Monotone compare xs.toList) :
    (run compare xs).toList = xs.toList.filter (compare · == .eq) := by
  rw [run, Array.toList_extract, List.extract_eq_take_drop,
    extract_eq_filter (toList_cut h.less) (toList_cut h.notGreater)]
  congr 1
  funext a
  cases compare a <;> rfl

/-- A place that is found holds an element that compares equal. -/
theorem compare_of_position? {compare : α → Ordering} {xs : Array α} {i : Nat}
    (h : position? compare xs = some i) : ∃ x, xs[i]? = some x ∧ compare x = .eq := by
  unfold position? at h
  simp only at h
  split at h
  · next x hx =>
    split at h
    · next heq =>
      cases h
      exact ⟨x, hx, by simpa using heq⟩
    · cases h
  · cases h

/-- A place is found when an element compares equal. -/
theorem isSome_position? {compare : α → Ordering} {xs : Array α} (h : Monotone compare xs.toList)
    {x : α} (hx : x ∈ xs.toList) (heq : compare x = .eq) : (position? compare xs).isSome := by
  obtain ⟨k, hk, rfl⟩ := List.getElem_of_mem hx
  rw [Array.length_toList] at hk
  rw [Array.getElem_toList] at heq
  have cut := (lowerBound_cut h.less).2
  have hle : lowerBound (compare · == .lt) xs ≤ k := by
    by_cases hlt : k < lowerBound (compare · == .lt) xs
    · have hbelow := (cut k hk).mpr hlt
      simp [heq] at hbelow
    · omega
  have hsize : lowerBound (compare · == .lt) xs < xs.size := by omega
  have hlow : compare xs[lowerBound (compare · == .lt) xs] ≠ .lt := by
    intro hlt
    exact absurd ((cut _ hsize).mp (by simpa using hlt)) (Nat.lt_irrefl _)
  have hhigh : compare xs[lowerBound (compare · == .lt) xs] ≠ .gt := by
    simpa using h.notGreater.getElem hle hk (by simp [heq])
  have hfound : compare xs[lowerBound (compare · == .lt) xs] = .eq := by
    cases hc : compare xs[lowerBound (compare · == .lt) xs] with
    | lt => exact absurd hc hlow
    | eq => rfl
    | gt => exact absurd hc hhigh
  simp [position?, Array.getElem?_eq_getElem hsize, hfound]

end Constituency.Sorted
