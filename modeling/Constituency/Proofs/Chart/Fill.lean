import Constituency.Chart.Basic
import Mathlib.Data.List.Induction
import Mathlib.Tactic.Ring

/-!
# Cells of a chart

Distinct spans have distinct places, so writing one cell leaves the others
alone. The chart is filled by the last word and, for one last word, from the
shortest span on, so every span comes after all spans inside it. A filled chart
is therefore the solution of the equations that it was filled by: each cell is
what the finished chart makes of the cells inside its span.
-/

namespace Constituency.Chart

variable {α : Type}

/-! ## Places -/

/-- The places of one last word follow those of the last words before. -/
theorem place_lt_of_lt {first last other bound : Nat} (h : first ≤ last) (before : last < bound) :
    place first last < place other bound := by
  have step : (last + 1) * (last + 1 + 1) ≤ bound * (bound + 1) :=
    Nat.mul_le_mul (by omega) (by omega)
  have expand : (last + 1) * (last + 1 + 1) = last * (last + 1) + 2 * (last + 1) := by ring
  simp only [place]
  omega

/-- Distinct spans have distinct places. -/
theorem place_inj {first last first' last' : Nat} (h : first ≤ last) (h' : first' ≤ last')
    (same : place first last = place first' last') : first = first' ∧ last = last' := by
  rcases Nat.lt_trichotomy last last' with hlt | rfl | hgt
  · exact absurd same (Nat.ne_of_lt (place_lt_of_lt h hlt))
  · simp only [place] at same
    omega
  · exact absurd same (Nat.ne_of_gt (place_lt_of_lt h' hgt))

/-- A span of the sentence has a place in the chart. -/
theorem place_lt_size {c : Chart α} {first last : Nat} (h : c.Spans first last) :
    place first last < c.cells.size := by
  have : place first last < place 0 c.length := place_lt_of_lt h.1 h.2
  rw [c.size_cells]
  simpa only [place, Nat.add_zero] using this

/-- A cell that is written has what was written. -/
theorem cell_set_self {c : Chart α} {first last : Nat} (h : c.Spans first last)
    (entries : List α) : (c.set first last entries).cell first last = entries := by
  rw [cell, set, Array.getD_eq_getD_getElem?, Array.getElem?_setIfInBounds_self_of_lt
    (place_lt_size h), Option.getD_some]

/-- The other cells keep what they have. -/
theorem cell_set_ne {c : Chart α} {first last first' last' : Nat} (h : first ≤ last)
    (h' : first' ≤ last') (other : (first', last') ≠ (first, last)) (entries : List α) :
    (c.set first last entries).cell first' last' = c.cell first' last' := by
  have apart : place first last ≠ place first' last' := fun same => by
    obtain ⟨rfl, rfl⟩ := place_inj h h' same
    exact other rfl
  rw [cell, set, Array.getD_eq_getD_getElem?, Array.getElem?_setIfInBounds_ne apart,
    ← Array.getD_eq_getD_getElem?, cell]

/-! ## The order of filling -/

/-- A span lies inside another one, or is it. -/
def Inside (inner outer : Nat × Nat) : Prop :=
  outer.1 ≤ inner.1 ∧ inner.1 ≤ inner.2 ∧ inner.2 ≤ outer.2

/-- One span comes before another one: it ends earlier, or at the same word and is shorter. -/
def Before (a b : Nat × Nat) : Prop :=
  a.2 < b.2 ∨ (a.2 = b.2 ∧ b.1 < a.1)

/-- The spans in the order of filling are those of the sentence. -/
theorem mem_spansByEnd {length : Nat} {span : Nat × Nat} :
    span ∈ spansByEnd length ↔ span.1 ≤ span.2 ∧ span.2 < length := by
  obtain ⟨first, last⟩ := span
  simp only [spansByEnd, List.mem_flatMap, List.mem_range, List.mem_map, List.mem_reverse,
    Prod.mk.injEq]
  constructor
  · rintro ⟨l, hl, f, hf, rfl, rfl⟩
    omega
  · rintro ⟨h, hl⟩
    exact ⟨last, hl, first, by omega, rfl, rfl⟩

/-- The order of filling is strict. -/
theorem pairwise_spansByEnd (length : Nat) : (spansByEnd length).Pairwise Before := by
  rw [spansByEnd, List.pairwise_flatMap]
  constructor
  · intro last _
    rw [List.pairwise_map, List.pairwise_reverse]
    exact List.pairwise_lt_range.imp fun hlt => Or.inr ⟨rfl, hlt⟩
  · refine List.pairwise_lt_range.imp fun hlt => ?_
    intro a ha b hb
    obtain ⟨_, -, rfl⟩ := List.mem_map.mp ha
    obtain ⟨_, -, rfl⟩ := List.mem_map.mp hb
    exact Or.inl hlt

/-- Every span comes after all spans inside it. -/
theorem mem_of_inside {length : Nat} {pre post : List (Nat × Nat)} {span inner : Nat × Nat}
    (h : spansByEnd length = pre ++ span :: post) (inside : Inside inner span)
    (other : inner ≠ span) : inner ∈ pre := by
  have valid : span ∈ spansByEnd length := by
    rw [h]
    exact List.mem_append_right _ List.mem_cons_self
  have mem : inner ∈ pre ++ span :: post := by
    rw [← h, mem_spansByEnd]
    exact ⟨inside.2.1, Nat.lt_of_le_of_lt inside.2.2 (mem_spansByEnd.mp valid).2⟩
  rcases List.mem_append.mp mem with there | there
  · exact there
  · rcases List.mem_cons.mp there with rfl | later
    · exact absurd rfl other
    · have strict := pairwise_spansByEnd length
      rw [h, List.pairwise_append, List.pairwise_cons] at strict
      have := strict.2.1.1 inner later
      simp only [Before, Inside] at this inside
      omega

/-! ## Filling -/

/-- The contents of a cell depend on the cells inside its span only. -/
def Local (content : (Nat → Nat → List α) → Nat → Nat → List α) : Prop :=
  ∀ (cells cells' : Nat → Nat → List α) (span : Nat × Nat),
    (∀ inner : Nat × Nat, Inside inner span → inner ≠ span →
      cells inner.1 inner.2 = cells' inner.1 inner.2) →
    content cells span.1 span.2 = content cells' span.1 span.2

/-- One step of filling. -/
def fillStep (content : (Nat → Nat → List α) → Nat → Nat → List α) (c : Chart α)
    (span : Nat × Nat) : Chart α :=
  c.set span.1 span.2 (content c.cell span.1 span.2)

/-- Filling cells keeps the number of words. -/
theorem length_foldl_fillStep (content : (Nat → Nat → List α) → Nat → Nat → List α)
    (spans : List (Nat × Nat)) (c : Chart α) :
    (spans.foldl (fillStep content) c).length = c.length := by
  induction spans generalizing c with
  | nil => rfl
  | cons span spans ih => exact ih _

/-- Each cell filled so far is what the chart so far makes of the cells inside its span. -/
theorem cell_foldl_fillStep {content : (Nat → Nat → List α) → Nat → Nat → List α}
    (loc : Local content) {c : Chart α} {spans : List (Nat × Nat)}
    (valid : ∀ span ∈ spans, c.Spans span.1 span.2) (strict : spans.Pairwise Before)
    (closed : ∀ pre span post, spans = pre ++ span :: post → ∀ inner, Inside inner span →
      inner ≠ span → inner ∈ pre) :
    ∀ span ∈ spans, (spans.foldl (fillStep content) c).cell span.1 span.2 =
      content (spans.foldl (fillStep content) c).cell span.1 span.2 := by
  induction spans using List.reverseRecOn with
  | nil => exact fun span hspan => nomatch hspan
  | append_singleton spans new ih =>
    have before := ih (fun span hspan => valid span (List.mem_append_left _ hspan))
      (List.pairwise_append.mp strict).1
      (fun pre span post heq => closed pre span (post ++ [new]) (by rw [heq]; simp))
    have validNew : c.Spans new.1 new.2 := valid new (by simp)
    have later : ∀ span ∈ spans, span ≠ new := by
      intro span hspan heq
      have := (List.pairwise_append.mp strict).2.2 span hspan new (List.mem_singleton_self new)
      rw [heq, Before] at this
      omega
    rw [List.foldl_append, List.foldl_cons, List.foldl_nil]
    generalize hd : spans.foldl (fillStep content) c = d at before
    have keeps : ∀ span ∈ spans, (fillStep content d new).cell span.1 span.2 =
        d.cell span.1 span.2 := fun span hspan =>
      cell_set_ne validNew.1 (valid span (List.mem_append_left _ hspan)).1 (later span hspan) _
    intro span hspan
    rcases List.mem_append.mp hspan with old | here
    -- the cells inside an earlier span are earlier ones, so none of them is the new one
    · rw [keeps span old, before span old]
      refine loc _ _ span fun inner inside other => (keeps inner ?_).symm
      obtain ⟨pre, post, heq⟩ := List.append_of_mem old
      have := closed pre span (post ++ [new]) (by rw [heq]; simp) inner inside other
      rw [heq]
      exact List.mem_append_left _ this
    · rw [List.mem_singleton] at here
      subst here
      have spansD : d.Spans span.1 span.2 := by
        rw [Spans, ← hd, length_foldl_fillStep]
        exact validNew
      rw [fillStep, cell_set_self spansD]
      refine loc _ _ span fun inner inside other => (keeps inner ?_).symm
      exact closed spans span [] rfl inner inside other

/-- A filled chart is for the given number of words. -/
theorem length_fill (length : Nat) (content : (Nat → Nat → List α) → Nat → Nat → List α) :
    (fill length content).length = length :=
  length_foldl_fillStep content (spansByEnd length) (empty length)

/-- Each cell of a filled chart is what the chart makes of the cells inside its span. -/
theorem cell_fill {content : (Nat → Nat → List α) → Nat → Nat → List α} (loc : Local content)
    {length first last : Nat} (h : first ≤ last) (inside : last < length) :
    (fill length content).cell first last =
      content (fill length content).cell first last :=
  cell_foldl_fillStep loc
    (fun _ hspan => mem_spansByEnd.mp hspan)
    (pairwise_spansByEnd length)
    (fun _ _ _ heq _ hinner other => mem_of_inside heq hinner other)
    (first, last) (mem_spansByEnd.mpr ⟨h, inside⟩)

end Constituency.Chart
