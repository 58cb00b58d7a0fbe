import Constituency.Proofs.Chart.Fill
import Mathlib.Data.Set.Function

/-!
# Cells by their places

The places of the spans of a sentence are the numbers below the number of cells,
each of one span. So a run of writes to spans stays inside the array, and what a
cell holds in the end is told by the writes to its own span alone, in their order.
Filling a chart is such a run.
-/

namespace Constituency.Chart

variable {α : Type}

/-! ## Places and spans -/

/-- The cells of one last word come behind those of all last words before. -/
theorem place_zero_succ (last : Nat) : place 0 (last + 1) = place last last + 1 := by
  have expand : (last + 1) * (last + 1 + 1) = last * (last + 1) + 2 * (last + 1) := by ring
  simp only [place]
  omega

/-- Every number below the number of cells is the place of a span. -/
theorem exists_place_eq {length n : Nat} (h : n < place 0 length) :
    ∃ first last, first ≤ last ∧ last < length ∧ place first last = n := by
  induction length with
  | zero => simp [place] at h
  | succ length ih =>
    by_cases earlier : n < place 0 length
    · obtain ⟨first, last, ordered, inside, same⟩ := ih earlier
      exact ⟨first, last, ordered, Nat.lt_succ_of_lt inside, same⟩
    -- the last word is the new one, and the first is told by what remains
    · rw [place_zero_succ] at h
      refine ⟨n - place 0 length, length, ?_, Nat.lt_succ_self length, ?_⟩
      · simp only [place] at *
        omega
      · simp only [place] at *
        omega

/-- The spans of a sentence and the numbers below the number of cells correspond. -/
theorem bijOn_place (length : Nat) :
    Set.BijOn (fun span : Nat × Nat => place span.1 span.2)
      {span | span.1 ≤ span.2 ∧ span.2 < length} (Set.Iio (length * (length + 1) / 2)) := by
  refine ⟨fun span inside => ?_, fun span inside other inside' same => ?_, fun n below => ?_⟩
  · have before : place span.1 span.2 < place 0 length := place_lt_of_lt inside.1 inside.2
    exact before
  · obtain ⟨first, last⟩ := place_inj inside.1 inside'.1 same
    exact Prod.ext first last
  · have below : n < place 0 length := below
    obtain ⟨first, last, ordered, inside, same⟩ := exists_place_eq below
    exact ⟨(first, last), ⟨ordered, inside⟩, same⟩

/-! ## Runs of writes -/

/-- A write to a chart: a span, and what becomes of the entries of its cell. -/
structure Write (α : Type) where
  /-- The first word of the span. -/
  first : Nat
  /-- The last word of the span. -/
  last : Nat
  /-- What becomes of the entries. -/
  change : List α → List α

/-- Whether a write is to the given span. -/
def Write.isTo (w : Write α) (first last : Nat) : Bool :=
  w.first == first && w.last == last

/-- Takes one write after the other. -/
def writeAll (c : Chart α) : List (Write α) → Except Fault (Chart α)
  | [] => .ok c
  | w :: writes => do (← c.modify? w.first w.last w.change).writeAll writes

/-- What the writes to a span make of entries. -/
def written (first last : Nat) (entries : List α) (writes : List (Write α)) : List α :=
  (writes.filter (·.isTo first last)).foldl (fun entries w => w.change entries) entries

/-- A write to a span goes through. It changes the cell of that span and no other. -/
theorem exists_modify? {c : Chart α} {w : Write α} (inside : c.Spans w.first w.last) :
    ∃ d : Chart α, c.modify? w.first w.last w.change = .ok d ∧ d.length = c.length ∧
      ∀ first last, first ≤ last → d.cell first last =
        if w.isTo first last then w.change (c.cell first last) else c.cell first last := by
  refine ⟨_, if_pos inside, rfl, fun first last ordered => ?_⟩
  by_cases here : w.isTo first last = true
  · rw [Write.isTo, Bool.and_eq_true, beq_iff_eq, beq_iff_eq] at here
    obtain ⟨rfl, rfl⟩ := here
    rw [cell_set_self inside, if_pos (by simp [Write.isTo])]
  · have other : (first, last) ≠ (w.first, w.last) := by
      rintro same
      obtain ⟨rfl, rfl⟩ := Prod.mk.inj same
      exact here (by simp [Write.isTo])
    rw [cell_set_ne inside.1 ordered other, if_neg here]

/-- A run of writes to spans goes through. Each cell ends with what the writes to its own span make
of it. -/
theorem exists_writeAll {c : Chart α} {writes : List (Write α)}
    (inside : ∀ w ∈ writes, c.Spans w.first w.last) :
    ∃ d : Chart α, c.writeAll writes = .ok d ∧ d.length = c.length ∧
      ∀ first last, first ≤ last →
        d.cell first last = written first last (c.cell first last) writes := by
  induction writes generalizing c with
  | nil => exact ⟨c, rfl, rfl, fun _ _ _ => rfl⟩
  | cons w writes ih =>
    obtain ⟨m, first_write, length, cell⟩ := exists_modify? (inside w List.mem_cons_self)
    have later : ∀ v ∈ writes, m.Spans v.first v.last := fun v hv => by
      rw [Spans, length]
      exact inside v (List.mem_cons_of_mem w hv)
    obtain ⟨d, rest, length', cell'⟩ := ih later
    refine ⟨d, ?_, length'.trans length, fun first last ordered => ?_⟩
    · rw [writeAll, first_write]
      exact rest
    · rw [cell' first last ordered, cell first last ordered, written, written, List.filter_cons]
      split
      · rfl
      · rfl

/-- An empty chart has empty cells. -/
theorem cell_empty (length first last : Nat) : (empty length : Chart α).cell first last = [] := by
  rw [cell, empty, Array.getD_eq_getD_getElem?, Array.getElem?_replicate]
  split <;> rfl

/-- The array holds the entries of a span at its place. -/
theorem getElem?_place {c : Chart α} {first last : Nat} (h : c.Spans first last) :
    c.cells[place first last]? = some (c.cell first last) := by
  rw [cell, Array.getD_eq_getD_getElem?, Array.getElem?_eq_getElem (place_lt_size h),
    Option.getD_some]

/-- A run of writes behind another one is taken behind it. -/
theorem writeAll_append (c : Chart α) (writes more : List (Write α)) :
    c.writeAll (writes ++ more) = (c.writeAll writes).bind (·.writeAll more) := by
  induction writes generalizing c with
  | nil => rfl
  | cons w writes ih =>
    rw [List.cons_append, writeAll, writeAll]
    cases c.modify? w.first w.last w.change with
    | error fault => rfl
    | ok d => exact ih d

/-- Filling a chart is a run of writes to its spans. -/
theorem exists_writeAll_fill (length : Nat)
    (content : (Nat → Nat → List α) → Nat → Nat → List α) :
    ∃ writes : List (Write α), (∀ w ∈ writes, w.first ≤ w.last ∧ w.last < length) ∧
      (empty length).writeAll writes = .ok (fill length content) := by
  have each : ∀ spans : List (Nat × Nat), (∀ span ∈ spans, span.1 ≤ span.2 ∧ span.2 < length) →
      ∃ writes : List (Write α), (∀ w ∈ writes, w.first ≤ w.last ∧ w.last < length) ∧
        (empty length).writeAll writes = .ok (spans.foldl (fillStep content) (empty length)) := by
    intro spans
    induction spans using List.reverseRecOn with
    | nil => exact fun _ => ⟨[], fun w hw => absurd hw List.not_mem_nil, rfl⟩
    | append_singleton spans span ih =>
      intro inside
      obtain ⟨writes, valid, run⟩ := ih fun s hs => inside s (List.mem_append_left _ hs)
      have here := inside span (List.mem_append_right _ (List.mem_singleton_self span))
      rw [List.foldl_append, List.foldl_cons, List.foldl_nil]
      have length_eq := length_foldl_fillStep content spans (empty length)
      generalize spans.foldl (fillStep content) (empty length) = c at run length_eq ⊢
      have spans_c : c.Spans span.1 span.2 := by
        rw [Spans, length_eq]
        exact here
      refine ⟨writes ++ [⟨span.1, span.2, fun _ => content c.cell span.1 span.2⟩],
        fun w hw => ?_, ?_⟩
      · rcases List.mem_append.mp hw with old | new
        · exact valid w old
        · rw [List.mem_singleton.mp new]
          exact here
      · rw [writeAll_append, run, Except.bind, writeAll, modify?, if_pos spans_c]
        rfl
  exact each (spansByEnd length) fun _ hspan => mem_spansByEnd.mp hspan

/-- Cells do not overlap. For every number of words the places of the spans are the numbers below
the number of cells, each of one span. So after any run of writes to spans, which never leaves the
array, a cell holds what the writes to its own span make of it, and the cell of the whole sentence
is that of the first and the last word. Filling a chart is such a run. -/
theorem cells_apart (length : Nat) :
    Set.BijOn (fun span : Nat × Nat => place span.1 span.2)
      {span | span.1 ≤ span.2 ∧ span.2 < length} (Set.Iio (length * (length + 1) / 2)) ∧
    (∀ writes : List (Write α), (∀ w ∈ writes, w.first ≤ w.last ∧ w.last < length) →
      ∃ c : Chart α, (empty length).writeAll writes = .ok c ∧
        c.cells.size = length * (length + 1) / 2 ∧
        (∀ first last, first ≤ last → last < length →
          c.cells[place first last]? = some (written first last [] writes) ∧
            c.cell? first last = .ok (written first last [] writes)) ∧
        c.top? = if length = 0 then none else some (written 0 (length - 1) [] writes)) ∧
    ∀ content : (Nat → Nat → List α) → Nat → Nat → List α,
      ∃ writes : List (Write α), (∀ w ∈ writes, w.first ≤ w.last ∧ w.last < length) ∧
        (empty length).writeAll writes = .ok (fill length content) := by
  refine ⟨bijOn_place length, fun writes inside => ?_, exists_writeAll_fill length⟩
  obtain ⟨c, run, length_eq, cell⟩ := exists_writeAll (c := (empty length : Chart α)) inside
  have same : c.length = length := length_eq
  refine ⟨c, run, same ▸ c.size_cells, fun first last ordered below => ?_, ?_⟩
  · have spans : c.Spans first last := ⟨ordered, same ▸ below⟩
    rw [getElem?_place spans, cell?, if_pos spans, cell first last ordered, cell_empty]
    exact ⟨rfl, rfl⟩
  · rw [top?, same, cell 0 (length - 1) (Nat.zero_le _), cell_empty]

/-- Writes to neighbouring places and to the whole of three words. -/
def neighbours : List (Write Nat) :=
  [⟨0, 1, (1 :: ·)⟩, ⟨1, 1, (2 :: ·)⟩, ⟨0, 2, (3 :: ·)⟩, ⟨0, 1, (4 :: ·)⟩, ⟨1, 2, fun _ => [5]⟩]

/-- Each of the neighbours keeps its own entries, and the whole keeps the one written to it. -/
theorem cells_apart_neighbours :
    (∀ w ∈ neighbours, w.first ≤ w.last ∧ w.last < 3) ∧
      ∃ c : Chart Nat, (empty 3).writeAll neighbours = .ok c ∧ c.cell? 0 1 = .ok [4, 1] ∧
        c.cell? 1 1 = .ok [2] ∧ c.cell? 2 2 = .ok [] ∧ c.top? = some [3] := by
  have inside : ∀ w ∈ neighbours, w.first ≤ w.last ∧ w.last < 3 := by decide
  obtain ⟨c, run, -, cell, top⟩ := (cells_apart (α := Nat) 3).2.1 neighbours inside
  exact ⟨inside, c, run, (cell 0 1 (by decide) (by decide)).2, (cell 1 1 (by decide) (by decide)).2,
    (cell 2 2 (by decide) (by decide)).2, top⟩

end Constituency.Chart
