import Constituency.Fault

/-!
# Charts

A chart has one cell for each span of a sentence, named by its first and its
last word. The cells lie in one array, ordered by their last word, then by
their first. `fill` computes the cells so that each finds the cells of all
spans inside its own finished.
-/

namespace Constituency

/-- A cell with entries of type `α` for each span of a sentence. -/
structure Chart (α : Type) where
  /-- The number of words. -/
  length : Nat
  /-- The cells. -/
  cells : Array (List α)
  /-- There is one cell for each span. -/
  size_cells : cells.size = length * (length + 1) / 2

namespace Chart

variable {α : Type}

/-- The place of the cell of a span. -/
def place (first last : Nat) : Nat :=
  last * (last + 1) / 2 + first

/-- A chart whose cells are empty. -/
def empty (length : Nat) : Chart α where
  length
  cells := .replicate (length * (length + 1) / 2) []
  size_cells := Array.size_replicate

/-- Whether a span lies in the sentence. -/
def Spans (c : Chart α) (first last : Nat) : Prop :=
  first ≤ last ∧ last < c.length

instance (c : Chart α) (first last : Nat) : Decidable (c.Spans first last) :=
  inferInstanceAs (Decidable (_ ∧ _))

/-- The entries of the cell of a span. -/
def cell (c : Chart α) (first last : Nat) : List α :=
  c.cells.getD (place first last) []

/-- Replaces the entries of the cell of a span. -/
def set (c : Chart α) (first last : Nat) (entries : List α) : Chart α where
  length := c.length
  cells := c.cells.setIfInBounds (place first last) entries
  size_cells := by rw [Array.size_setIfInBounds, c.size_cells]

/-- The entries of the cell of a span, which must lie in the sentence. -/
def cell? (c : Chart α) (first last : Nat) : Except Fault (List α) :=
  if c.Spans first last then .ok (c.cell first last)
  else .error (.outsideChart first last c.length)

/-- Changes the cell of a span, which must lie in the sentence. -/
def modify? (c : Chart α) (first last : Nat) (f : List α → List α) : Except Fault (Chart α) :=
  if c.Spans first last then .ok (c.set first last (f (c.cell first last)))
  else .error (.outsideChart first last c.length)

/-- The cell of the whole sentence, if there is a word. -/
def top? (c : Chart α) : Option (List α) :=
  if c.length = 0 then none else some (c.cell 0 (c.length - 1))

/-- The spans by the number of words, then by the first word. -/
def spansByWidth (length : Nat) : List (Nat × Nat) :=
  (List.range length).flatMap fun width =>
    (List.range (length - width)).map fun first => (first, first + width)

/-- The spans by the last word, the shorter ones first. -/
def spansByEnd (length : Nat) : List (Nat × Nat) :=
  (List.range length).flatMap fun last =>
    (List.range (last + 1)).reverse.map fun first => (first, last)

/-- The chart whose cells are computed one after the other, each from the cells so far. -/
def fill (length : Nat) (content : (Nat → Nat → List α) → Nat → Nat → List α) : Chart α :=
  (spansByEnd length).foldl
    (fun c span => c.set span.1 span.2 (content c.cell span.1 span.2))
    (empty length)

/-- The cells that are not empty, with their spans, by width and then by the first word. -/
def filled (c : Chart α) : List ((Nat × Nat) × List α) :=
  ((spansByWidth c.length).map fun span => (span, c.cell span.1 span.2)).filter (!·.2.isEmpty)

/-- The text of a chart: one line for each cell that is not empty, with the names of its
entries. -/
def text (name : α → String) (c : Chart α) : String :=
  String.join (c.filled.map fun (span, entries) =>
    toString span.1 ++ ".." ++ toString span.2 ++ ":" ++
      String.join (entries.map (" " ++ name ·)) ++ "\n")

end Chart

end Constituency
