import Constituency.Text.Blank
import Mathlib.Data.List.TakeWhile

/-!
# Runs of characters

Separators cut a text into maximal runs of other characters; the words of a text
are its runs between blanks. The runs of a text are read off from the left: a
separator is passed over, and a run that ends with the text or before a separator
is the first one. Together they hold every character that does not separate.
-/

namespace Constituency.Text

variable {separates : Char → Bool}

/-- The maximal runs of characters that do not separate. -/
def runs (separates : Char → Bool) (cs : List Char) : List (List Char) :=
  (pieces separates cs).filter (!·.isEmpty)

/-- The words of a text are its runs between blanks. -/
theorem wordsOf_eq_map_runs (cs : List Char) : wordsOf cs = (runs isBlank cs).map String.ofList :=
  rfl

/-! ## Leading characters -/

/-- What stands behind the leading characters of a kind does not begin with another one. -/
theorem of_mem_head?_dropWhile (p : Char → Bool) (cs : List Char) :
    ∀ c ∈ (cs.dropWhile p).head?, p c = false := by
  intro c hc
  have stopped := List.head?_dropWhile_not p cs
  rw [Option.mem_def.mp hc] at stopped
  simpa using stopped

/-- A text that begins with no character of a kind has none of the kind in front. -/
theorem dropWhile_of_head? {p : Char → Bool} {cs : List Char} (h : ∀ c ∈ cs.head?, p c = false) :
    cs.takeWhile p = [] ∧ cs.dropWhile p = cs := by
  cases cs with
  | nil => exact ⟨rfl, rfl⟩
  | cons c cs =>
    have other := h c rfl
    exact ⟨List.takeWhile_cons_of_neg (by simp [other]),
      List.dropWhile_cons_of_neg (by simp [other])⟩

/-- Characters of a kind are cut off in front of a text that begins with none. -/
theorem dropWhile_append_of_head? {p : Char → Bool} {front cs : List Char}
    (kind : ∀ c ∈ front, p c = true) (stop : ∀ c ∈ cs.head?, p c = false) :
    (front ++ cs).takeWhile p = front ∧ (front ++ cs).dropWhile p = cs := by
  obtain ⟨none_taken, none_dropped⟩ := dropWhile_of_head? stop
  rw [List.takeWhile_append_of_pos kind, List.dropWhile_append_of_pos kind, none_taken,
    none_dropped, List.append_nil]
  exact ⟨rfl, rfl⟩

/-- A text without blanks is all that is left of it when the blanks behind it are cut off. -/
theorem trimChars_append {word gap : List Char} (nonblank : ∀ c ∈ word, isBlank c = false)
    (blank : ∀ c ∈ gap, isBlank c = true) : trimChars (word ++ gap) = word := by
  have back : dropBlanks (word ++ gap).reverse = word.reverse := by
    rw [List.reverse_append]
    exact (dropWhile_append_of_head? (fun c hc => blank c (List.mem_reverse.mp hc))
      fun c hc => nonblank c (List.mem_reverse.mp (List.mem_of_mem_head? hc))).2
  cases word with
  | nil =>
    have none_left : dropBlanks gap = [] := by
      simpa [dropBlanks] using blank
    rw [List.nil_append, trimChars, none_left]
    rfl
  | cons c word =>
    have front : dropBlanks (c :: word ++ gap) = c :: word ++ gap :=
      (dropWhile_of_head? fun d hd => nonblank d (by simp_all)).2
    rw [trimChars, front, back, List.reverse_reverse]

/-- What is left of a text without the blanks around it stands in it. -/
theorem trimChars_infix (cs : List Char) : trimChars cs <:+: cs := by
  have inner : trimChars cs <+: dropBlanks cs := by
    rw [trimChars, ← List.reverse_suffix, List.reverse_reverse]
    exact List.dropWhile_suffix _
  exact inner.isInfix.trans (List.dropWhile_suffix _).isInfix

/-! ## Pieces -/

/-- There is at least one piece. -/
theorem pieces_ne_nil (separates : Char → Bool) (cs : List Char) : pieces separates cs ≠ [] := by
  cases cs with
  | nil => exact List.cons_ne_nil _ _
  | cons c cs =>
    rw [pieces]
    split
    · exact List.cons_ne_nil _ _
    · split <;> exact List.cons_ne_nil _ _

/-- A separator ends an empty piece. -/
theorem pieces_cons_of_separates {c : Char} (h : separates c = true) (cs : List Char) :
    pieces separates (c :: cs) = [] :: pieces separates cs := by
  rw [pieces, if_pos h]

/-- Other characters in front belong to the first piece. -/
theorem pieces_append_of_not_separates {word : List Char} (h : ∀ c ∈ word, separates c = false)
    {cs first : List Char} {more : List (List Char)} (rest : pieces separates cs = first :: more) :
    pieces separates (word ++ cs) = (word ++ first) :: more := by
  induction word with
  | nil => exact rest
  | cons c word ih =>
    have below := ih fun d hd => h d (List.mem_cons_of_mem c hd)
    rw [List.cons_append, pieces, h c List.mem_cons_self, if_neg Bool.false_ne_true, below]
    rfl

/-- A separator ends one piece and begins another. -/
theorem pieces_append_cons {c : Char} (h : separates c = true) (front cs : List Char) :
    pieces separates (front ++ c :: cs) = pieces separates front ++ pieces separates cs := by
  induction front with
  | nil => exact pieces_cons_of_separates h cs
  | cons d front ih =>
    cases hd : separates d with
    | true =>
      rw [List.cons_append, pieces_cons_of_separates hd, pieces_cons_of_separates hd, ih]
      rfl
    | false =>
      have alone : ∀ c ∈ [d], separates c = false := by simpa using hd
      obtain ⟨first, more, rest⟩ := List.exists_cons_of_ne_nil (pieces_ne_nil separates front)
      rw [rest] at ih
      have short := pieces_append_of_not_separates alone rest
      have long := pieces_append_of_not_separates alone ih
      rw [List.singleton_append] at short long
      rw [List.cons_append, short, long]
      rfl

/-- The pieces hold every character that does not separate. -/
theorem flatten_pieces (cs : List Char) :
    (pieces separates cs).flatten = cs.filter (!separates ·) := by
  induction cs with
  | nil => rfl
  | cons c cs ih =>
    cases hc : separates c with
    | true =>
      rw [pieces_cons_of_separates hc, List.flatten_cons, ih,
        List.filter_cons_of_neg (by simp [hc])]
      rfl
    | false =>
      have alone : ∀ d ∈ [c], separates d = false := by simpa using hc
      obtain ⟨first, more, rest⟩ := List.exists_cons_of_ne_nil (pieces_ne_nil separates cs)
      have long := pieces_append_of_not_separates alone rest
      rw [List.singleton_append] at long
      rw [long, List.filter_cons_of_pos (by simp [hc]), ← ih, rest]
      rfl

/-- No character of a piece separates. -/
theorem not_separates_of_mem_pieces {cs piece : List Char} (h : piece ∈ pieces separates cs) :
    ∀ c ∈ piece, separates c = false := by
  induction cs generalizing piece with
  | nil =>
    obtain rfl := List.mem_singleton.mp h
    exact fun c hc => nomatch hc
  | cons d cs ih =>
    cases hd : separates d with
    | true =>
      rw [pieces_cons_of_separates hd] at h
      rcases List.mem_cons.mp h with rfl | h
      · exact fun c hc => nomatch hc
      · exact ih h
    | false =>
      obtain ⟨first, more, rest⟩ := List.exists_cons_of_ne_nil (pieces_ne_nil separates cs)
      have alone : ∀ c ∈ [d], separates c = false := by simpa using hd
      have split := pieces_append_of_not_separates alone rest
      rw [List.singleton_append] at split
      rw [split] at h
      rw [rest] at ih
      rcases List.mem_cons.mp h with rfl | h
      · intro c hc
        rcases List.mem_append.mp hc with front | back
        · exact alone c front
        · exact ih List.mem_cons_self c back
      · exact ih (List.mem_cons_of_mem first h)

/-! ## Runs -/

/-- A separator is passed over. -/
theorem runs_cons_of_separates {c : Char} (h : separates c = true) (cs : List Char) :
    runs separates (c :: cs) = runs separates cs := by
  rw [runs, pieces_cons_of_separates h]
  rfl

/-- Separators are passed over. -/
theorem runs_append_of_separates {gap : List Char} (h : ∀ c ∈ gap, separates c = true)
    (cs : List Char) : runs separates (gap ++ cs) = runs separates cs := by
  induction gap with
  | nil => rfl
  | cons c gap ih =>
    rw [List.cons_append, runs_cons_of_separates (h c List.mem_cons_self),
      ih fun d hd => h d (List.mem_cons_of_mem c hd)]

/-- A run that ends with the text or before a separator is the first one. -/
theorem runs_append_of_not_separates {word : List Char} (some_char : word ≠ [])
    (h : ∀ c ∈ word, separates c = false) {cs : List Char}
    (stop : ∀ c ∈ cs.head?, separates c = true) :
    runs separates (word ++ cs) = word :: runs separates cs := by
  -- what is cut off behind the word begins with an empty piece
  have cut : ∃ more, pieces separates cs = [] :: more := by
    cases cs with
    | nil => exact ⟨[], rfl⟩
    | cons c cs => exact ⟨_, pieces_cons_of_separates (stop c rfl) cs⟩
  obtain ⟨more, rest⟩ := cut
  rw [runs, runs, pieces_append_of_not_separates h rest, rest, List.append_nil,
    List.filter_cons_of_pos (by simpa using some_char)]
  rfl

/-- The runs around a separator are those before it and those behind it. -/
theorem runs_append_cons {c : Char} (h : separates c = true) (front cs : List Char) :
    runs separates (front ++ c :: cs) = runs separates front ++ runs separates cs := by
  rw [runs, pieces_append_cons h, List.filter_append]
  rfl

/-- The runs hold every character that does not separate. -/
theorem flatten_runs (cs : List Char) : (runs separates cs).flatten = cs.filter (!separates ·) := by
  rw [runs, List.flatten_filter_not_isEmpty, flatten_pieces]

/-- There is no run exactly when all characters separate. -/
theorem runs_eq_nil {cs : List Char} : runs separates cs = [] ↔ ∀ c ∈ cs, separates c = true := by
  constructor
  · intro none
    have kept : (runs separates cs).flatten = cs.filter (!separates ·) := flatten_runs cs
    rw [none] at kept
    simpa using kept.symm
  · intro h
    have gap := runs_append_of_separates h []
    rwa [List.append_nil] at gap

/-- A text without separators is one run. -/
theorem runs_of_not_separates {word : List Char} (some_char : word ≠ [])
    (h : ∀ c ∈ word, separates c = false) : runs separates word = [word] := by
  have one := runs_append_of_not_separates some_char h
    (fun c (hc : c ∈ ([] : List Char).head?) => nomatch hc)
  rwa [List.append_nil] at one

/-- A run has a character, and none of its characters separates. -/
theorem of_mem_runs {cs run : List Char} (h : run ∈ runs separates cs) :
    run ≠ [] ∧ ∀ c ∈ run, separates c = false := by
  obtain ⟨piece, filled⟩ := List.mem_filter.mp h
  exact ⟨by simpa using filled, not_separates_of_mem_pieces piece⟩

end Constituency.Text
