import Constituency.Proofs.Text.Runs
import Constituency.Rule.Text

/-!
# Arrows and brackets in the text of rules

The first arrow of a line splits it, and the first bracket that holds one word and
has nothing behind it is cut off. Both are found again in a text whose front holds
no other one.
-/

namespace Constituency.Rule

open Text (isBlank dropBlanks dropWhile_append_of_head? of_mem_head?_dropWhile)

/-! ## Arrows -/

/-- The sides of an arrow stand around it. -/
theorem eq_of_splitArrow? {cs before behind : List Char}
    (h : splitArrow? cs = some (before, behind)) : cs = before ++ '-' :: '>' :: behind := by
  fun_induction splitArrow? cs generalizing before behind with
  | case1 rest =>
    cases h
    rfl
  | case2 c rest notArrow ih =>
    obtain ⟨⟨front, back⟩, below, same⟩ := Option.map_eq_some_iff.mp h
    cases same
    exact congrArg (c :: ·) (ih below)
  | case3 => cases h

/-- What stands before the first arrow holds none. -/
theorem not_arrow_infix_of_splitArrow? {cs before behind : List Char}
    (h : splitArrow? cs = some (before, behind)) : ¬ ['-', '>'] <:+: before := by
  fun_induction splitArrow? cs generalizing before behind with
  | case1 rest =>
    cases h
    simp
  | case2 c rest notArrow ih =>
    obtain ⟨⟨front, back⟩, below, same⟩ := Option.map_eq_some_iff.mp h
    cases same
    intro arrow
    rcases List.infix_cons_iff.mp arrow with first | later
    · -- then the text has an arrow in front, where it was found to have none
      obtain ⟨dash, more, head⟩ := List.cons_prefix_cons.mp first
      dsimp only at head
      rw [eq_of_splitArrow? below, ← head] at notArrow
      exact notArrow _ dash.symm rfl
    · exact ih below later
  | case3 => cases h

/-- An arrow behind a blank is the first one if none stands before it. -/
theorem splitArrow?_append {front : List Char} (h : ¬ ['-', '>'] <:+: front)
    (behind : List Char) :
    splitArrow? (front ++ ' ' :: '-' :: '>' :: behind) = some (front ++ [' '], behind) := by
  induction front with
  | nil => rfl
  | cons c front ih =>
    have later : ¬ ['-', '>'] <:+: front := fun arrow => h (List.infix_cons arrow)
    have notArrow : ∀ rest, c = '-' →
        front ++ ' ' :: '-' :: '>' :: behind = '>' :: rest → False := by
      rintro rest rfl head
      cases front with
      | nil => cases head
      | cons d front =>
        obtain rfl : d = '>' := (List.cons.inj head).1
        exact h ⟨[], front, rfl⟩
    rw [List.cons_append, splitArrow?, ih later]
    · rfl
    · exact notArrow

/-! ## Brackets -/

/-- Whether a character may stand in the word of a bracket. -/
def isInside (c : Char) : Bool :=
  !isBlank c && c != ']'

/-- What stands behind an opening bracket that holds one word and has nothing behind it. -/
structure Holds (word cs : List Char) : Prop where
  /-- The word has a character. -/
  some_char : word ≠ []
  /-- It has no blank and no closing bracket. -/
  chars : ∀ c ∈ word, isInside c = true
  /-- There are only blanks around it, and behind the closing bracket. -/
  text : ∃ gap close tail, cs = gap ++ (word ++ (close ++ ']' :: tail)) ∧
    (∀ c ∈ gap, isBlank c = true) ∧ (∀ c ∈ close, isBlank c = true) ∧
      ∀ c ∈ tail, isBlank c = true

/-- Whether a text ends with a bracket that holds one word. -/
def EndsBracketed (cs : List Char) : Prop :=
  ∃ before rest word, cs = before ++ '[' :: rest ∧ Holds word rest

/-- A character of a bracket's word is no blank and no closing bracket. -/
theorem isInside_eq_true {c : Char} : isInside c = true ↔ isBlank c = false ∧ c ≠ ']' := by
  simp [isInside]

/-- A blank stands in no word of a bracket. -/
theorem isInside_of_isBlank {c : Char} (h : isBlank c = true) : isInside c = false := by
  rw [isInside, h]
  rfl

/-- The bracket is read off the text behind its opening. -/
theorem bracketed?_eq_some {cs word : List Char} :
    bracketed? cs = some word ↔ Holds word cs := by
  rw [bracketed?, show (fun c => !isBlank c && c != ']') = isInside from rfl]
  constructor
  · intro h
    split at h
    · next tail closes =>
      split at h
      · next filled =>
        cases h
        have kinds : (dropBlanks cs).takeWhile isInside ≠ [] ∧ ∀ c ∈ tail, isBlank c = true := by
          simpa using filled
        have body : cs = cs.takeWhile isBlank ++ dropBlanks cs :=
          List.takeWhile_append_dropWhile.symm
        have word : dropBlanks cs =
            (dropBlanks cs).takeWhile isInside ++ (dropBlanks cs).dropWhile isInside :=
          List.takeWhile_append_dropWhile.symm
        have close : (dropBlanks cs).dropWhile isInside =
            ((dropBlanks cs).dropWhile isInside).takeWhile isBlank ++ ']' :: tail := by
          rw [← closes]
          exact List.takeWhile_append_dropWhile.symm
        refine ⟨kinds.1, fun c hc => List.mem_takeWhile_imp hc, cs.takeWhile isBlank,
          ((dropBlanks cs).dropWhile isInside).takeWhile isBlank, tail, ?_,
          fun c hc => List.mem_takeWhile_imp hc, fun c hc => List.mem_takeWhile_imp hc, kinds.2⟩
        rw [← close, ← word, ← body]
      · cases h
    · cases h
  · rintro ⟨some_char, chars, gap, close, tail, rfl, gapBlank, closeBlank, tailBlank⟩
    have begins : ∀ c ∈ (word ++ (close ++ ']' :: tail)).head?, isBlank c = false := by
      obtain ⟨c, word, rfl⟩ := List.exists_cons_of_ne_nil some_char
      rintro d ⟨⟩
      exact (isInside_eq_true.mp (chars c List.mem_cons_self)).1
    have ends : ∀ c ∈ (close ++ ']' :: tail).head?, isInside c = false := by
      cases close with
      | nil =>
        rintro c ⟨⟩
        decide
      | cons c close =>
        rintro d ⟨⟩
        exact isInside_of_isBlank (closeBlank c List.mem_cons_self)
    have body : dropBlanks (gap ++ (word ++ (close ++ ']' :: tail))) = _ :=
      (dropWhile_append_of_head? gapBlank begins).2
    obtain ⟨taken, left⟩ := dropWhile_append_of_head? chars ends
    have closing : ∀ c ∈ (']' :: tail).head?, isBlank c = false := by
      rintro c ⟨⟩
      decide
    have last : dropBlanks (close ++ ']' :: tail) = _ :=
      (dropWhile_append_of_head? closeBlank closing).2
    rw [body, taken, left, last]
    simpa [some_char] using tailBlank

/-- A text that holds one word in a bracket from its first character on is that bracket. -/
theorem splitBracket_cons {cs word : List Char} (h : Holds word cs) :
    splitBracket ('[' :: cs) = ([], some word) := by
  rw [splitBracket, if_pos (by decide), bracketed?_eq_some.mpr h]

/-- A bracket is searched for behind a front in which none opens. -/
theorem splitBracket_append {front back : List Char}
    (h : ∀ before rest, front = before ++ '[' :: rest → ∀ word, ¬ Holds word (rest ++ back)) :
    splitBracket (front ++ back) = (front ++ (splitBracket back).1, (splitBracket back).2) := by
  induction front with
  | nil => rfl
  | cons c front ih =>
    have later := ih fun before rest same => h (c :: before) rest (congrArg (c :: ·) same)
    have here : (if c == '[' then bracketed? (front ++ back) else none) = none := by
      split
      · next opens =>
        obtain rfl : c = '[' := by simpa using opens
        refine Option.eq_none_iff_forall_ne_some.mpr fun word found => ?_
        exact h [] front rfl word (bracketed?_eq_some.mp found)
      · rfl
    rw [List.cons_append, splitBracket, here, later]
    rfl

/-- A text that does not end with a bracket keeps all its characters. -/
theorem splitBracket_of_not_endsBracketed {cs : List Char} (h : ¬ EndsBracketed cs) :
    splitBracket cs = (cs, none) := by
  have whole := @splitBracket_append cs [] fun before rest same word found =>
    h ⟨before, rest, word, same, by rwa [List.append_nil] at found⟩
  simpa [splitBracket] using whole

/-- A text that ends with a bracket is cut at the opening of one. -/
theorem exists_splitBracket_of_endsBracketed {cs : List Char} (h : EndsBracketed cs) :
    ∃ before rest word, splitBracket cs = (before, some word) ∧ cs = before ++ '[' :: rest ∧
      Holds word rest := by
  induction cs with
  | nil => obtain ⟨before, rest, word, same, -⟩ := h; simp at same
  | cons c cs ih =>
    cases here : (if c == '[' then bracketed? cs else none) with
    | some word =>
      have opens : c = '[' := by
        by_contra other
        rw [if_neg (by simpa using other)] at here
        cases here
      subst opens
      have held := bracketed?_eq_some.mp here
      exact ⟨[], cs, word, splitBracket_cons held, rfl, held⟩
    | none =>
      have later : EndsBracketed cs := by
        obtain ⟨before, rest, word, same, held⟩ := h
        cases before with
        | nil =>
          obtain ⟨rfl, rfl⟩ := List.cons.inj same
          rw [if_pos (by decide), bracketed?_eq_some.mpr held] at here
          cases here
        | cons d before => exact ⟨before, rest, word, (List.cons.inj same).2, held⟩
      obtain ⟨before, rest, word, cut, same, held⟩ := ih later
      refine ⟨c :: before, rest, word, ?_, congrArg (c :: ·) same, held⟩
      rw [splitBracket, here, cut]

/-- Whether a text ends with a bracket is told by cutting one off. -/
theorem endsBracketed_iff {cs : List Char} :
    EndsBracketed cs ↔ (splitBracket cs).2.isSome = true := by
  by_cases ends : EndsBracketed cs
  · obtain ⟨before, rest, word, cut, -⟩ := exists_splitBracket_of_endsBracketed ends
    simp [ends, cut]
  · simp [ends, splitBracket_of_not_endsBracketed ends]

instance (cs : List Char) : Decidable (EndsBracketed cs) :=
  decidable_of_iff' _ endsBracketed_iff

end Constituency.Rule
