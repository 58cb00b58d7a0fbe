import Constituency.Proofs.Text.Runs
import Constituency.Tree.Bracketed

/-!
# Lexemes of bracketed texts

`Lexed` tells how a text falls into blanks and lexemes, one case for each kind of
lexeme, and every text falls into lexemes in exactly one way. What the lexemes of
a text have in common with its characters is proved by induction on it, and the
lexemes of a text that was written follow from its parts.
-/

namespace Constituency.Bracketed

open Text (isBlank dropWhile_append_of_head? of_mem_head?_dropWhile)

/-- Whether a character ends a word: a blank or a bracket. -/
def endsWord (c : Char) : Bool :=
  !isWordChar c

/-- A character that ends a word belongs to none. -/
theorem endsWord_eq_true {c : Char} : endsWord c = true ↔ isWordChar c = false := by
  rw [endsWord, Bool.not_eq_true']

/-- A character that belongs to a word ends none. -/
theorem endsWord_eq_false {c : Char} : endsWord c = false ↔ isWordChar c = true := by
  rw [endsWord, Bool.not_eq_false']

/-- A blank belongs to no word. -/
theorem isWordChar_of_isBlank {c : Char} (h : isBlank c = true) : isWordChar c = false := by
  rw [isWordChar, h]
  rfl

/-- A blank is no bracket. -/
theorem ne_of_isBlank {c : Char} (h : isBlank c = true) : c ≠ '(' ∧ c ≠ ')' := by
  constructor <;> rintro rfl <;> exact absurd h (by decide)

/-- A character of a word is no blank and no bracket. -/
theorem of_isWordChar {c : Char} (h : isWordChar c = true) :
    isBlank c = false ∧ c ≠ '(' ∧ c ≠ ')' := by
  simpa [isWordChar, and_assoc] using h

/-! ## How a text falls into lexemes -/

/-- A text and its lexemes. -/
inductive Lexed : List Char → List Lexeme → Prop
  /-- An empty text has none. -/
  | nil : Lexed [] []
  /-- Blanks are passed over. -/
  | blank {c : Char} {cs : List Char} {more : List Lexeme} (blank : isBlank c = true)
      (rest : Lexed cs more) : Lexed (c :: cs) more
  /-- A closing bracket stands for itself. -/
  | closing {cs : List Char} {more : List Lexeme} (rest : Lexed cs more) :
      Lexed (')' :: cs) (⟨.closing, ')' :: cs⟩ :: more)
  /-- A word goes as far as its characters do. -/
  | word {name cs : List Char} {more : List Lexeme} (some_char : name ≠ [])
      (chars : ∀ c ∈ name, isWordChar c = true) (stop : ∀ c ∈ cs.head?, endsWord c = true)
      (rest : Lexed cs more) : Lexed (name ++ cs) (⟨.word name, name ++ cs⟩ :: more)
  /-- An opening bracket takes the word behind it, and stands alone before another bracket. -/
  | opening {gap label cs : List Char} {more : List Lexeme}
      (blanks : ∀ c ∈ gap, isBlank c = true) (chars : ∀ c ∈ label, isWordChar c = true)
      (stop : ∀ c ∈ cs.head?, endsWord c = true)
      (alone : label = [] → ∀ c ∈ cs.head?, isBlank c = false) (rest : Lexed cs more) :
      Lexed ('(' :: (gap ++ (label ++ cs)))
        (⟨.opening label, '(' :: (gap ++ (label ++ cs))⟩ :: more)

/-- What does not end a word belongs to one. -/
theorem isWordChar_of_stop {cs : List Char} (stop : ∀ c ∈ cs.head?, endsWord c = true) :
    ∀ c ∈ cs.head?, isWordChar c = false :=
  fun c hc => endsWord_eq_true.mp (stop c hc)

/-- Every text falls into its lexemes. -/
theorem lexed_lexemes (cs : List Char) : Lexed cs (lexemes cs) := by
  fun_induction lexemes cs with
  | case1 => exact .nil
  | case2 c cs opens inside ih =>
    obtain rfl : c = '(' := by simpa using opens
    have cut : cs = cs.takeWhile isBlank ++ (inside.takeWhile isWordChar ++
        inside.dropWhile isWordChar) := by
      rw [List.takeWhile_append_dropWhile]
      exact List.takeWhile_append_dropWhile.symm
    have blanks : ∀ c ∈ cs.takeWhile isBlank, isBlank c = true :=
      fun c hc => List.mem_takeWhile_imp hc
    have chars : ∀ c ∈ inside.takeWhile isWordChar, isWordChar c = true :=
      fun c hc => List.mem_takeWhile_imp hc
    have stop : ∀ c ∈ (inside.dropWhile isWordChar).head?, endsWord c = true :=
      fun c hc => endsWord_eq_true.mpr (of_mem_head?_dropWhile isWordChar inside c hc)
    have alone : inside.takeWhile isWordChar = [] →
        ∀ c ∈ (inside.dropWhile isWordChar).head?, isBlank c = false := by
      intro bare
      have whole := List.takeWhile_append_dropWhile (p := isWordChar) (l := inside)
      rw [bare, List.nil_append] at whole
      rw [whole]
      exact of_mem_head?_dropWhile isBlank cs
    have lexed := Lexed.opening blanks chars stop alone ih
    rwa [← cut] at lexed
  | case3 c cs _ closes ih =>
    obtain rfl : c = ')' := by simpa using closes
    exact .closing ih
  | case4 c cs _ _ blank ih => exact .blank blank ih
  | case5 c cs notOpening notClosing notBlank ih =>
    have char : isWordChar c = true := by
      simp_all [isWordChar]
    have lexed := Lexed.word (List.cons_ne_nil c (cs.takeWhile isWordChar))
      (fun d hd => (List.mem_cons.mp hd).elim (fun same => same ▸ char)
        fun later => List.mem_takeWhile_imp later)
      (fun c hc => endsWord_eq_true.mpr (of_mem_head?_dropWhile isWordChar cs c hc)) ih
    rwa [List.cons_append, List.takeWhile_append_dropWhile] at lexed

/-- A text falls into lexemes in one way. -/
theorem Lexed.lexemes_eq {cs : List Char} {found : List Lexeme} (h : Lexed cs found) :
    lexemes cs = found := by
  induction h with
  | nil => rw [lexemes]
  | blank blank rest ih =>
    obtain ⟨notOpening, notClosing⟩ := ne_of_isBlank blank
    rw [lexemes, if_neg (by simpa using notOpening), if_neg (by simpa using notClosing),
      if_pos blank, ih]
  | closing rest ih =>
    rw [lexemes, if_neg (by decide), if_pos (by decide), ih]
  | @word name cs more some_char chars stop rest ih =>
    obtain ⟨c, name, rfl⟩ := List.exists_cons_of_ne_nil some_char
    obtain ⟨notBlank, notOpening, notClosing⟩ := of_isWordChar (chars c List.mem_cons_self)
    obtain ⟨taken, left⟩ := dropWhile_append_of_head?
      (fun d hd => chars d (List.mem_cons_of_mem c hd)) (isWordChar_of_stop stop)
    rw [List.cons_append, lexemes, if_neg (by simpa using notOpening),
      if_neg (by simpa using notClosing), if_neg (by simp [notBlank]), taken, left, ih]
  | @opening gap label cs more blanks chars stop alone rest ih =>
    have first : ∀ c ∈ (label ++ cs).head?, isBlank c = false := by
      cases label with
      | nil => exact alone rfl
      | cons c label =>
        intro d same
        obtain rfl : c = d := Option.some.inj same
        exact (of_isWordChar (chars c List.mem_cons_self)).1
    obtain ⟨-, inside⟩ := dropWhile_append_of_head? blanks first
    obtain ⟨taken, left⟩ := dropWhile_append_of_head? chars (isWordChar_of_stop stop)
    rw [lexemes, if_pos (by decide), Text.dropBlanks, inside]
    dsimp only
    rw [taken, left, ih]

end Constituency.Bracketed
