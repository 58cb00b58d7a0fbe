import Constituency.Proofs.Grammar.Treebank
import Constituency.Proofs.Text.Ranges
import Constituency.Proofs.Text.Runs

/-!
# Numbers among words

A number is spelled with decimal digits, at least one, and at most one point,
after a plus sign if one wishes. The check for numbers lets digits be missing on
both sides of the point, and excludes the word that is a point and nothing else.
So it accepts the numbers and one word more, the point behind a plus sign. This
is the only word without a digit that ever gives way to the symbol for numbers.
-/

namespace Constituency

open Text (decimalDigits isDecimalDigit isDecimalDigit_iff)

/-! ## Spelling -/

/-- There is a decimal digit. -/
def HasDigit (cs : List Char) : Prop :=
  ∃ c ∈ cs, decimalDigits.Covers c

instance : DecidablePred HasDigit := fun cs =>
  decidable_of_iff (cs.any (fun c => decide (decimalDigits.Covers c)) = true)
    (by simp [HasDigit])

/-- A number without its sign: decimal digits, at least one, with at most one point before, among or
behind them. -/
structure UnsignedNumber (cs : List Char) : Prop where
  /-- There are only digits and points. -/
  spelled : ∀ c ∈ cs, decimalDigits.Covers c ∨ c = '.'
  /-- There is at most one point. -/
  one_point : cs.count '.' ≤ 1
  /-- There is a digit. -/
  some_digit : HasDigit cs

instance : DecidablePred UnsignedNumber := fun cs =>
  decidable_of_iff (cs.all (fun c => decide (decimalDigits.Covers c ∨ c = '.')) = true ∧
      cs.count '.' ≤ 1 ∧ HasDigit cs)
    ⟨fun h => ⟨by simpa using h.1, h.2.1, h.2.2⟩,
      fun h => ⟨by simpa using h.spelled, h.one_point, h.some_digit⟩⟩

/-- A number: an integer or a decimal, after a plus sign if one wishes. -/
def NumberWord (word : String) : Prop :=
  UnsignedNumber word.toList ∨ word.toList.head? = some '+' ∧ UnsignedNumber word.toList.tail

instance : DecidablePred NumberWord := fun _ => inferInstanceAs (Decidable (_ ∨ _))

/-- A number has a digit. -/
theorem NumberWord.some_digit {word : String} (h : NumberWord word) : HasDigit word.toList := by
  rcases h with plain | ⟨-, signed⟩
  · exact plain.some_digit
  · obtain ⟨c, hc, digit⟩ := signed.some_digit
    exact ⟨c, List.mem_of_mem_tail hc, digit⟩

/-! ## What the check accepts -/

/-- What the check accepts behind the sign: some digits, or a point with digits before it and behind
it, which may be missing on both sides. -/
inductive UnsignedNumeral : List Char → Prop
  /-- An integer. -/
  | integer {digits : List Char} (some_digit : digits ≠ [])
      (all_digits : ∀ c ∈ digits, isDecimalDigit c = true) : UnsignedNumeral digits
  /-- A decimal. -/
  | decimal {whole fraction : List Char} (whole_digits : ∀ c ∈ whole, isDecimalDigit c = true)
      (fraction_digits : ∀ c ∈ fraction, isDecimalDigit c = true) :
      UnsignedNumeral (whole ++ '.' :: fraction)

/-- The check behind the sign. -/
def isUnsignedNumeral (cs : List Char) : Bool :=
  match cs.dropWhile isDecimalDigit with
  | [] => !(cs.takeWhile isDecimalDigit).isEmpty
  | '.' :: fraction => fraction.all isDecimalDigit
  | _ => false

/-- The point is no digit. -/
theorem not_isDecimalDigit_point : isDecimalDigit '.' = false := by
  decide +kernel

/-- The check behind the sign cuts the text at the point. -/
theorem isUnsignedNumeral_iff {cs : List Char} :
    isUnsignedNumeral cs = true ↔ UnsignedNumeral cs := by
  constructor
  · intro passed
    have leading : ∀ c ∈ cs.takeWhile isDecimalDigit, isDecimalDigit c = true := fun _ hc =>
      List.mem_takeWhile_imp hc
    have whole := List.takeWhile_append_dropWhile (p := isDecimalDigit) (l := cs)
    unfold isUnsignedNumeral at passed
    split at passed
    · next nothing =>
      rw [nothing, List.append_nil] at whole
      rw [← whole]
      exact .integer (by simpa using passed) leading
    · next fraction rest =>
      rw [← whole, rest]
      exact .decimal leading (List.all_eq_true.mp passed)
    · cases passed
  · rintro (⟨some_digit, all_digits⟩ | @⟨whole, fraction, whole_digits, fraction_digits⟩)
    · have rest := List.dropWhile_eq_nil_iff.mpr all_digits
      have taken := List.takeWhile_eq_self_iff.mpr all_digits
      unfold isUnsignedNumeral
      rw [rest, taken]
      simpa using some_digit
    · have stop : ∀ c ∈ ('.' :: fraction).head?, isDecimalDigit c = false := by
        rintro c ⟨⟩
        exact not_isDecimalDigit_point
      unfold isUnsignedNumeral
      rw [(Text.dropWhile_append_of_head? whole_digits stop).2]
      exact List.all_eq_true.mpr fraction_digits

/-- Among digits there is no point. -/
theorem count_point {digits : List Char} (all_digits : ∀ c ∈ digits, isDecimalDigit c = true) :
    digits.count '.' = 0 := by
  apply List.count_eq_zero_of_not_mem
  intro there
  exact Bool.false_ne_true (not_isDecimalDigit_point.symm.trans (all_digits _ there))

/-- What is accepted behind the sign is an unsigned number, unless it is a point alone. -/
theorem UnsignedNumeral.unsignedNumber {cs : List Char} (h : UnsignedNumeral cs)
    (not_bare : cs ≠ ['.']) : UnsignedNumber cs := by
  cases h with
  | integer some_digit all_digits =>
    obtain ⟨c, hc⟩ := List.exists_mem_of_ne_nil cs some_digit
    constructor
    case spelled => exact fun d hd => Or.inl ((isDecimalDigit_iff d).mp (all_digits d hd))
    case one_point =>
      rw [count_point all_digits]
      exact Nat.zero_le 1
    case some_digit => exact ⟨c, hc, (isDecimalDigit_iff c).mp (all_digits c hc)⟩
  | @decimal whole fraction whole_digits fraction_digits =>
    constructor
    case spelled =>
      intro c hc
      rcases List.mem_append.mp hc with front | behind
      · exact Or.inl ((isDecimalDigit_iff c).mp (whole_digits c front))
      · rcases List.mem_cons.mp behind with point | back
        · exact Or.inr point
        · exact Or.inl ((isDecimalDigit_iff c).mp (fraction_digits c back))
    case one_point =>
      rw [List.count_append, List.count_cons_self, count_point whole_digits,
        count_point fraction_digits]
    case some_digit =>
      by_cases front : whole = []
      · have back : fraction ≠ [] := by
          rintro rfl
          exact not_bare (by rw [front]; rfl)
        obtain ⟨c, hc⟩ := List.exists_mem_of_ne_nil fraction back
        exact ⟨c, List.mem_append_right _ (List.mem_cons_of_mem _ hc),
          (isDecimalDigit_iff c).mp (fraction_digits c hc)⟩
      · obtain ⟨c, hc⟩ := List.exists_mem_of_ne_nil whole front
        exact ⟨c, List.mem_append_left _ hc, (isDecimalDigit_iff c).mp (whole_digits c hc)⟩

/-- Unsigned numbers are accepted. -/
theorem UnsignedNumber.unsignedNumeral {cs : List Char} (h : UnsignedNumber cs) :
    UnsignedNumeral cs := by
  have digits : ∀ part : List Char, part ⊆ cs → '.' ∉ part →
      ∀ c ∈ part, isDecimalDigit c = true := by
    intro part inside pointless c hc
    rcases h.spelled c (inside hc) with digit | rfl
    · exact (isDecimalDigit_iff c).mpr digit
    · exact absurd hc pointless
  by_cases point : '.' ∈ cs
  · -- the point cuts the text, and there is none before it or behind it
    obtain ⟨whole, fraction, rfl⟩ := List.append_of_mem point
    have one := h.one_point
    rw [List.count_append, List.count_cons_self] at one
    apply UnsignedNumeral.decimal
    · exact digits whole (List.subset_append_left _ _) (List.count_eq_zero.mp (by omega))
    · exact digits fraction (fun c hc => List.mem_append_right _ (List.mem_cons_of_mem _ hc))
        (List.count_eq_zero.mp (by omega))
  · obtain ⟨c, hc, -⟩ := h.some_digit
    exact .integer (List.ne_nil_of_mem hc) (digits cs (List.Subset.refl cs) point)

/-- Behind the sign the check accepts the unsigned numbers and the point alone. -/
theorem unsignedNumeral_iff {cs : List Char} :
    UnsignedNumeral cs ↔ UnsignedNumber cs ∨ cs = ['.'] := by
  constructor
  · intro numeral
    by_cases bare : cs = ['.']
    · exact Or.inr bare
    · exact Or.inl (numeral.unsignedNumber bare)
  · rintro (number | rfl)
    · exact number.unsignedNumeral
    · show UnsignedNumeral ([] ++ '.' :: [])
      exact .decimal (List.forall_mem_nil _) (List.forall_mem_nil _)

/-- Nothing that starts with a plus sign is accepted behind the sign. -/
theorem not_unsignedNumeral_plus (cs : List Char) : ¬UnsignedNumeral ('+' :: cs) := by
  intro numeral
  rcases unsignedNumeral_iff.mp numeral with number | bare
  · have spelled := number.spelled '+' List.mem_cons_self
    revert spelled
    decide +kernel
  · exact absurd (List.cons.inj bare).1 (by decide)

/-- The check takes off a plus sign, if there is one, and excludes the point alone. -/
theorem isNumeral_eq (word : String) :
    isNumeral word = (word != "." && isUnsignedNumeral
      (if word.toList.head? = some '+' then word.toList.tail else word.toList)) := by
  unfold isNumeral
  split
  · next rest signed =>
    rw [signed]
    rfl
  · next unsigned =>
    have plain : word.toList.head? ≠ some '+' := by
      intro sign
      obtain ⟨rest, signed⟩ := List.head?_eq_some_iff.mp sign
      exact unsigned rest signed
    rw [if_neg plain]
    rfl

/-- The check accepts an unsigned numeral with or without a plus sign, but not the point alone. -/
theorem isNumeral_iff_unsignedNumeral {word : String} :
    isNumeral word = true ↔ word ≠ "." ∧ (UnsignedNumeral word.toList ∨
      word.toList.head? = some '+' ∧ UnsignedNumeral word.toList.tail) := by
  rw [isNumeral_eq, Bool.and_eq_true, bne_iff_ne]
  apply and_congr_right
  intro _
  by_cases sign : word.toList.head? = some '+'
  · obtain ⟨rest, signed⟩ := List.head?_eq_some_iff.mp sign
    have not_plain : ¬UnsignedNumeral word.toList := by
      rw [signed]
      exact not_unsignedNumeral_plus rest
    rw [if_pos sign, isUnsignedNumeral_iff, or_iff_right not_plain, and_iff_right sign]
  · rw [if_neg sign, isUnsignedNumeral_iff, or_iff_left fun signed => sign signed.1]

/-- The check accepts the numbers, and the point behind a plus sign. -/
theorem isNumeral_iff {word : String} :
    isNumeral word = true ↔ NumberWord word ∨ word = "+." := by
  rw [isNumeral_iff_unsignedNumeral]
  constructor
  · rintro ⟨not_point, plain | ⟨sign, signed⟩⟩
    · rcases unsignedNumeral_iff.mp plain with number | bare
      · exact Or.inl (Or.inl number)
      · exact absurd (String.toList_inj.mp bare) not_point
    · rcases unsignedNumeral_iff.mp signed with number | bare
      · exact Or.inl (Or.inr ⟨sign, number⟩)
      · have spelled : word.toList = ['+', '.'] := by
          rw [← List.cons_head?_tail sign, bare]
        exact Or.inr (String.toList_inj.mp spelled)
  · rintro (number | rfl)
    · have not_point : word ≠ "." := by
        rintro rfl
        revert number
        decide +kernel
      refine ⟨not_point, ?_⟩
      rcases number with plain | ⟨sign, signed⟩
      · exact Or.inl plain.unsignedNumeral
      · exact Or.inr ⟨sign, signed.unsignedNumeral⟩
    · exact ⟨by decide, Or.inr ⟨rfl, unsignedNumeral_iff.mpr (Or.inr rfl)⟩⟩

example : NumberWord "+3.14" ∧ NumberWord "٣." ∧ ¬NumberWord "1.2.3" ∧ ¬NumberWord "+" := by
  decide +kernel

/-! ## Replaced words -/

/-- At a place of a list of symbols, a symbol that is not the one for numbers gave way to it. -/
def NumberedAt (before after : List Symbol) (i : Nat) (s : Symbol) : Prop :=
  before[i]? = some s ∧ s ≠ .number ∧ after[i]? = some .number

instance (before after : List Symbol) (i : Nat) (s : Symbol) :
    Decidable (NumberedAt before after i s) :=
  inferInstanceAs (Decidable (_ ∧ _ ∧ _))

/-- Where symbols are replaced one by one, those give way to the symbol for numbers that it replaces
wherever they stand. -/
theorem numberedAt_map {f : Symbol → Symbol} {p : Symbol → Prop}
    (replaced : ∀ s, s ≠ .number → (f s = .number ↔ p s)) (apart : ¬p .number)
    {before : List Symbol} {i : Nat} {s : Symbol} :
    NumberedAt before (before.map f) i s ↔ before[i]? = some s ∧ p s := by
  apply and_congr_right
  intro here
  rw [List.getElem?_map, here, Option.map_some, Option.some_inj]
  constructor
  · rintro ⟨other, number⟩
    exact (replaced s other).mp number
  · intro holds
    have other : s ≠ .number := by
      rintro rfl
      exact apart holds
    exact ⟨other, (replaced s other).mpr holds⟩

/-- The symbol for numbers is no number itself. -/
theorem isNumeral_number : isNumeral Symbol.number.name = false := by
  decide +kernel

namespace Grammar

variable {W : Type} (g : Grammar W)

/-- Training gives the symbol for numbers to the words that the check accepts. -/
theorem trainedSymbol_eq_number_iff (rareBelow : Nat) {s : Symbol} (other : s ≠ .number) :
    g.trainedSymbol rareBelow s = .number ↔ isNumeral s.name = true := by
  unfold trainedSymbol replacement?
  cases isNumeral s.name with
  | true => exact iff_of_true rfl rfl
  | false =>
    rw [if_neg Bool.false_ne_true]
    split
    · exact iff_of_false (show Symbol.rare ≠ .number by decide) Bool.false_ne_true
    · exact iff_of_false other Bool.false_ne_true

/-- A sentence gives the symbol for numbers to the words that the check accepts and that have no rule
of their own. -/
theorem tokenSymbol_eq_number_iff {s : Symbol} (other : s ≠ .number) :
    g.tokenSymbol s.name = .number ↔ isNumeral s.name = true ∧ g.store.wordRules s = [] := by
  rw [tokenSymbol_eq, ← List.isEmpty_iff]
  cases (g.store.wordRules s).isEmpty with
  | true =>
    rw [if_pos rfl, g.trainedSymbol_eq_number_iff g.rareBelow other, and_iff_left rfl]
  | false => exact iff_of_false other fun both => Bool.false_ne_true both.2

/-- The words of a tree that give way to the symbol for numbers are those that the check accepts. -/
theorem numberedAt_normalizeTree {rareBelow : Nat} {t : Tree Symbol} {i : Nat} {s : Symbol} :
    NumberedAt t.words (g.normalizeTree rareBelow t).words i s ↔
      t.words[i]? = some s ∧ isNumeral s.name = true := by
  rw [words_normalizeTree]
  apply numberedAt_map fun s other => g.trainedSymbol_eq_number_iff rareBelow other
  rw [isNumeral_number]
  exact Bool.false_ne_true

/-- The words of a sentence that give way to the symbol for numbers are those that the check accepts
and that have no rule of their own. -/
theorem numberedAt_tokenSymbols {sentence : List String} {i : Nat} {s : Symbol} :
    NumberedAt (sentence.map Symbol.mk) (g.tokenSymbols sentence) i s ↔
      sentence[i]? = some s.name ∧ isNumeral s.name = true ∧ g.store.wordRules s = [] := by
  have one_by_one : g.tokenSymbols sentence =
      (sentence.map Symbol.mk).map fun s => g.tokenSymbol s.name := by
    rw [List.map_map]
    rfl
  have place : (sentence.map Symbol.mk)[i]? = some s ↔ sentence[i]? = some s.name := by
    rw [List.getElem?_map, Option.map_eq_some_iff]
    constructor
    · rintro ⟨word, here, rfl⟩
      exact here
    · intro here
      exact ⟨s.name, here, rfl⟩
  rw [one_by_one, ← place]
  apply numberedAt_map fun s other => g.tokenSymbol_eq_number_iff other
  rw [isNumeral_number]
  exact fun both => Bool.false_ne_true both.1

/-- What one expects of the check at a word and of the places where the word is replaced. -/
structure Recognized (W : Type) (word : String) : Prop where
  /-- The check accepts exactly the numbers. -/
  accepted : isNumeral word = true ↔ NumberWord word
  /-- In a sentence, only words with a digit give way to the symbol for numbers. -/
  sentences : ∀ (g : Grammar W) (sentence : List String) (i : Nat),
    NumberedAt (sentence.map Symbol.mk) (g.tokenSymbols sentence) i ⟨word⟩ → HasDigit word.toList
  /-- In a tree, only words with a digit give way to the symbol for numbers. -/
  trees : ∀ (g : Grammar W) (rareBelow : Nat) (t : Tree Symbol) (i : Nat),
    NumberedAt t.words (g.normalizeTree rareBelow t).words i ⟨word⟩ → HasDigit word.toList

/-- A point behind a plus sign is no number. -/
theorem not_numberWord_signedPoint : ¬NumberWord "+." := by
  decide +kernel

/-- Numbers are recognized as one expects, but for the point behind a plus sign, which is taken for
one. It gives way to the symbol for numbers as they do: everywhere in a tree, and in a sentence
unless it has a rule of its own. -/
theorem recognized_iff (W : Type) (word : String) :
    (Recognized W word ↔ word ≠ "+.") ∧
      (isNumeral word = true ↔ NumberWord word ∨ word = "+.") ∧
      ∀ (g : Grammar W) (i : Nat),
        (∀ sentence : List String,
          NumberedAt (sentence.map Symbol.mk) (g.tokenSymbols sentence) i ⟨word⟩ ↔
            sentence[i]? = some word ∧ (NumberWord word ∨ word = "+.") ∧
              g.store.wordRules ⟨word⟩ = []) ∧
        ∀ (rareBelow : Nat) (t : Tree Symbol),
          NumberedAt t.words (g.normalizeTree rareBelow t).words i ⟨word⟩ ↔
            t.words[i]? = some ⟨word⟩ ∧ (NumberWord word ∨ word = "+.") := by
  refine ⟨?_, isNumeral_iff, fun g i => ⟨fun sentence => ?_, fun rareBelow t => ?_⟩⟩
  · constructor
    · rintro recognized rfl
      exact not_numberWord_signedPoint (recognized.accepted.mp (isNumeral_iff.mpr (Or.inr rfl)))
    · intro other
      have accepted : isNumeral word = true ↔ NumberWord word := by
        rw [isNumeral_iff, or_iff_left other]
      constructor
      case accepted => exact accepted
      case sentences =>
        intro g sentence i numbered
        obtain ⟨-, numeral, -⟩ := g.numberedAt_tokenSymbols.mp numbered
        exact (accepted.mp numeral).some_digit
      case trees =>
        intro g rareBelow t i numbered
        obtain ⟨-, numeral⟩ := g.numberedAt_normalizeTree.mp numbered
        exact (accepted.mp numeral).some_digit
  · rw [numberedAt_tokenSymbols, isNumeral_iff]
  · rw [numberedAt_normalizeTree, isNumeral_iff]

/-- The point behind a plus sign has no digit, is accepted, and gives way to the symbol for numbers
in sentences and in trees. -/
theorem not_recognized_signedPoint :
    isNumeral "+." = true ∧ ¬NumberWord "+." ∧ ¬HasDigit "+.".toList ∧
      ({} : Grammar Unit).tokenSymbols ["+."] = [.number] ∧
      (({} : Grammar Unit).normalizeTree 0 (.node ⟨"CD"⟩ [.leaf ⟨"+."⟩])).words = [.number] ∧
      ¬Recognized Unit "+." := by
  have digitless : ¬HasDigit "+.".toList := by decide +kernel
  refine ⟨by decide +kernel, not_numberWord_signedPoint, digitless, by decide +kernel,
    by decide +kernel, fun recognized => ?_⟩
  exact digitless (recognized.sentences {} ["+."] 0 (by decide +kernel))

end Grammar

end Constituency
