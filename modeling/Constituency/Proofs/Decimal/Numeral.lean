import Constituency.Decimal.Numeral

/-!
# How numerals are spelled

A numeral has at least one character, and all of them are digits, signs, points
and the letters of the values that are not finite. In particular it is one word.
-/

namespace Constituency.Decimal

/-- Whether a character occurs in numerals. -/
def isNumeralChar (c : Char) : Bool :=
  c.isDigit || ['-', '.', 'N', 'a', 'i', 'n', 'f'].contains c

/-- Whether a text is spelled like a numeral. -/
def Spelled (s : String) : Prop :=
  s ≠ "" ∧ ∀ c ∈ s.toList, isNumeralChar c = true

instance (s : String) : Decidable (Spelled s) :=
  decidable_of_iff (s ≠ "" ∧ s.toList.all isNumeralChar = true) (by simp [Spelled])

/-- A sign belongs to the spelling. -/
theorem Spelled.signed {s : String} (h : Spelled s) (negative : Bool) :
    Spelled (signed negative s) := by
  cases negative with
  | false => exact h
  | true =>
    refine ⟨by simp [Decimal.signed], fun c hc => ?_⟩
    have front : c = '-' ∨ c ∈ s.toList := by
      simpa [Decimal.signed] using hc
    rcases front with rfl | hc
    · decide
    · exact h.2 c hc

/-- Digits and zeros are spelled like numerals. -/
theorem Digits.spelled_positional (d : Digits) : Spelled d.positional := by
  have digit : ∀ c ∈ Nat.toDigits 10 d.whole, isNumeralChar c = true := by
    intro c hc
    rw [isNumeralChar, Nat.isDigit_of_mem_toDigits (by decide) (by decide) hc]
    rfl
  have zero : ∀ (n : Nat), ∀ c ∈ List.replicate n '0', isNumeralChar c = true := by
    intro n c hc
    rw [List.eq_of_mem_replicate hc]
    decide
  rw [Digits.positional]
  dsimp only
  split
  · refine ⟨by simp [Nat.toDigits_ne_nil], fun c hc => ?_⟩
    rw [String.toList_ofList] at hc
    exact (List.mem_append.mp hc).elim (digit c) (zero _ c)
  · -- there are more digits than places behind the point
    generalize hplaces : (-d.exponent).toNat = places
    generalize hpadded : List.replicate (places + 1 - (Nat.toDigits 10 d.whole).length) '0' ++
      Nat.toDigits 10 d.whole = padded
    have enough : places < padded.length := by
      rw [← hpadded, List.length_append, List.length_replicate]
      omega
    have spelled : ∀ c ∈ padded, isNumeralChar c = true := by
      intro c hc
      rw [← hpadded] at hc
      exact (List.mem_append.mp hc).elim (zero _ c) (digit c)
    have whole : padded.take (padded.length - places) ≠ [] :=
      List.ne_nil_of_length_pos (by rw [List.length_take]; omega)
    split
    · refine ⟨by simpa using whole, fun c hc => ?_⟩
      rw [String.toList_ofList] at hc
      exact spelled c (List.mem_of_mem_take hc)
    · refine ⟨by simp, fun c hc => ?_⟩
      rw [String.toList_ofList, List.mem_append, List.mem_cons] at hc
      rcases hc with hc | rfl | hc
      · exact spelled c (List.mem_of_mem_take hc)
      · decide
      · have inFraction := (List.dropWhile_sublist _).subset (List.mem_reverse.mp hc)
        exact spelled c (List.mem_of_mem_drop (List.mem_reverse.mp inFraction))

/-- The numeral of a number is spelled like one. -/
theorem spelled_numeral (x : Float) : Spelled (numeral x) := by
  rw [numeral]
  split
  · decide +kernel
  · exact Spelled.signed (by decide +kernel) _
  · split
    · exact Spelled.signed (by decide +kernel) _
    · exact (Digits.spelled_positional _).signed _

end Constituency.Decimal
