import Constituency.Proofs.Sorted.Bisection
import Constituency.Text.DecimalDigit

/-!
# Characters held by a table of ranges

A table of ranges is searched by bisection. When its ranges ascend and do not
meet, the ranges that end before a character lead, so the one where the search
stops holds the character if any range does. The decimal digits are such a table.
-/

namespace Constituency.Text

namespace Ranges

/-- Some range of the table holds the character. -/
def Covers (ranges : Ranges) (c : Char) : Prop :=
  ∃ range ∈ ranges, range.1 ≤ c.toNat ∧ c.toNat ≤ range.2

instance (ranges : Ranges) : DecidablePred ranges.Covers := fun c =>
  inferInstanceAs (Decidable (∃ range ∈ ranges, range.1 ≤ c.toNat ∧ c.toNat ≤ range.2))

/-- The ranges ascend and do not meet. -/
structure Ascending (ranges : Ranges) : Prop where
  /-- No range ends before it starts. -/
  filled : ∀ range ∈ ranges.toList, range.1 ≤ range.2
  /-- A range ends before the later ones start. -/
  apart : ranges.toList.Pairwise fun a b => a.2 < b.1

variable {ranges : Ranges}

/-- The ranges that end before a character lead. -/
theorem Ascending.leading (h : ranges.Ascending) (c : Char) :
    Sorted.Leading (fun range => decide (range.2 < c.toNat)) ranges.toList := by
  apply List.Pairwise.imp_of_mem _ h.apart
  intro a b _ hb apart before
  have filled := h.filled b hb
  have ends : b.2 < c.toNat := of_decide_eq_true before
  exact decide_eq_true (by omega)

/-- The search finds a range that holds a character exactly when there is one. -/
theorem Ascending.holds_iff (h : ranges.Ascending) (c : Char) :
    ranges.holds c = true ↔ ranges.Covers c := by
  obtain ⟨inside, cut⟩ := Sorted.lowerBound_cut (h.leading c)
  unfold holds
  generalize Sorted.lowerBound (fun range => decide (range.2 < c.toNat)) ranges = place at inside cut
  by_cases stops : place < ranges.size
  · have reaches : ¬ranges[place].2 < c.toNat := fun before =>
      absurd ((cut place stops).mp (decide_eq_true before)) (Nat.lt_irrefl place)
    rw [Array.getElem?_eq_getElem stops, decide_eq_true_iff]
    constructor
    · intro starts
      exact ⟨ranges[place], Array.getElem_mem stops, starts, by omega⟩
    · rintro ⟨range, member, starts, ends⟩
      obtain ⟨k, hk, rfl⟩ := Array.getElem_of_mem member
      have later : place ≤ k := by
        by_cases earlier : k < place
        · have before : ranges[k].2 < c.toNat := of_decide_eq_true ((cut k hk).mpr earlier)
          omega
        · omega
      rcases Nat.lt_or_eq_of_le later with behind | rfl
      · -- a range behind the one where the search stops starts too late
        have apart : ranges[place].2 < ranges[k].1 :=
          List.pairwise_iff_getElem.mp h.apart place k (by simpa using stops) (by simpa using hk)
            behind
        omega
      · exact starts
  · rw [Array.getElem?_eq_none (by omega)]
    constructor
    · exact fun nothing => absurd nothing Bool.false_ne_true
    · rintro ⟨range, member, -, ends⟩
      obtain ⟨k, hk, rfl⟩ := Array.getElem_of_mem member
      have before : ranges[k].2 < c.toNat := of_decide_eq_true ((cut k hk).mpr (by omega))
      omega

end Ranges

/-- The ranges of the decimal digits ascend and do not meet. -/
theorem ascending_decimalDigits : decimalDigits.Ascending :=
  ⟨by decide +kernel, by decide +kernel⟩

/-- The decimal digits are the characters in the ranges of their table. -/
theorem isDecimalDigit_iff (c : Char) : isDecimalDigit c = true ↔ decimalDigits.Covers c :=
  ascending_decimalDigits.holds_iff c

example : decimalDigits.Covers '٣' ∧ ¬decimalDigits.Covers '½' := by decide +kernel

end Constituency.Text
