import Constituency.Symbol

/-!
# Working off a list

Both halves of the conversion to normal form take symbols from a finite list:
the categories still to be expanded, and the names already taken. Each step
uses one of them up, which is why the steps end.
-/

namespace Constituency

/-- Using up a symbol of a list leaves a shorter one. -/
theorem length_erase_lt_of_mem {pending : List Symbol} {s : Symbol} (h : s ∈ pending) :
    (pending.erase s).length < pending.length := by
  have := List.length_pos_of_mem h
  rw [List.length_erase_of_mem h]
  omega

end Constituency
