import Constituency.Grammar.Basic
import Constituency.NormalForm.Pending

/-!
# Splitting long rules

As long as there is a rule with three right symbols or more, the first two
symbols of the first such rule become a helper symbol with a rule of its own.
The pair is replaced at its first place in every long rule. A helper gets the
next free name of its kind: names that occur in the grammar are passed over.
-/

namespace Constituency.Store

variable {W : Type}

/-- The symbols on the left or right side of some rule. -/
def symbols (s : Store W) : List Symbol :=
  s.rules.flatMap fun r => r.left :: r.right

/-- The number of the first helper name, from `n` on, that is not taken. -/
def firstFree (taken : List Symbol) (n : Nat) : Nat :=
  if h : Symbol.helper n ∈ taken then
    have := length_erase_lt_of_mem h
    firstFree (taken.erase (.helper n)) (n + 1)
  else n
termination_by taken.length

/-- The first long rule. -/
def firstLong? (s : Store W) : Option (Rule W) :=
  s.rules.find? fun r => decide (r.kind = .long)

/-- Replaces a pair of neighbours in a long rule. -/
def mergeLong (first second new : Symbol) (r : Rule W) : Rule W :=
  if r.kind = .long then r.mergePair first second new else r

/-- The number of right symbols of a slot with a long rule. -/
def longLength : Option (Rule W) → Nat
  | some r => if r.kind = .long then r.right.length else 0
  | none => 0

/-- The number of right symbols in all long rules of a list of slots. -/
def longLengthAll : List (Option (Rule W)) → Nat
  | [] => 0
  | slot :: slots => longLength slot + longLengthAll slots

/-- The number of right symbols in all long rules together. -/
def longTotal (s : Store W) : Nat :=
  longLengthAll s.slots.toList

/-! ## Splitting ends

Each step takes a symbol away from the long rule it starts from and adds none to
any other long rule.
-/

/-- Replacing a pair takes one symbol away. -/
theorem length_of_mergePair? {first second new : Symbol} {right replaced : List Symbol}
    (h : mergePair? first second new right = some replaced) :
    replaced.length + 1 = right.length := by
  fun_induction mergePair? first second new right generalizing replaced with
  | case1 a b rest hab => cases h; simp
  | case2 a b rest hab ih =>
    obtain ⟨more, hmore, rfl⟩ := Option.map_eq_some_iff.1 h
    have := ih hmore
    simp only [List.length_cons] at *
    omega
  | case3 => simp at h

/-- Replacing a pair makes no long rule longer. -/
theorem longLength_mergeLong_le (first second new : Symbol) (slot : Option (Rule W)) :
    longLength (slot.map (mergeLong first second new)) ≤ longLength slot := by
  cases slot with
  | none => exact Nat.le_refl _
  | some r =>
    rw [Option.map_some, mergeLong]
    split
    · next hk =>
      rw [Rule.mergePair]
      split
      · next right hr =>
        have := length_of_mergePair? hr
        by_cases h2 : right.length = 2 <;> simp [longLength, hk, h2]
        omega
      · exact Nat.le_refl _
    · exact Nat.le_refl _

/-- Replacing the leading pair of a long rule makes it shorter. -/
theorem longLength_mergeLong_lt {first second : Symbol} (new : Symbol) {r : Rule W}
    {rest : List Symbol} (hk : r.kind = .long) (hr : r.right = first :: second :: rest) :
    longLength (some (mergeLong first second new r)) < longLength (some r) := by
  have h : mergePair? first second new r.right = some (new :: rest) := by
    rw [hr, mergePair?, if_pos ⟨rfl, rfl⟩]
  rw [mergeLong, if_pos hk, Rule.mergePair, h]
  by_cases h2 : (new :: rest).length = 2 <;> simp_all [longLength]

/-- Long rules of two lists are counted list by list. -/
theorem longLengthAll_append (slots more : List (Option (Rule W))) :
    longLengthAll (slots ++ more) = longLengthAll slots + longLengthAll more := by
  induction slots with
  | nil => simp [longLengthAll]
  | cons slot slots ih => rw [List.cons_append, longLengthAll, longLengthAll, ih, Nat.add_assoc]

/-- Replacing a pair everywhere makes no list of slots longer. -/
theorem longLengthAll_mergeLong_le (first second new : Symbol) (slots : List (Option (Rule W))) :
    longLengthAll (slots.map (Option.map (mergeLong first second new))) ≤ longLengthAll slots := by
  induction slots with
  | nil => exact Nat.le_refl _
  | cons slot slots ih =>
    have := longLength_mergeLong_le first second new slot
    simp only [List.map_cons, longLengthAll]
    omega

/-- Replacing the leading pair of one long rule everywhere makes the list shorter. -/
theorem longLengthAll_mergeLong_lt {first second : Symbol} (new : Symbol) {r : Rule W}
    {rest : List Symbol} (hk : r.kind = .long) (hr : r.right = first :: second :: rest)
    {slots : List (Option (Rule W))} (h : some r ∈ slots) :
    longLengthAll (slots.map (Option.map (mergeLong first second new))) < longLengthAll slots := by
  induction slots with
  | nil => simp at h
  | cons slot slots ih =>
    simp only [List.map_cons, longLengthAll]
    rcases List.mem_cons.1 h with rfl | h
    · have := longLength_mergeLong_lt new hk hr
      have := longLengthAll_mergeLong_le first second new slots
      rw [Option.map_some]
      omega
    · have := longLength_mergeLong_le first second new slot
      have := ih h
      omega

/-- The store after one step: the pair is replaced and the helper has its rule. -/
def splitPair [Weight W] (s : Store W) (first second new : Symbol) : Store W :=
  (s.mapRules (mergeLong first second new)).append ⟨new, [first, second], .binary, Weight.neutral⟩

/-- A step leaves fewer right symbols in long rules. -/
theorem longTotal_splitPair_lt [Weight W] {s : Store W} {r : Rule W} {first second : Symbol}
    {rest : List Symbol} (new : Symbol) (h : s.firstLong? = some r)
    (hr : r.right = first :: second :: rest) :
    (s.splitPair first second new).longTotal < s.longTotal := by
  have hk : r.kind = .long := of_decide_eq_true (List.find?_some h :)
  obtain ⟨id, -, hid⟩ := List.mem_filterMap.1 (List.mem_of_find?_eq_some h)
  have hslot : some r ∈ s.slots.toList := by
    rw [rule?, Option.join_eq_some_iff] at hid
    exact Array.mem_toList_iff.2 (Array.mem_of_getElem? hid)
  have := longLengthAll_mergeLong_lt new hk hr hslot
  simpa [longTotal, splitPair, append, mapRules, longLengthAll_append, longLengthAll, longLength]
    using this

end Constituency.Store

namespace Constituency.Grammar

variable {W : Type} [Weight W]

/-- Splits long rules until none is left. -/
def splitPending (taken : List Symbol) (g : Grammar W) : Except Fault (Grammar W) :=
  match h : g.store.firstLong? with
  | none => .ok g
  | some r =>
    match hr : r.right with
    | first :: second :: _ =>
      let n := Store.firstFree taken g.helpersSpent
      have := Store.longTotal_splitPair_lt (.helper n) h hr
      splitPending taken
        { g with
          store := g.store.splitPair first second (.helper n)
          helpersSpent := n + 1
          helpers := g.helpers.insert (.helper n) }
    | _ => .error (.noLeadingPair r.left)
termination_by g.store.longTotal

/-- Splits every long rule into rules with two right symbols. -/
def splitLongRules (g : Grammar W) : Except Fault (Grammar W) :=
  g.splitPending g.store.symbols

end Constituency.Grammar
