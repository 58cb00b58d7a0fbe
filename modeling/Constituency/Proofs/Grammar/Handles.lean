import Constituency.Proofs.Grammar.Operations
import Constituency.Proofs.NormalForm.Survivors
import Mathlib

/-!
# What a number of a rule is worth

Rules are handed out by number. Until the next conversion a number stands for the rule
that it was found for, or for none once that rule was removed; a conversion gives all
rules new numbers, from zero on and without a gap, and keeps them in order.
-/

namespace Constituency.Grammar

variable {W : Type} [Weight W] [TreebankWeight W]

/-- After every run, whatever is asked of the store, the numbers that were found stay those of
their rules until these are removed, and are empty from then on; the numbers fit into 32 bits while
fewer than `2 ^ 32` have been given. A conversion leaves the numbers below the number of rules, in
the order that the rules had. -/
theorem numbers_are_handles (ops : List (Operation W)) :
    ∃ g : Grammar W, ({} : Grammar W).execute ops = .ok g ∧
      (∀ requests, ∃ t answers,
        g.store.serve requests = .ok (t, answers) ∧ g.store.Handles requests t) ∧
      ∃ middle h, g.store.eliminateUnits = .ok middle ∧ g.normalForm = .ok h ∧
        g.Renumbered middle h := by
  obtain ⟨g, done, reached⟩ := Reachable.empty.execute ops
  have indexed := (reached.indexed_filled fun _ made => made.filled).1
  have fits := reached.fits fun _ made => made.fits
  exact ⟨g, done, indexed.exists_handles, exists_renumbered indexed fits⟩

/-- A run that stores four rules, one of them for a single category and one of them long. -/
def fourRules : List (Operation Unit) :=
  [.add ⟨⟨"S"⟩, [⟨"NP"⟩, ⟨"VP"⟩], .binary, ()⟩ ⟨by decide, rfl⟩,
    .add ⟨⟨"NP"⟩, [⟨"N"⟩], .terminal, ()⟩ ⟨by decide, rfl⟩,
    .add ⟨⟨"VP"⟩, [⟨"V"⟩, ⟨"NP"⟩, ⟨"PP"⟩], .long, ()⟩ ⟨by decide, rfl⟩,
    .add ⟨⟨"N"⟩, [⟨"fish"⟩], .terminal, ()⟩ ⟨by decide, rfl⟩, .assignKinds]

/-- The rule for a single category is removed and stored again. -/
def exchange : List (Store.Request Unit) :=
  [.remove ⟨⟨"NP"⟩, [⟨"N"⟩], .terminal, ()⟩, .add ⟨⟨"NP"⟩, [⟨"N"⟩], .terminal, ()⟩ (by decide)]

/-- What searches find after the run, after the exchange and after a conversion. -/
def numbersFound : Except Fault (List (Option RuleNumber)) := do
  let g ← ({} : Grammar Unit).execute fourRules
  let (t, _) ← g.store.serve exchange
  let h ← g.normalForm
  return [g.store.search ⟨"NP"⟩ [⟨"N"⟩], t.search ⟨"NP"⟩ [⟨"N"⟩],
    g.store.search ⟨"N"⟩ [⟨"fish"⟩], h.store.search ⟨"N"⟩ [⟨"fish"⟩]]

/-- The rule that was stored again has a number of its own, and its old one is empty. A conversion
of the four rules removes it and moves those behind it up. -/
theorem numbers_are_handles_exchanged : ∃ g middle h t answers,
    ({} : Grammar Unit).execute fourRules = .ok g ∧
    g.store.serve exchange = .ok (t, answers) ∧ g.store.Handles exchange t ∧
    g.normalForm = .ok h ∧ g.Renumbered middle h ∧ t.rule 1 = .error .noSuchRule ∧
    [g.store.search ⟨"NP"⟩ [⟨"N"⟩], t.search ⟨"NP"⟩ [⟨"N"⟩],
      g.store.search ⟨"N"⟩ [⟨"fish"⟩], h.store.search ⟨"N"⟩ [⟨"fish"⟩]] =
      [some 1, some 4, some 3, some 2] := by
  obtain ⟨g, made, served, middle, h, -, converted, renumbered⟩ := numbers_are_handles fourRules
  obtain ⟨t, answers, served, handles⟩ := served exchange
  have found : numbersFound = .ok [some 1, some 4, some 3, some 2] := by cbv
  rw [numbersFound, made] at found
  simp only [bind, Except.bind, served, converted] at found
  have numbers := Except.ok.inj found
  have before : g.store.search ⟨"NP"⟩ [⟨"N"⟩] = some 1 := (List.cons.inj numbers).1
  exact ⟨g, middle, h, t, answers, made, served, handles, converted, renumbered,
    handles.gone _ _ _ _ before List.mem_cons_self rfl, numbers⟩

end Constituency.Grammar
