import Constituency.Proofs.NormalForm.Conversion
import Mathlib.Data.List.Find

/-!
# Unit elimination round by round

A round of unit elimination expands the category of the first unit rule that is
no loop and whose category was not expanded in an earlier round. Inside a round
the numbers of rules are collected first and looked up later, while rules come
and go. A run is told here step by step, together with what every step relies
on: both lists name stored rules only, no right side is empty, the number that
is looked up has a rule, and the rule that goes is found on both lists. Every
indexed store whose kinds fit has such a run: what a category was expanded into
never brings back a unit rule for a category that is done, so at some point no
rule asks for another round.
-/

namespace Constituency

namespace Store

variable {W : Type}

/-- The category to expand next, when some were expanded before: the right side of the first unit
rule that is no loop and whose right side is none of them. -/
def nextUnexpanded? (s : Store W) (expanded : List Symbol) : Option Symbol :=
  s.firstAsked? fun a => !expanded.contains a

/-- The next category was not expanded before, and a unit rule that is no loop asks for it. -/
theorem nextUnexpanded?_eq_some {s : Store W} {expanded : List Symbol} {target : Symbol}
    (h : s.nextUnexpanded? expanded = some target) :
    target ∉ expanded ∧
      ∃ u ∈ s.rules, u.kind = .unit ∧ u.isLoop = false ∧ u.right.head? = some target := by
  obtain ⟨fresh, asked⟩ := firstAsked?_eq_some h
  exact ⟨by simpa using fresh, asked⟩

/-- Without a next category, unit rules for categories that were not expanded are loops. -/
theorem nextUnexpanded?_eq_none {s : Store W} {expanded : List Symbol}
    (h : s.nextUnexpanded? expanded = none) {u : Rule W} (hu : u ∈ s.rules) (unit : u.kind = .unit)
    {a : Symbol} (right : u.right = [a]) (fresh : a ∉ expanded) : u.left = a :=
  firstAsked?_eq_none h hu unit right (by simpa using fresh)

section Runs

variable [Weight W]

/-- The rules with the listed numbers are applied inside a unit rule, one after the other. -/
inductive Composes (unit : Rule W) : List RuleNumber → Store W → Store W → Prop
  /-- No number is left. -/
  | done (s : Store W) : Composes unit [] s s
  /-- The rule with the first number is applied and the composed rule is stored. -/
  | step {id : RuleNumber} {ids : List RuleNumber} {inner : Rule W} {s m t : Store W}
      (listed : s.Listed) (found : s.rule id = .ok inner)
      (composed : s.addComposed unit inner = .ok m) (rest : Composes unit ids m t) :
      Composes unit (id :: ids) s t

/-- The unit rules with the listed numbers are replaced, one after the other, by what their category
expands into. -/
inductive Replaces (target : Symbol) : List RuleNumber → Store W → Store W → Prop
  /-- No number is left. -/
  | done (s : Store W) : Replaces target [] s s
  /-- The rule with the first number is composed with those for the category, then removed. -/
  | step {id : RuleNumber} {ids : List RuleNumber} {unit : Rule W} {old : Option (Rule W)}
      {s m n t : Store W} (listed : s.Listed) (found : s.rule id = .ok unit)
      (inside : Composes unit (s.idsWithLeft target) s m) (listedInside : m.Listed)
      (removed : m.remove unit = .ok (n, old)) (rest : Replaces target ids n t) :
      Replaces target (id :: ids) s t

/-- A run of unit elimination that starts when some categories are expanded. -/
inductive Rounds : List Symbol → Store W → Store W → Prop
  /-- No unit rule asks for another round. -/
  | done {expanded : List Symbol} {s : Store W} (listed : s.Listed) (filled : s.Filled)
      (none : s.nextUnexpanded? expanded = none) : Rounds expanded s s
  /-- The next category is expanded. -/
  | round {expanded : List Symbol} {target : Symbol} {s m t : Store W} (listed : s.Listed)
      (filled : s.Filled) (next : s.nextUnexpanded? expanded = some target)
      (replaced : Replaces target (s.idsWithRight [target]) s m)
      (rest : Rounds (target :: expanded) m t) : Rounds expanded s t

end Runs

/-! ## Runs and functions -/

section Functions

variable [Weight W] {s t : Store W} {target : Symbol}

/-- Applying rules inside a unit rule is the inner loop of an expansion. -/
theorem Composes.foldlM_eq {unit : Rule W} {ids : List RuleNumber} (h : Composes unit ids s t) :
    ids.foldlM (fun s inner => do s.addComposed unit (← s.rule inner)) s = .ok t := by
  induction h with
  | done => rfl
  | step _ found composed _ ih =>
    rw [List.foldlM_cons, found]
    simp only [bind, Except.bind] at ih ⊢
    rw [composed]
    exact ih

/-- Replacing unit rules is the outer loop of an expansion. -/
theorem Replaces.foldlM_eq {ids : List RuleNumber} (h : Replaces target ids s t) :
    ids.foldlM (fun s id => s.expandUnit target id) s = .ok t := by
  induction h with
  | done => rfl
  | @step id ids unit old s m n t _ found inside _ removed _ ih =>
    have first : s.expandUnit target id = .ok n := by
      have fold := inside.foldlM_eq
      rw [expandUnit, found]
      simp only [bind, Except.bind] at fold ⊢
      rw [fold]
      simp only [removed]
      rfl
    rw [List.foldlM_cons, first]
    exact ih

/-- From one store there is only one run. -/
theorem Rounds.unique {expanded : List Symbol} {u : Store W} (h : Rounds expanded s t)
    (other : Rounds expanded s u) : t = u := by
  induction h with
  | done _ _ none =>
    cases other with
    | done => rfl
    | round _ _ next =>
      rw [none] at next
      cases next
  | round _ _ next replaced _ ih =>
    cases other with
    | done _ _ none =>
      rw [none] at next
      cases next
    | round _ _ next' replaced' rest' =>
      obtain rfl := Option.some.inj (next.symm.trans next')
      obtain rfl := Except.ok.inj (replaced.foldlM_eq.symm.trans replaced'.foldlM_eq)
      exact ih rest'

/-! ## Every store has a run -/

/-- When rules are applied inside a unit rule without a fault, it is on indexed stores only. -/
theorem Indexed.composes_of_ok (h : s.Indexed) {unit : Rule W} {ids : List RuleNumber}
    (ok : ids.foldlM (fun s inner => do s.addComposed unit (← s.rule inner)) s = .ok t) :
    Composes unit ids s t ∧ t.Indexed := by
  induction ids generalizing s with
  | nil =>
    cases ok
    exact ⟨.done _, h⟩
  | cons id ids ih =>
    rw [List.foldlM_cons] at ok
    obtain ⟨m, first, rest⟩ := exists_of_bind_ok ok
    obtain ⟨inner, found, composed⟩ := exists_of_bind_ok first
    have indexed : m.Indexed := by
      rw [addComposed] at composed
      split at composed
      · cases composed
      · cases composed
        exact h.add _
    obtain ⟨later, indexedT⟩ := ih indexed rest
    exact ⟨.step h.toListed found composed later, indexedT⟩

/-- When unit rules are replaced without a fault, it is on indexed stores only. -/
theorem Indexed.replaces_of_ok (h : s.Indexed) {ids : List RuleNumber}
    (ok : ids.foldlM (fun s id => s.expandUnit target id) s = .ok t) : Replaces target ids s t := by
  induction ids generalizing s with
  | nil =>
    cases ok
    exact .done _
  | cons id ids ih =>
    rw [List.foldlM_cons] at ok
    obtain ⟨n, first, rest⟩ := exists_of_bind_ok ok
    obtain ⟨unit, found, first⟩ := exists_of_bind_ok first
    obtain ⟨m, inside, first⟩ := exists_of_bind_ok first
    obtain ⟨⟨n', old⟩, removed, last⟩ := exists_of_bind_ok first
    cases last
    obtain ⟨composes, indexed⟩ := h.composes_of_ok inside
    obtain ⟨n', old', removed', indexedN, -⟩ := indexed.remove unit
    rw [removed] at removed'
    cases removed'
    exact .step h.toListed found composes indexed.toListed removed (ih indexedN rest)

/-- The rules that expand something into a category can be replaced, one after the other, and
`Expanded` tells what that does. -/
theorem Indexed.exists_replaces (h : s.Indexed) (filled : s.Filled) (target : Symbol) :
    ∃ t, Replaces target (s.idsWithRight [target]) s t ∧ s.expandTarget target = .ok t ∧
      t.Indexed ∧ s.Expanded t target := by
  obtain ⟨t, ok, indexed, expanded⟩ := h.expandTarget filled target
  exact ⟨t, h.replaces_of_ok ok, ok, indexed, expanded⟩

end Functions

/-- Every unit rule expands into one category, which is pending when it was not expanded. -/
def Asks (s : Store W) (pending expanded : List Symbol) : Prop :=
  ∀ u ∈ s.rules, u.kind = .unit → ∃ a, u.right = [a] ∧ (a ∈ pending ↔ a ∉ expanded)

section Existence

variable {s : Store W} {pending expanded : List Symbol}

/-- At the start nothing is expanded and every category is pending that a unit rule asks for. -/
theorem asks_unitTargets (single : ∀ u ∈ s.rules, u.kind = .unit → ∃ a, u.right = [a]) :
    s.Asks s.unitTargets [] := by
  intro u hu unit
  obtain ⟨a, right⟩ := single u hu unit
  exact ⟨a, right, fun _ => List.not_mem_nil, fun _ => mem_unitTargets hu unit right⟩

/-- The next category is the same whether pending ones are listed or those that are done. -/
theorem Asks.nextUnitTarget?_eq (asks : s.Asks pending expanded) :
    s.nextUnitTarget? pending = s.nextUnexpanded? expanded := by
  rw [nextUnitTarget?, nextUnexpanded?, firstAsked?]
  refine congrArg (Option.bind · _) (List.find?_congr fun r hr => ?_)
  cases unit : r.kind == .unit with
  | false => rfl
  | true =>
    obtain ⟨a, right, here⟩ := asks r hr (beq_iff_eq.mp unit)
    have same : pending.contains a = !expanded.contains a := by
      rw [Bool.eq_iff_iff, Bool.not_eq_true', List.contains_iff_mem, List.contains_eq_mem,
        decide_eq_false_iff_not]
      exact here
    rw [right, List.head?_cons, Option.any_some, Option.any_some, same]

variable [Weight W] {target : Symbol} {t m : Store W}

/-- Expanding a category takes it off the pending ones, and no unit rule asks for it again. -/
theorem Asks.step (asks : s.Asks pending expanded) (first : s.Expanded m target) :
    m.Asks (pending.erase target) (target :: expanded) := by
  intro u hu unit
  obtain ⟨other, q, hq, sameRight, kind⟩ := first.exists_of_mem hu
  obtain ⟨a, right, here⟩ := asks q hq (kind.trans unit)
  rw [sameRight] at right
  have ne : a ≠ target := fun same => other (same ▸ right)
  refine ⟨a, right, ?_⟩
  rw [List.mem_erase_of_ne ne, here, List.mem_cons, not_or, and_iff_right ne]

/-- Unit elimination is a run of rounds. -/
theorem Indexed.exists_rounds_of_asks (h : s.Indexed) (filled : s.Filled)
    (asks : s.Asks pending expanded) :
    ∃ t, s.eliminatePending pending = .ok t ∧ Rounds expanded s t := by
  fun_induction Store.eliminatePending s pending generalizing expanded with
  | case1 s pending none =>
    exact ⟨s, rfl, .done h.toListed filled (asks.nextUnitTarget?_eq.symm.trans none)⟩
  | case2 s pending target next mem shorter ih =>
    obtain ⟨m, replaced, ok, indexed, first⟩ := h.exists_replaces filled target
    obtain ⟨t, ht, rest⟩ := ih m indexed (first.filled filled) (asks.step first)
    have asked := asks.nextUnitTarget?_eq.symm.trans next
    refine ⟨t, ?_, .round h.toListed filled asked replaced rest⟩
    rw [ok]
    exact ht
  | case3 s pending target next notMem => exact absurd (nextUnitTarget?_eq_some next).1 notMem

/-- When unit rules expand into single categories, unit elimination is a run of rounds that starts
with nothing expanded. -/
theorem Indexed.exists_rounds (h : s.Indexed) (filled : s.Filled)
    (single : ∀ u ∈ s.rules, u.kind = .unit → ∃ a, u.right = [a]) :
    ∃ t, s.eliminateUnits = .ok t ∧ Rounds [] s t :=
  h.exists_rounds_of_asks filled (asks_unitTargets single)

end Existence

/-! ## Invariants of a run -/

section Invariants

variable [Weight W] {s t : Store W} {expanded : List Symbol}

/-- What every round keeps holds at the end of a run, when no rule asks for another round. -/
theorem Rounds.keeps (run : Rounds expanded s t) {P : List Symbol → Store W → Prop}
    (indexed : s.Indexed) (start : P expanded s)
    (step : ∀ {expanded s m target}, s.Indexed → m.Indexed →
      s.nextUnexpanded? expanded = some target → s.Expanded m target → P expanded s →
      P (target :: expanded) m) :
    t.Indexed ∧ ∃ expanded, P expanded t ∧ t.nextUnexpanded? expanded = none := by
  induction run with
  | done _ _ none => exact ⟨indexed, _, start, none⟩
  | round _ filled next replaced _ ih =>
    obtain ⟨n, replaced', -, indexedM, first⟩ := indexed.exists_replaces filled _
    obtain rfl := Except.ok.inj (replaced.foldlM_eq.symm.trans replaced'.foldlM_eq)
    exact ih indexedM (step indexed indexedM next first start)

end Invariants

end Store

/-- A conversion of rules whose kinds fit goes through its stages, the first of them in rounds. -/
theorem Grammar.exists_stages_rounds {W : Type} [Weight W] {g : Grammar W}
    (indexed : g.store.Indexed) (fits : ∀ r ∈ g.store.rules, r.Fits) :
    ∃ h middle split, g.normalForm = .ok h ∧ Stages g middle split h ∧
      g.store.Rounds [] middle := by
  have filled : g.store.Filled := fun r hr => (fits r hr).filled
  obtain ⟨h, converted⟩ := exists_normalForm indexed fits
  obtain ⟨middle, split, stages⟩ := exists_stages indexed filled converted
  obtain ⟨t, eliminated, rounds⟩ := indexed.exists_rounds filled fun u hu unit =>
    (fits u hu).exists_right_of_unit unit
  obtain rfl : middle = t := Except.ok.inj (stages.eliminated.symm.trans eliminated)
  exact ⟨h, middle, split, converted, stages, rounds⟩

end Constituency
