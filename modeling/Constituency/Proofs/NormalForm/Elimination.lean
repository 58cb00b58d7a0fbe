import Constituency.Proofs.NormalForm.Expansion
import Constituency.Proofs.Rule.Kinds

/-!
# The run of unit elimination

Unit elimination expands one category after the other. The run never fails on a
store without empty right sides, and it is a chain of expansions, each of a
category that some unit rule asks for. In a classified store the kind of a rule
is a function of its right side; every expansion keeps that function, so a unit
rule that is left at the end expands a category into itself.
-/

namespace Constituency

namespace Store

variable {W : Type} {s : Store W}

/-! ## The next category -/

/-- The right side of the first unit rule that is no loop and whose right side is asked for. -/
def firstAsked? (s : Store W) (asked : Symbol → Bool) : Option Symbol :=
  (s.rules.find? fun r => r.kind == .unit && !r.isLoop && r.right.head?.any asked).bind
    (·.right.head?)

/-- A category that is found is asked for, by a unit rule that is no loop. -/
theorem firstAsked?_eq_some {asked : Symbol → Bool} {target : Symbol}
    (h : s.firstAsked? asked = some target) :
    asked target = true ∧
      ∃ u ∈ s.rules, u.kind = .unit ∧ u.isLoop = false ∧ u.right.head? = some target := by
  obtain ⟨u, hfind, hhead⟩ := Option.bind_eq_some_iff.mp h
  have holds := List.find?_some hfind
  have mem := List.mem_of_find?_eq_some hfind
  simp only [Bool.and_eq_true, beq_iff_eq, Bool.not_eq_true', hhead, Option.any_some] at holds
  exact ⟨holds.2, u, mem, holds.1.1, holds.1.2, hhead⟩

/-- When none is found, no unit rule but a loop has a category that is asked for. -/
theorem firstAsked?_eq_none {asked : Symbol → Bool} (h : s.firstAsked? asked = none) {u : Rule W}
    (hu : u ∈ s.rules) (unit : u.kind = .unit) {target : Symbol} (right : u.right = [target])
    (here : asked target = true) : u.left = target := by
  rw [firstAsked?, Option.bind_eq_none_iff] at h
  cases hfind : s.rules.find? fun r => r.kind == .unit && !r.isLoop && r.right.head?.any asked with
  | some q =>
    have holds := List.find?_some hfind
    have none := h q hfind
    simp only [none, Option.any_none, Bool.and_false, Bool.false_eq_true] at holds
  | none =>
    have fails := List.find?_eq_none.mp hfind u hu
    have there : u.right.head?.any asked = true := by
      rw [right, List.head?_cons, Option.any_some, here]
    rw [there, unit, Bool.and_true, Bool.not_eq_true] at fails
    have loop : u.isLoop = true := by simpa using fails
    rw [Rule.isLoop, right, Bool.and_eq_true, List.head?_cons, beq_iff_eq, beq_iff_eq] at loop
    exact (Option.some.inj loop.2).symm

/-- The next category is asked for by a unit rule that is no loop, and it is pending. -/
theorem nextUnitTarget?_eq_some {pending : List Symbol} {target : Symbol}
    (h : s.nextUnitTarget? pending = some target) :
    target ∈ pending ∧
      ∃ u ∈ s.rules, u.kind = .unit ∧ u.right.head? = some target := by
  obtain ⟨here, u, hu, unit, -, head⟩ := firstAsked?_eq_some h
  exact ⟨List.contains_iff_mem.mp here, u, hu, unit, head⟩

/-- Without a next category no unit rule but a loop asks for a pending one. -/
theorem nextUnitTarget?_eq_none {pending : List Symbol} (h : s.nextUnitTarget? pending = none)
    {u : Rule W} (hu : u ∈ s.rules) (unit : u.kind = .unit) {target : Symbol}
    (right : u.right = [target]) (asked : target ∈ pending) : u.left = target :=
  firstAsked?_eq_none h hu unit right (List.contains_iff_mem.mpr asked)

/-- Every category that a unit rule expands into is a target from the start. -/
theorem mem_unitTargets {u : Rule W} (hu : u ∈ s.rules) (unit : u.kind = .unit) {a : Symbol}
    (right : u.right = [a]) : a ∈ s.unitTargets := by
  rw [unitTargets, List.mem_eraseDups, List.mem_flatMap]
  refine ⟨u, List.mem_filter.mpr ⟨hu, ?_⟩, ?_⟩
  · rw [unit]
    rfl
  · rw [right]
    exact List.mem_singleton_self a

/-! ## The run -/

section Run

variable [Weight W]

/-- A chain of expansions, each of a category that some unit rule asks for. -/
inductive Expansions : Store W → Store W → Prop
  /-- Nothing is expanded. -/
  | done (s : Store W) : Expansions s s
  /-- One category is expanded before the others. -/
  | step {s m t : Store W} {target : Symbol}
      (asked : ∃ u ∈ s.rules, u.kind = .unit ∧ u.right.head? = some target)
      (first : s.Expanded m target) (rest : Expansions m t) : Expansions s t

/-- Without unit rules nothing is expanded. -/
theorem Expansions.eq_of_ne_unit {t : Store W} (h : Expansions s t)
    (other : ∀ r ∈ s.rules, r.kind ≠ .unit) : t = s := by
  cases h with
  | done => rfl
  | step asked =>
    obtain ⟨u, hu, unit, -⟩ := asked
    exact absurd unit (other u hu)

/-- Eliminating pending categories never fails; it is a chain of expansions. -/
theorem Indexed.eliminatePending (h : s.Indexed) (filled : s.Filled) (pending : List Symbol) :
    ∃ t, s.eliminatePending pending = .ok t ∧ t.Indexed ∧ t.Filled ∧ Expansions s t := by
  fun_induction Store.eliminatePending s pending with
  | case1 s pending none => exact ⟨s, rfl, h, filled, .done s⟩
  | case2 s pending target next mem shorter ih =>
    obtain ⟨m, hm, indexed, expanded⟩ := h.expandTarget filled target
    obtain ⟨t, ht, indexedT, filledT, rest⟩ := ih m indexed (expanded.filled filled)
    refine ⟨t, ?_, indexedT, filledT, .step (nextUnitTarget?_eq_some next).2 expanded rest⟩
    rw [hm]
    exact ht
  | case3 s pending target next notMem => exact ⟨s, rfl, h, filled, .done s⟩

/-- Expanding a category keeps kinds a function of right sides. -/
theorem Expanded.classified {t : Store W} {target : Symbol} {heads : Symbol → Bool}
    (h : s.Expanded t target) (classified : s.Classified heads) : t.Classified heads := by
  intro r hr
  obtain ⟨-, q, hq, right, kind⟩ := h.exists_of_mem hr
  rw [← kind, ← right]
  exact classified q hq

/-- A chain of expansions keeps kinds a function of right sides. -/
theorem Expansions.classified {t : Store W} {heads : Symbol → Bool} (h : Expansions s t)
    (classified : s.Classified heads) : t.Classified heads := by
  induction h with
  | done => exact classified
  | step _ first _ ih => exact ih (first.classified classified)

/-- When every category asked for is pending, the unit rules left at the end are loops. -/
theorem Indexed.loops_of_eliminatePending (h : s.Indexed) (filled : s.Filled)
    {heads : Symbol → Bool} (classified : s.Classified heads) {pending : List Symbol}
    (asked : ∀ u ∈ s.rules, u.kind = .unit → ∀ a, u.right = [a] → a ∈ pending) {t : Store W}
    (ht : s.eliminatePending pending = .ok t) :
    ∀ u ∈ t.rules, u.kind = .unit → u.right = [u.left] := by
  have at_end : ∀ {s : Store W} {pending : List Symbol}, s.nextUnitTarget? pending = none →
      s.Classified heads →
      (∀ u ∈ s.rules, u.kind = .unit → ∀ a, u.right = [a] → a ∈ pending) →
      ∀ u ∈ s.rules, u.kind = .unit → u.right = [u.left] := by
    intro s pending none classified asked u hu unit
    obtain ⟨a, ha⟩ := Rule.exists_of_kindAmong_unit ((classified u hu).symm.trans unit)
    rw [nextUnitTarget?_eq_none none hu unit ha (asked u hu unit a ha), ha]
  fun_induction Store.eliminatePending s pending with
  | case1 s pending none =>
    cases ht
    exact at_end none classified asked
  | case2 s pending target next mem shorter ih =>
    obtain ⟨m, hm, indexed, expanded⟩ := h.expandTarget filled target
    rw [hm] at ht
    refine ih m indexed (expanded.filled filled) (expanded.classified classified) ?_ ht
    -- rights of unit rules after the step are rights of unit rules before, and not the target
    intro u hu unit a ha
    obtain ⟨hne, q, hq, right, kind⟩ := expanded.exists_of_mem hu
    have other : a ≠ target := fun heq => hne (heq ▸ ha)
    rw [List.mem_erase_of_ne other]
    exact asked q hq (kind.trans unit) a (right.trans ha)
  | case3 s pending target next notMem => exact absurd (nextUnitTarget?_eq_some next).1 notMem

/-- Unit elimination never fails; it is a chain of expansions that leaves loops at most. -/
theorem Indexed.eliminateUnits (h : s.Indexed) (filled : s.Filled) :
    ∃ t, s.eliminateUnits = .ok t ∧ t.Indexed ∧ t.Filled ∧ Expansions s t ∧
      ∀ heads, s.Classified heads → ∀ u ∈ t.rules, u.kind = .unit → u.right = [u.left] := by
  obtain ⟨t, ht, indexed, filledT, chain⟩ := h.eliminatePending filled s.unitTargets
  refine ⟨t, ht, indexed, filledT, chain, fun heads classified => ?_⟩
  exact h.loops_of_eliminatePending filled classified
    (fun u hu unit a ha => mem_unitTargets hu unit ha) ht

end Run

end Store

end Constituency
