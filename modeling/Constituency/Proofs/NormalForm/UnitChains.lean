import Constituency.Proofs.Grammar.Reachable
import Constituency.Proofs.NormalForm.UnitRounds
import Mathlib.Logic.Relation

/-!
# Unit elimination follows chains

Read without weights, the unit closure is a matter of chains: a category has
every right side that the end of a chain of unit rules has. Each round rewrites
the rules that the chains run along and may close a cycle to a loop, which a
later round takes away. The loops that stay are those that no other unit rule
leads into: no round has them as its target, and no round brings a rule with
their right side.
-/

namespace Constituency

namespace Store

variable {W M : Type} {s t m : Store W}

/-- A unit rule leads from one category to another. -/
def UnitStep (s : Store W) (a b : Symbol) : Prop :=
  ∃ u ∈ s.rules, u.kind = .unit ∧ u.left = a ∧ u.right = [b]

/-! ## Chains -/

section Chains

variable [Monoid M] {value : W → M}

/-- What a category unfolds into stands at the end of a chain. -/
theorem Unfolds.unitSteps {a : Symbol} {r : Rule W} {m : M} (h : s.Unfolds value a r m) :
    Relation.ReflTransGen s.UnitStep a r.left := by
  induction h with
  | rule => exact .refl
  | @unit u _ _ _ stored kind right _ ih => exact .head ⟨u, stored, kind, rfl, right⟩ ih

/-- A category unfolds into every rule at the end of a chain that is no unit rule. -/
theorem exists_unfolds_of_unitSteps (value : W → M) {a b : Symbol}
    (chain : Relation.ReflTransGen s.UnitStep a b) {q : Rule W} (hq : q ∈ s.rules)
    (left : q.left = b) (other : q.kind ≠ .unit) : ∃ m, s.Unfolds value a q m := by
  induction chain using Relation.ReflTransGen.head_induction_on with
  | refl =>
    subst left
    exact ⟨_, .rule hq other⟩
  | head step _ ih =>
    obtain ⟨u, hu, unit, rfl, right⟩ := step
    obtain ⟨m, rest⟩ := ih
    exact ⟨_, .unit hu unit right rest⟩

/-- After unit elimination a category has a right side exactly when the end of a chain had it. -/
theorem UnitClosed.exists_rule_iff (h : s.UnitClosed t value) {a : Symbol} {right : List Symbol}
    {kind : RuleKind} (other : kind ≠ .unit) :
    (∃ r ∈ t.rules, r.left = a ∧ r.right = right ∧ r.kind = kind) ↔
      ∃ b, Relation.ReflTransGen s.UnitStep a b ∧
        ∃ q ∈ s.rules, q.left = b ∧ q.right = right ∧ q.kind = kind := by
  constructor
  · rintro ⟨r, hr, rfl, rfl, rfl⟩
    obtain ⟨q, unfolds, sameRight, sameKind⟩ := h.before r hr other
    exact ⟨q.left, unfolds.unitSteps, q, unfolds.target.1, rfl, sameRight, sameKind⟩
  · rintro ⟨b, chain, q, hq, left, rfl, rfl⟩
    obtain ⟨m, unfolds⟩ := exists_unfolds_of_unitSteps value chain hq left other
    exact h.after a q m unfolds

end Chains

/-! ## Loops -/

/-- A loop that no rule of another category leads into. -/
structure SoleLoop (s : Store W) (r : Rule W) : Prop where
  /-- The rule is stored. -/
  stored : r ∈ s.rules
  /-- It is a unit rule. -/
  unit : r.kind = .unit
  /-- It expands a category into itself. -/
  loop : r.right = [r.left]
  /-- Rules with the same right side have the same left symbol. -/
  sole : ∀ q ∈ s.rules, q.right = r.right → q.left = r.left

section Round

variable [Weight W] {target : Symbol}

/-- No round brings a loop that no other rule leads into. -/
theorem Expanded.soleLoop_before (h : s.Expanded m target) {r : Rule W} (hr : m.SoleLoop r) :
    s.SoleLoop r := by
  obtain ⟨other, origin⟩ := (h.mem r).mp hr.stored
  have keeps : ∀ {q}, q ∈ s.rules → q.right = r.right → q.left = r.left := fun {q} hq right =>
    hr.sole q ((h.mem q).mpr ⟨right ▸ other, Or.inl hq⟩) right
  rcases origin with old | ⟨⟨u, -, i, hi, -, left, rfl⟩, -⟩
  · exact ⟨old, hr.unit, hr.loop, fun q => keeps⟩
  -- the rule that was applied inside another one would be a second way into the loop
  · have same : target = (u.chain i).left := left.symm.trans (keeps hi rfl)
    exact absurd (same ▸ hr.loop) other

/-- Every round keeps a loop that no other rule leads into. -/
theorem Expanded.soleLoop_after (h : s.Expanded m target)
    (asked : ∃ v ∈ s.rules, v.left ≠ target ∧ v.right = [target]) {r : Rule W}
    (hr : s.SoleLoop r) : m.SoleLoop r := by
  have other : r.right ≠ [target] := fun right => by
    obtain ⟨v, hv, left, rightV⟩ := asked
    have head : r.left = target := List.singleton_inj.mp (hr.loop.symm.trans right)
    exact left ((hr.sole v hv (rightV.trans right.symm)).trans head)
  refine ⟨(h.mem r).mpr ⟨other, Or.inl hr.stored⟩, hr.unit, hr.loop, fun q hq right => ?_⟩
  rcases ((h.mem q).mp hq).2 with old | ⟨⟨u, -, i, hi, -, left, rfl⟩, -⟩
  · exact hr.sole q old right
  · have same : target = r.left := left.symm.trans (hr.sole i hi right)
    exact absurd (same ▸ hr.loop) other

/-- What a run of unit elimination keeps: unit rules ask for no category that is done, and the
loops that no other rule leads into are those from the start. -/
structure Looping (start : Store W) (heads : Symbol → Bool) (expanded : List Symbol)
    (s : Store W) : Prop where
  /-- Kinds are a function of right sides. -/
  classified : s.Classified heads
  /-- No unit rule has a category that was expanded. -/
  fresh : ∀ u ∈ s.rules, u.kind = .unit → ∀ a ∈ expanded, u.right ≠ [a]
  /-- The loops that no other rule leads into are those from the start. -/
  same : ∀ r, s.SoleLoop r ↔ start.SoleLoop r

/-- Every round keeps it. -/
theorem Looping.step {start : Store W} {heads : Symbol → Bool} {expanded : List Symbol}
    (inv : Looping start heads expanded s) (next : s.nextUnexpanded? expanded = some target)
    (first : s.Expanded m target) : Looping start heads (target :: expanded) m := by
  obtain ⟨-, v, hv, unit, notLoop, head⟩ := nextUnexpanded?_eq_some next
  obtain ⟨a, right⟩ := Rule.exists_of_kindAmong_unit ((inv.classified v hv).symm.trans unit)
  obtain rfl : a = target := by rwa [right, List.head?_cons, Option.some_inj] at head
  have leads : v.left ≠ a := fun left => by
    simp [Rule.isLoop, unit, right, left] at notLoop
  refine ⟨first.classified inv.classified, fun u hu unitU b hb => ?_, fun r => ?_⟩
  · obtain ⟨other, q, hq, right, kind⟩ := first.exists_of_mem hu
    rcases List.mem_cons.mp hb with rfl | hb
    · exact other
    · exact right ▸ inv.fresh q hq (kind.trans unitU) b hb
  · rw [← inv.same]
    exact ⟨first.soleLoop_before, first.soleLoop_after ⟨v, hv, leads, right⟩⟩

omit [Weight W] in
/-- When no round is left, the unit rules are the loops that no other rule leads into. -/
theorem Looping.unit_iff {start : Store W} {heads : Symbol → Bool} {expanded : List Symbol}
    (inv : Looping start heads expanded s) (none : s.nextUnexpanded? expanded = none)
    {r : Rule W} : r ∈ s.rules ∧ r.kind = .unit ↔ start.SoleLoop r := by
  have loops : ∀ u ∈ s.rules, u.kind = .unit → u.right = [u.left] := by
    intro u hu unit
    obtain ⟨a, right⟩ := Rule.exists_of_kindAmong_unit ((inv.classified u hu).symm.trans unit)
    have fresh : a ∉ expanded := fun done => inv.fresh u hu unit a done right
    rw [nextUnexpanded?_eq_none none hu unit right fresh, right]
  rw [← inv.same]
  constructor
  · rintro ⟨hr, unit⟩
    refine ⟨hr, unit, loops r hr unit, fun q hq right => ?_⟩
    have unitQ : q.kind = .unit := by
      rw [inv.classified q hq, right, ← inv.classified r hr, unit]
    have ends := (loops q hq unitQ).symm.trans (right.trans (loops r hr unit))
    exact List.singleton_inj.mp ends
  · exact fun sole => ⟨sole.stored, sole.unit⟩

end Round

end Store

namespace Grammar

variable {W : Type} [Weight W] {g : Grammar W}

/-- On a grammar whose kinds are assigned, unit elimination computes the unit closure. A rule that
is no unit rule is there afterwards, with its kind, exactly when a chain of unit rules leads from
its left symbol to a rule with that right side and kind; and the unit rules that stay are the loops
that no rule of another category led into. -/
theorem exists_eliminateUnits_chains (reached : g.Reachable (·.right ≠ []))
    (assigned : g.store.assignKinds = g.store) :
    ∃ t, g.store.eliminateUnits = .ok t ∧
      (∀ a right kind, kind ≠ .unit →
        ((∃ r ∈ t.rules, r.left = a ∧ r.right = right ∧ r.kind = kind) ↔
          ∃ b, Relation.ReflTransGen g.store.UnitStep a b ∧
            ∃ q ∈ g.store.rules, q.left = b ∧ q.right = right ∧ q.kind = kind)) ∧
      ∀ r, (r ∈ t.rules ∧ r.kind = .unit) ↔
        r ∈ g.store.rules ∧ r.kind = .unit ∧ r.right = [r.left] ∧
          ∀ q ∈ g.store.rules, q.right = r.right → q.left = r.left := by
  obtain ⟨indexed, filled⟩ := reached.indexed_filled fun _ some_right => some_right
  have classified := Store.classified_of_assignKinds assigned
  obtain ⟨t, ok, -, -, chain, loops⟩ := indexed.eliminateUnits filled
  have closed := chain.unitClosed multiplicative_one classified (loops _ classified)
  obtain ⟨t', ok', rounds⟩ := indexed.exists_rounds filled fun u hu unit =>
    Rule.exists_of_kindAmong_unit ((classified u hu).symm.trans unit)
  obtain rfl : t = t' := Except.ok.inj (ok.symm.trans ok')
  obtain ⟨-, expanded, inv, none⟩ := rounds.keeps (P := g.store.Looping _) indexed
    ⟨classified, fun _ _ _ _ ha => absurd ha List.not_mem_nil, fun _ => Iff.rfl⟩
    fun _ _ next first inv => inv.step next first
  refine ⟨t, ok, fun a right kind other => closed.exists_rule_iff other, fun r => ?_⟩
  rw [inv.unit_iff none]
  exact ⟨fun sole => ⟨sole.stored, sole.unit, sole.loop, sole.sole⟩,
    fun ⟨stored, unit, loop, sole⟩ => ⟨stored, unit, loop, sole⟩⟩

/-- A grammar with a cycle of unit rules that another unit rule leads into, and with a loop that
none leads into. -/
def circled : Grammar Unit :=
  ofRules [⟨⟨"S"⟩, [⟨"B"⟩], .terminal, ()⟩, ⟨⟨"B"⟩, [⟨"C"⟩], .terminal, ()⟩,
    ⟨⟨"C"⟩, [⟨"B"⟩], .terminal, ()⟩, ⟨⟨"C"⟩, [⟨"c"⟩], .terminal, ()⟩,
    ⟨⟨"D"⟩, [⟨"D"⟩], .terminal, ()⟩, ⟨⟨"D"⟩, [⟨"d"⟩], .terminal, ()⟩]

/-- The word at the end of the chain arrives at its start, and of the unit rules only the loop that
stands alone stays. -/
theorem exists_eliminateUnits_chains_circled :
    circled.Reachable (·.right ≠ []) ∧ circled.store.assignKinds = circled.store ∧
      ∃ t, circled.store.eliminateUnits = .ok t ∧
        (∃ r ∈ t.rules, r.left = ⟨"S"⟩ ∧ r.right = [⟨"c"⟩] ∧ r.kind = .terminal) ∧
        ∀ r, r ∈ t.rules ∧ r.kind = .unit ↔ r = ⟨⟨"D"⟩, [⟨"D"⟩], .unit, ()⟩ := by
  have reached : circled.Reachable (·.right ≠ []) := by
    refine .ofRules fun r hr => ?_
    simp only [List.mem_cons, List.not_mem_nil, or_false] at hr
    rcases hr with rfl | rfl | rfl | rfl | rfl | rfl <;> exact List.cons_ne_nil _ _
  have assigned : circled.store.assignKinds = circled.store := Store.assignKinds_assignKinds _
  obtain ⟨t, ok, closed, units⟩ := exists_eliminateUnits_chains reached assigned
  refine ⟨reached, assigned, t, ok, ?_, fun r => ?_⟩
  · have first : circled.store.UnitStep ⟨"S"⟩ ⟨"B"⟩ := by unfold Store.UnitStep; decide +kernel
    have second : circled.store.UnitStep ⟨"B"⟩ ⟨"C"⟩ := by unfold Store.UnitStep; decide +kernel
    exact (closed ⟨"S"⟩ [⟨"c"⟩] .terminal RuleKind.noConfusion).mpr
      ⟨⟨"C"⟩, .head first (.single second), by decide +kernel⟩
  · have alone : ∀ r ∈ circled.store.rules, (r.kind = .unit ∧ r.right = [r.left] ∧
        ∀ q ∈ circled.store.rules, q.right = r.right → q.left = r.left) ↔
          r = ⟨⟨"D"⟩, [⟨"D"⟩], .unit, ()⟩ := by decide +kernel
    have stored : ∃ r ∈ circled.store.rules, r = ⟨⟨"D"⟩, [⟨"D"⟩], .unit, ()⟩ := by decide +kernel
    rw [units]
    constructor
    · exact fun ⟨hr, sole⟩ => (alone r hr).mp sole
    · rintro rfl
      obtain ⟨r, hr, rfl⟩ := stored
      exact ⟨hr, (alone _ hr).mpr rfl⟩

end Grammar

end Constituency
