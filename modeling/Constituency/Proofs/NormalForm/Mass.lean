import Mathlib
import Constituency.Proofs.NormalForm.BestParse
import Constituency.Proofs.NormalForm.HelperNames
import Constituency.Proofs.NormalForm.UnitRounds

/-!
# Conversion and mass

The mass of a category is the sum of the probabilities of its rules. When no
mass exceeds one, a unit rule that is replaced hands on at most its own
probability, shared out among the rules for its category; what is dropped
because its sides are stored already only takes mass away. So no round of unit
elimination makes a mass greater. Splitting keeps the left symbol and the
probability of every rule, and gives each helper it mints one rule of
probability one.
-/

namespace Constituency

section Exact

variable {R : Type} [Field R]

/-! ## The mass of listed rules -/

namespace Rule

/-- The sum of the probabilities of listed rules. -/
def mass (rules : List (Rule (Probability R))) : R :=
  (rules.map (·.weight.value)).sum

@[simp] theorem mass_nil : mass ([] : List (Rule (Probability R))) = 0 := by simp [mass]

@[simp] theorem mass_cons (r : Rule (Probability R)) (rules : List (Rule (Probability R))) :
    mass (r :: rules) = r.weight.value + mass rules := by simp [mass]

@[simp] theorem mass_append (rules more : List (Rule (Probability R))) :
    mass (rules ++ more) = mass rules + mass more := by simp [mass]

/-- Rules in another order have the same mass. -/
theorem mass_perm {rules more : List (Rule (Probability R))} (h : rules.Perm more) :
    mass rules = mass more :=
  (h.map _).sum_eq

/-- A unit rule shares its probability out among the rules that are applied inside it. -/
theorem mass_map_chain (unit : Rule (Probability R)) (inners : List (Rule (Probability R))) :
    mass (inners.map unit.chain) = unit.weight.value * mass inners := by
  rw [mass, mass, List.map_map, ← List.sum_map_mul_left]
  rfl

variable [LinearOrder R] [IsStrictOrderedRing R]

/-- Some of the rules have no greater mass than all of them. -/
theorem mass_le_of_subset {rules more : List (Rule (Probability R))} (nodup : rules.Nodup)
    (subset : rules ⊆ more) (nonneg : ∀ r ∈ more, 0 ≤ r.weight.value) :
    mass rules ≤ mass more := by
  obtain ⟨same, perm, sublist⟩ := List.subperm_of_subset nodup subset
  rw [← mass_perm perm]
  refine (sublist.map _).sum_le_sum fun value hvalue => ?_
  obtain ⟨r, hr, rfl⟩ := List.mem_map.mp hvalue
  exact nonneg r hr

/-- No rule is more probable than all of them together. -/
theorem value_le_mass {rules : List (Rule (Probability R))}
    (nonneg : ∀ r ∈ rules, 0 ≤ r.weight.value) {r : Rule (Probability R)} (hr : r ∈ rules) :
    r.weight.value ≤ mass rules := by
  refine List.single_le_sum (fun value hvalue => ?_) _ (List.mem_map_of_mem hr)
  obtain ⟨q, hq, rfl⟩ := List.mem_map.mp hvalue
  exact nonneg q hq

end Rule

namespace Store

/-- The sum of the probabilities of the rules with a left symbol. -/
def mass (s : Store (Probability R)) (a : Symbol) : R :=
  Rule.mass (s.rules.filter (·.left == a))

variable {s t m : Store (Probability R)} {a : Symbol}

/-- In an indexed store the mass is the sum over the rules that a lookup finds. -/
theorem Indexed.leftMass_eq (h : s.Indexed) (a : Symbol) : s.leftMass a = s.mass a := by
  rw [leftMass, h.withLeft_eq, mass, Rule.mass, List.sum_eq_foldl, List.foldl_map]
  rfl

/-- Without a rule there is no mass. -/
theorem mass_eq_zero (absent : ∀ r ∈ s.rules, r.left ≠ a) : s.mass a = 0 := by
  have none : s.rules.filter (·.left == a) = [] :=
    List.filter_eq_nil_iff.mpr fun r hr => by simpa using absent r hr
  rw [mass, none, Rule.mass_nil]

/-! ## Rounds of unit elimination -/

/-- The rules with a left symbol that stay when a category is expanded. -/
def staying {W : Type} (s : Store W) (target a : Symbol) : List (Rule W) :=
  s.rules.filter fun r => r.left == a && r.right != [target]

/-- Those rules are the stored ones with the left symbol and another right side. -/
theorem mem_staying {W : Type} {s : Store W} {target a : Symbol} {r : Rule W} :
    r ∈ s.staying target a ↔ r ∈ s.rules ∧ r.left = a ∧ r.right ≠ [target] := by
  simp [staying]

/-- After the expansion a symbol with a unit rule has rules that stay and composed ones only. -/
theorem Expanded.subset_of_unit {target : Symbol} (h : s.Expanded m target) (indexed : s.Indexed)
    {u : Rule (Probability R)} (hu : u ∈ s.rules) (left : u.left = a) (right : u.right = [target]) :
    m.rules.filter (·.left == a) ⊆
      s.staying target a ++ (s.rules.filter (·.left == target)).map u.chain := by
  intro r hr
  obtain ⟨stored, leftR⟩ := List.mem_filter.mp hr
  rw [beq_iff_eq] at leftR
  obtain ⟨other, old | ⟨⟨v, hv, i, hi, rightV, leftI, rfl⟩, -⟩⟩ := (h.mem r).mp stored
  · exact List.mem_append_left _ (mem_staying.mpr ⟨old, leftR, other⟩)
  · have only : v = u :=
      indexed.eq_of_sameSides hv hu ⟨leftR.trans left.symm, rightV.trans right.symm⟩
    rw [only]
    exact List.mem_append_right _
      (List.mem_map_of_mem (List.mem_filter.mpr ⟨hi, beq_iff_eq.mpr leftI⟩))

section Rounds

variable [LinearOrder R] [IsStrictOrderedRing R] {target : Symbol}

/-- The unit rule and the rules that stay make up no more than the mass before. -/
theorem mass_staying_add_le (indexed : s.Indexed) (nonneg : ∀ r ∈ s.rules, 0 ≤ r.weight.value)
    {u : Rule (Probability R)} (hu : u ∈ s.rules) (left : u.left = a) (right : u.right = [target]) :
    Rule.mass (s.staying target a) + u.weight.value ≤ s.mass a := by
  have distinct : (u :: s.staying target a).Nodup :=
    List.nodup_cons.mpr ⟨fun stays => (mem_staying.mp stays).2.2 right,
      indexed.nodup_rules.filter _⟩
  have inside : u :: s.staying target a ⊆ s.rules.filter (·.left == a) := by
    intro r hr
    rcases List.mem_cons.mp hr with rfl | hr
    · exact List.mem_filter.mpr ⟨hu, beq_iff_eq.mpr left⟩
    · obtain ⟨stored, leftR, -⟩ := mem_staying.mp hr
      exact List.mem_filter.mpr ⟨stored, beq_iff_eq.mpr leftR⟩
  rw [add_comm, ← Rule.mass_cons]
  exact Rule.mass_le_of_subset distinct inside fun r hr => nonneg r (List.mem_of_mem_filter hr)

/-- Expanding a category of mass at most one makes no mass greater. -/
theorem Expanded.mass_le (h : s.Expanded m target) (indexed : s.Indexed) (indexedM : m.Indexed)
    (nonneg : ∀ r ∈ s.rules, 0 ≤ r.weight.value) (small : s.mass target ≤ 1) (a : Symbol) :
    m.mass a ≤ s.mass a := by
  have nodup : (m.rules.filter (·.left == a)).Nodup := indexedM.nodup_rules.filter _
  by_cases unit : ∃ u ∈ s.rules, u.left = a ∧ u.right = [target]
  · obtain ⟨u, hu, left, right⟩ := unit
    calc
      m.mass a ≤ Rule.mass (s.staying target a ++
          (s.rules.filter (·.left == target)).map u.chain) := by
        refine Rule.mass_le_of_subset nodup (h.subset_of_unit indexed hu left right) fun r hr => ?_
        rcases List.mem_append.mp hr with stays | composed
        · exact nonneg r (mem_staying.mp stays).1
        · obtain ⟨i, hi, rfl⟩ := List.mem_map.mp composed
          exact mul_nonneg (nonneg u hu) (nonneg i (List.mem_of_mem_filter hi))
      _ = Rule.mass (s.staying target a) + u.weight.value * s.mass target := by
        rw [Rule.mass_append, Rule.mass_map_chain, mass]
      _ ≤ Rule.mass (s.staying target a) + u.weight.value := by
        gcongr
        exact mul_le_of_le_one_right (nonneg u hu) small
      _ ≤ s.mass a := mass_staying_add_le indexed nonneg hu left right
  -- without a unit rule for the category, the symbol gets no rule
  · refine Rule.mass_le_of_subset nodup (fun r hr => ?_) fun r hr =>
      nonneg r (List.mem_of_mem_filter hr)
    obtain ⟨stored, leftR⟩ := List.mem_filter.mp hr
    obtain ⟨-, old | ⟨⟨v, hv, i, -, rightV, -, rfl⟩, -⟩⟩ := (h.mem r).mp stored
    · exact List.mem_filter.mpr ⟨old, leftR⟩
    · exact absurd ⟨v, hv, beq_iff_eq.mp leftR, rightV⟩ unit

/-- What a run of unit elimination keeps: no probability is negative, no mass exceeds one, and no
mass exceeds the one at the start. -/
structure Substochastic (start s : Store (Probability R)) : Prop where
  /-- No probability is negative. -/
  nonneg : ∀ r ∈ s.rules, 0 ≤ r.weight.value
  /-- No mass exceeds one. -/
  le_one : ∀ a, s.mass a ≤ 1
  /-- No mass exceeds the one at the start. -/
  le_start : ∀ a, s.mass a ≤ start.mass a

/-- Every round keeps it. -/
theorem Substochastic.step {start : Store (Probability R)} (inv : Substochastic start s)
    (indexed : s.Indexed) (indexedM : m.Indexed) (first : s.Expanded m target) :
    Substochastic start m := by
  have less := first.mass_le indexed indexedM inv.nonneg (inv.le_one target)
  refine ⟨fun r hr => ?_, fun a => (less a).trans (inv.le_one a),
    fun a => (less a).trans (inv.le_start a)⟩
  obtain ⟨-, old | ⟨⟨u, hu, i, hi, -, -, rfl⟩, -⟩⟩ := (first.mem r).mp hr
  · exact inv.nonneg r old
  · exact mul_nonneg (inv.nonneg u hu) (inv.nonneg i hi)

/-- Unit elimination keeps it. -/
theorem Rounds.substochastic {expanded : List Symbol} (run : Rounds expanded s t)
    (indexed : s.Indexed) (nonneg : ∀ r ∈ s.rules, 0 ≤ r.weight.value)
    (le_one : ∀ a, s.mass a ≤ 1) : Substochastic s t := by
  obtain ⟨-, -, inv, -⟩ := run.keeps (P := fun _ => Substochastic s) indexed
    ⟨nonneg, le_one, fun _ => le_rfl⟩ fun indexed indexedM _ first inv =>
      inv.step indexed indexedM first
  exact inv

end Rounds

/-! ## Steps of splitting -/

/-- A step of splitting gives its helper mass one and changes no other mass. -/
theorem Listed.mass_splitPair (h : s.Listed) (first second new a : Symbol) :
    (s.splitPair first second new).mass a = s.mass a + if new = a then 1 else 0 := by
  have kept : Rule.mass ((s.rules.map (mergeLong first second new)).filter (·.left == a)) =
      s.mass a := by
    rw [List.filter_map, Rule.mass, List.map_map, mass, Rule.mass]
    simp only [Function.comp_def, left_mergeLong, weight_mergeLong]
  rw [mass, h.rules_splitPair, List.filter_append, Rule.mass_append, kept, helperRule]
  by_cases same : new = a
  · simp [same, Weight.neutral, Probability.ofValue, ProbabilityNumber.one]
  · simp [same]

/-- The rules of a listed store whose rules differ in their sides are listed once each. -/
theorem Listed.nodup_rules {W : Type} {s : Store W} (h : s.Listed) (apart : s.DistinctSides) :
    s.rules.Nodup :=
  h.left.nodup.filterMap fun i j r hi hj => apart i j r r hi hj (.refl r)

end Store

namespace Grammar

variable {g h : Grammar (Probability R)} {taken : List Symbol}

/-- Splitting adds one to the mass of a symbol each time it is minted. -/
theorem SplitChain.mass_eq (chain : SplitChain taken g h) (listed : g.store.Listed) (a : Symbol) :
    h.store.mass a = g.store.mass a + ((g.mintedPending taken).count a : R) := by
  induction chain with
  | done none => rw [mintedPending_of_none none, List.count_nil, Nat.cast_zero, add_zero]
  | step long right _ ih =>
    rw [ih (listed.splitPair _ _ _), mintedPending_of_pair long right, List.count_cons, splitStep,
      listed.mass_splitPair, Nat.cast_add, add_assoc, add_comm (Nat.cast _)]
    simp

/-- Renumbering keeps every mass. -/
theorem Stages.mass_eq {middle : Store (Probability R)} {split : Grammar (Probability R)}
    (stages : Stages g middle split h) (a : Symbol) : h.store.mass a = split.store.mass a := by
  have perm : h.store.rules.Perm split.store.rules :=
    (List.perm_ext_iff_of_nodup stages.indexed.nodup_rules
      (stages.listed.nodup_rules stages.apart)).mpr fun _ => stages.mem_rules
  exact Rule.mass_perm (perm.filter _)

end Grammar

end Exact

namespace Grammar

variable {R : Type} [Field R] [LinearOrder R] [IsStrictOrderedRing R]

/-- A conversion of a grammar whose masses are at most one leaves such a grammar. A symbol that the
conversion did not mint has no greater mass than before, and one that it minted has mass one. -/
theorem exists_normalForm_mass {g : Grammar (Probability R)} (reached : g.Reachable (·.right ≠ []))
    (assigned : g.store.assignKinds = g.store) (nonneg : ∀ r ∈ g.store.rules, 0 ≤ r.weight.value)
    (bounded : ∀ a, g.store.leftMass a ≤ 1) :
    ∃ h, g.normalForm = .ok h ∧ (∀ a, h.store.leftMass a ≤ 1) ∧
      (∀ a ∉ g.minted, h.store.leftMass a ≤ g.store.leftMass a) ∧
      (∀ a ∈ g.minted, h.store.leftMass a = 1) ∧
      ∀ r ∈ h.store.rules, 0 ≤ r.weight.value ∧ r.weight.value ≤ 1 := by
  obtain ⟨indexed, filled⟩ := reached.indexed_filled fun _ some_right => some_right
  have classified := Store.classified_of_assignKinds assigned
  have fits : ∀ r ∈ g.store.rules, r.Fits := fun r hr =>
    Rule.fits_of_kindAmong (filled r hr) (classified r hr)
  obtain ⟨h, middle, split, converted, stages, rounds⟩ := exists_stages_rounds indexed fits
  have between := rounds.substochastic indexed nonneg fun a =>
    (indexed.leftMass_eq a).symm.trans_le (bounded a)
  have mints := mints_of_normalForm converted
  have total : ∀ a, h.store.leftMass a = middle.mass a + (g.minted.count a : R) := by
    intro a
    have split_mass := stages.chain.mass_eq stages.indexedMiddle.toListed a
    rw [stages.indexed.leftMass_eq, stages.mass_eq, split_mass, minted, stages.eliminated]
    rfl
  have plain : ∀ a ∉ g.minted, h.store.leftMass a = middle.mass a := fun a ha => by
    rw [total, List.count_eq_zero_of_not_mem ha, Nat.cast_zero, add_zero]
  have helper : ∀ a ∈ g.minted, h.store.leftMass a = 1 := fun a ha => by
    have free : a ∉ middle.symbols := by
      have unused := ((mints.mem a).mp ha).1
      rwa [Store.symbolsLeft, stages.eliminated] at unused
    have absent : ∀ r ∈ middle.rules, r.left ≠ a := fun r hr left =>
      free (Store.mem_symbols hr (left ▸ List.mem_cons_self))
    rw [total, Store.mass_eq_zero absent, List.count_eq_one_of_mem mints.nodup ha, Nat.cast_one,
      zero_add]
  have le_one : ∀ a, h.store.leftMass a ≤ 1 := by
    intro a
    by_cases ha : a ∈ g.minted
    · exact (helper a ha).le
    · exact (plain a ha).trans_le (between.le_one a)
  have values : ∀ r ∈ h.store.rules, 0 ≤ r.weight.value :=
    weights_normalForm (fun w => 0 ≤ w.value) zero_le_one mul_nonneg indexed filled nonneg converted
  refine ⟨h, converted, le_one, fun a ha => ?_, helper, fun r hr => ⟨values r hr, ?_⟩⟩
  · rw [plain a ha, indexed.leftMass_eq]
    exact between.le_start a
  · have here : r ∈ h.store.rules.filter (·.left == r.left) :=
      List.mem_filter.mpr ⟨hr, beq_self_eq_true _⟩
    calc
      r.weight.value ≤ h.store.mass r.left :=
        Rule.value_le_mass (fun q hq => values q (List.mem_of_mem_filter hq)) here
      _ = h.store.leftMass r.left := (stages.indexed.leftMass_eq _).symm
      _ ≤ 1 := le_one r.left

/-- A probabilistic grammar with a cycle of unit rules and a long rule, whose masses are one. -/
def weighed : Grammar (Probability ℚ) :=
  ofRules [⟨⟨"S"⟩, [⟨"B"⟩], .terminal, .ofValue (1 / 2)⟩,
    ⟨⟨"S"⟩, [⟨"b"⟩], .terminal, .ofValue (1 / 4)⟩,
    ⟨⟨"S"⟩, [⟨"B"⟩, ⟨"B"⟩, ⟨"B"⟩], .long, .ofValue (1 / 4)⟩,
    ⟨⟨"B"⟩, [⟨"S"⟩], .terminal, .ofValue (1 / 2)⟩,
    ⟨⟨"B"⟩, [⟨"b"⟩], .terminal, .ofValue (1 / 2)⟩]

/-- After its conversion no mass exceeds one, and the helper has all of it. -/
theorem exists_normalForm_mass_weighed :
    weighed.Reachable (·.right ≠ []) ∧ weighed.store.assignKinds = weighed.store ∧
      (∀ r ∈ weighed.store.rules, 0 ≤ r.weight.value) ∧ weighed.store.leftMass ⟨"S"⟩ = 1 ∧
      weighed.minted = [⟨"X0"⟩] ∧
      ∃ h, weighed.normalForm = .ok h ∧ (∀ a, h.store.leftMass a ≤ 1) ∧
        h.store.leftMass ⟨"X0"⟩ = 1 := by
  have reached : weighed.Reachable (·.right ≠ []) := by
    refine .ofRules fun r hr => ?_
    simp only [List.mem_cons, List.not_mem_nil, or_false] at hr
    rcases hr with rfl | rfl | rfl | rfl | rfl <;> exact List.cons_ne_nil _ _
  have assigned : weighed.store.assignKinds = weighed.store := Store.assignKinds_assignKinds _
  have nonneg : ∀ r ∈ weighed.store.rules, 0 ≤ r.weight.value := by decide +kernel
  have listed : ∀ a ∈ weighed.store.leftSides, weighed.store.leftMass a ≤ 1 := by decide +kernel
  have indexed := (reached.indexed_filled fun _ some_right => some_right).1
  have bounded : ∀ a, weighed.store.leftMass a ≤ 1 := by
    intro a
    by_cases there : a ∈ weighed.store.leftSides
    · exact listed a there
    · rw [indexed.leftMass_eq, Store.mass_eq_zero]
      · exact zero_le_one
      · rintro r hr rfl
        exact there (List.mem_eraseDups.mpr (List.mem_map_of_mem hr))
  have minted : weighed.minted = [⟨"X0"⟩] := by decide +kernel
  obtain ⟨h, converted, le_one, -, helpers, -⟩ :=
    exists_normalForm_mass reached assigned nonneg bounded
  exact ⟨reached, assigned, nonneg, by decide +kernel, minted, h, converted, le_one,
    helpers _ (minted ▸ List.mem_singleton_self _)⟩

end Grammar

end Constituency
