import Constituency.Proofs.NormalForm.Conversion
import Constituency.Proofs.Store.Handles

/-!
# Numbers after a conversion

Eliminating unit rules empties the numbers of rules that expand something into one
category, and gives new numbers to composed rules. Splitting long rules rewrites them
in place and gives new numbers to the rules of helpers. Renumbering then closes the
gaps. So the rules that are left keep their order, whatever comes new stands behind
them, and a rule that is found again with its sides is the one that had them before.
-/

namespace Constituency

namespace Store

variable {W : Type} {s t : Store W}

/-- Storing rules takes no number back and changes none of those so far. -/
theorem rule?_addAll_of_lt (s : Store W) (rules : List (Rule W)) :
    s.slots.size ≤ (s.addAll rules).slots.size ∧
      ∀ id < s.slots.size, (s.addAll rules).rule? id = s.rule? id := by
  induction rules generalizing s with
  | nil => exact ⟨Nat.le_refl _, fun _ _ => rfl⟩
  | cons r rules ih =>
    have one := (s.size_slots_add r).1
    obtain ⟨size, rule⟩ := ih (s.add r).1
    refine ⟨Nat.le_trans one size, fun id inside => ?_⟩
    exact (rule id (Nat.lt_of_lt_of_le inside one)).trans (rule?_add_of_lt s r inside)

/-! ## What becomes of numbers -/

/-- A later state where the numbers of some rules are emptied. -/
structure Emptied (s : Store W) (goes : RuleNumber → Bool) (t : Store W) : Prop where
  /-- Numbers are never taken back. -/
  size : s.slots.size ≤ t.slots.size
  /-- The numbers so far keep their rules or are emptied. -/
  rule : ∀ id < s.slots.size, t.rule? id = if goes id then none else s.rule? id

/-- Nothing is emptied where nothing happens. -/
theorem Emptied.refl (s : Store W) : s.Emptied (fun _ => false) s :=
  ⟨Nat.le_refl _, fun _ _ => rfl⟩

/-- What is emptied adds up. -/
theorem Emptied.trans {m : Store W} {goes more : RuleNumber → Bool} (first : s.Emptied goes m)
    (rest : m.Emptied more t) : s.Emptied (fun id => goes id || more id) t := by
  refine ⟨Nat.le_trans first.size rest.size, fun id inside => ?_⟩
  rw [rest.rule id (Nat.lt_of_lt_of_le inside first.size), first.rule id inside]
  cases goes id <;> cases more id <;> rfl

/-- A later state where rules are rewritten in place: each number keeps its left symbol and weight,
and the whole rule if that is not long. -/
structure Rewritten (s t : Store W) : Prop where
  /-- Numbers are never taken back. -/
  size : s.slots.size ≤ t.slots.size
  /-- No number so far is filled or emptied. -/
  live : ∀ id < s.slots.size, (t.rule? id).isSome = (s.rule? id).isSome
  /-- What becomes of a rule. -/
  rule : ∀ id r, s.rule? id = some r →
    ∃ q, t.rule? id = some q ∧ q.left = r.left ∧ q.weight = r.weight ∧ (r.kind ≠ .long → q = r)

/-- Nothing is rewritten where nothing happens. -/
theorem Rewritten.refl (s : Store W) : s.Rewritten s :=
  ⟨Nat.le_refl _, fun _ _ => rfl, fun _ r hr => ⟨r, hr, rfl, rfl, fun _ => rfl⟩⟩

/-- Rules that are rewritten may be rewritten again. -/
theorem Rewritten.trans {m : Store W} (first : s.Rewritten m) (rest : m.Rewritten t) :
    s.Rewritten t := by
  refine ⟨Nat.le_trans first.size rest.size, fun id inside => ?_, fun id r hr => ?_⟩
  · rw [rest.live id (Nat.lt_of_lt_of_le inside first.size), first.live id inside]
  · obtain ⟨p, hp, left, weight, short⟩ := first.rule id r hr
    obtain ⟨q, hq, left', weight', short'⟩ := rest.rule id p hp
    refine ⟨q, hq, left'.trans left, weight'.trans weight, fun other => ?_⟩
    obtain rfl := short other
    exact short' other

/-! ## Numbers in unit elimination -/

variable [Weight W]

/-- Expanding a category inside one unit rule empties the number of that rule. -/
theorem Indexed.emptied_expandUnit (h : s.Indexed) (filled : s.Filled) (target : Symbol)
    {id : RuleNumber} {unit : Rule W} (hid : s.rule? id = some unit) :
    ∃ t, s.expandUnit target id = .ok t ∧ t.Indexed ∧ t.Filled ∧ s.Emptied (· == id) t := by
  have added := s.rule?_addAll_of_lt ((s.withLeft target).map unit.chain)
  obtain ⟨t, removed, indexed, rule⟩ :=
    (h.addAll ((s.withLeft target).map unit.chain)).remove_stored
      (rule?_addAll_of_eq_some hid) (.refl unit)
  have done := h.expandUnit_eq filled target hid removed
  obtain ⟨t', done', -, expanded, -⟩ := h.expandUnit filled target hid
  obtain rfl : t = t' := Except.ok.inj (done.symm.trans done')
  refine ⟨t, done, indexed, expanded.filled filled, ?_, fun j inside => ?_⟩
  · rw [size_slots_remove removed]
    exact added.1
  · rw [rule, added.2 j inside]
    simp only [beq_iff_eq]

/-- Expanding a category inside unit rules empties the numbers of those rules. -/
theorem Indexed.emptied_foldlM_expandUnit (h : s.Indexed) (filled : s.Filled) (target : Symbol)
    {ids : List RuleNumber} (live : ∀ id ∈ ids, ∃ u, s.rule? id = some u) (nodup : ids.Nodup)
    (done : ids.foldlM (fun s id => s.expandUnit target id) s = .ok t) :
    s.Emptied ids.contains t := by
  induction ids generalizing s with
  | nil =>
    cases done
    exact .refl _
  | cons id ids ih =>
    obtain ⟨fresh, nodup⟩ := List.nodup_cons.mp nodup
    obtain ⟨u, hu⟩ := live id List.mem_cons_self
    obtain ⟨m, hm, indexed, filledM, first⟩ := h.emptied_expandUnit filled target hu
    rw [List.foldlM_cons, hm] at done
    have live' : ∀ j ∈ ids, ∃ u, m.rule? j = some u := by
      intro j hj
      obtain ⟨v, hv⟩ := live j (List.mem_cons_of_mem _ hj)
      have other : (j == id) = false := beq_eq_false_iff_ne.mpr fun same => fresh (same ▸ hj)
      refine ⟨v, ?_⟩
      rw [first.rule j (lt_of_rule? hv), other, if_neg Bool.false_ne_true, hv]
    have both := first.trans (ih indexed filledM live' nodup done)
    have goes : (fun j => j == id || ids.contains j) = (id :: ids).contains :=
      funext fun j => List.contains_cons.symm
    rwa [goes] at both

/-- Expanding a category empties the numbers of the rules that expand something into it alone. -/
theorem Indexed.emptied_expandTarget (h : s.Indexed) (filled : s.Filled) {target : Symbol}
    (done : s.expandTarget target = .ok t) : s.Emptied (s.idsWithRight [target]).contains t := by
  refine h.emptied_foldlM_expandUnit filled target (fun id hid => ?_)
    (h.nodup_idsWithRight [target]) done
  obtain ⟨u, hu, -⟩ := h.mem_idsWithRight.mp hid
  exact ⟨u, hu⟩

/-- Expansions leave no right side that was not there before. -/
theorem Expansions.exists_right (h : Expansions s t) {q : Rule W} (hq : q ∈ t.rules) :
    ∃ p ∈ s.rules, p.right = q.right := by
  induction h with
  | done => exact ⟨q, hq, rfl⟩
  | step _ first _ ih =>
    obtain ⟨p, hp, same⟩ := ih hq
    obtain ⟨-, r, hr, same', -⟩ := first.exists_of_mem hp
    exact ⟨r, hr, same'.trans same⟩

/-- Eliminating pending categories empties numbers of rules that expand something into one category,
and no rule that is left expands anything into it alone. -/
theorem Indexed.emptied_eliminatePending (h : s.Indexed) (filled : s.Filled)
    {pending : List Symbol} (done : s.eliminatePending pending = .ok t) :
    ∃ goes, s.Emptied goes t ∧ ∀ id r, s.rule? id = some r → goes id = true →
      (∃ a, r.right = [a]) ∧ ∀ q ∈ t.rules, q.right ≠ r.right := by
  fun_induction Store.eliminatePending s pending with
  | case1 s pending none =>
    cases done
    exact ⟨_, .refl _, fun _ _ _ goes => absurd goes Bool.false_ne_true⟩
  | case2 s pending target next mem shorter ih =>
    obtain ⟨m, hm, indexed, expanded⟩ := h.expandTarget filled target
    have first := h.emptied_expandTarget filled hm
    obtain ⟨t', rest, -, -, expansions⟩ :=
      indexed.eliminatePending (expanded.filled filled) (pending.erase target)
    rw [hm] at done
    obtain rfl : t' = t := Except.ok.inj (rest.symm.trans done)
    obtain ⟨goes, emptied, single⟩ := ih m indexed (expanded.filled filled) done
    refine ⟨_, first.trans emptied, fun id r hr gone => ?_⟩
    by_cases here : r.right = [target]
    · refine ⟨⟨target, here⟩, fun q hq same => ?_⟩
      obtain ⟨p, hp, same'⟩ := expansions.exists_right hq
      exact ((expanded.mem p).mp hp).1 (same'.trans (same.trans here))
    -- the number was not emptied in this step, and keeps its rule
    · have spared : (s.idsWithRight [target]).contains id = false := by
        rw [Bool.eq_false_iff, ne_eq, List.contains_iff_mem, h.mem_idsWithRight]
        rintro ⟨q, hq, right⟩
        rw [hr] at hq
        cases hq
        exact here right
      have stays : m.rule? id = some r := by
        rw [first.rule id (lt_of_rule? hr), spared, if_neg Bool.false_ne_true, hr]
      rw [spared, Bool.false_or] at gone
      exact single id r stays gone
  | case3 s pending target next notMem =>
    cases done
    exact ⟨_, .refl _, fun _ _ _ goes => absurd goes Bool.false_ne_true⟩

/-- A number with a rule keeps it when unit rules are eliminated, or it is emptied, and no rule that
is left has the right side of that rule, which is one category. -/
theorem Indexed.rule?_eliminateUnits (h : s.Indexed) (filled : s.Filled)
    (done : s.eliminateUnits = .ok t) {id : RuleNumber} {r : Rule W} (hr : s.rule? id = some r) :
    t.rule? id = some r ∨
      t.rule? id = none ∧ (∃ a, r.right = [a]) ∧ ∀ q ∈ t.rules, q.right ≠ r.right := by
  obtain ⟨goes, emptied, single⟩ := h.emptied_eliminatePending filled done
  have after := emptied.rule id (lt_of_rule? hr)
  cases gone : goes id with
  | true =>
    rw [gone, if_pos rfl] at after
    exact .inr ⟨after, single id r hr gone⟩
  | false =>
    rw [gone, if_neg Bool.false_ne_true, hr] at after
    exact .inl after

/-! ## Numbers in splitting -/

/-- Splitting off a pair rewrites rules in place. -/
theorem rewritten_splitPair (s : Store W) (first second new : Symbol) :
    s.Rewritten (s.splitPair first second new) := by
  have old : ∀ id < s.slots.size, (s.splitPair first second new).rule? id =
      (s.rule? id).map (mergeLong first second new) := fun id inside => by
    rw [rule?_splitPair, if_neg (Nat.ne_of_lt inside)]
  refine ⟨?_, fun id inside => ?_, fun id r hr => ⟨mergeLong first second new r, ?_,
    left_mergeLong _ _ _ r, weight_mergeLong _ _ _ r, mergeLong_of_ne⟩⟩
  · simp [splitPair, append, mapRules]
  · rw [old id inside, Option.isSome_map]
  · rw [old id (lt_of_rule? hr), hr, Option.map_some]

end Store

namespace Grammar

variable {W : Type} [Weight W] {g h : Grammar W} {taken : List Symbol}

/-- A chain of steps rewrites rules in place. -/
theorem SplitChain.rewritten (chain : SplitChain taken g h) : g.store.Rewritten h.store := by
  induction chain with
  | done => exact .refl _
  | step _ _ _ ih => exact (Store.rewritten_splitPair _ _ _ _).trans ih

/-! ## The numbers at the end -/

namespace Stages

variable {middle : Store W} {split : Grammar W} {id : RuleNumber} {r : Rule W}

/-- At the end the numbers with a rule are those below the number of rules. -/
theorem isSome_rule? (stages : Stages g middle split h) (number : RuleNumber) :
    (h.store.rule? number).isSome ↔ number < h.store.size := by
  rw [stages.renumbered]
  exact split.store.isSome_rule?_renumber number

/-- Splitting keeps the rank of a rule. -/
theorem rank_eq (stages : Stages g middle split h) (hr : middle.rule? id = some r) :
    split.store.rank id = middle.rank id :=
  Store.rank_congr fun i below =>
    stages.chain.rewritten.live i (Nat.lt_trans below (Store.lt_of_rule? hr))

/-- A rule from the middle gets its rank for a number, and is changed only where it is long. -/
theorem rule?_rank (stages : Stages g middle split h) (hr : middle.rule? id = some r) :
    ∃ q, h.store.rule? (middle.rank id) = some q ∧ q.left = r.left ∧ q.weight = r.weight ∧
      (r.kind ≠ .long → q = r) := by
  obtain ⟨q, hq, same⟩ := stages.chain.rewritten.rule id r hr
  refine ⟨q, ?_, same⟩
  rw [stages.renumbered, ← stages.rank_eq hr]
  exact Store.rule?_renumber hq

/-- A rule at the end with the sides of a rule from before is that rule. -/
theorem eq_of_sameSides (stages : Stages g middle split h) (indexed : g.store.Indexed)
    (fits : ∀ r ∈ g.store.rules, r.Fits) (hr : g.store.rule? id = some r) {new : RuleNumber}
    {q : Rule W} (hq : h.store.rule? new = some q) (same : q.SameSides r) :
    q = r ∧ middle.rule? id = some r ∧ new = middle.rank id := by
  have fitsM := stages.expansions.fits fits
  have listedM := stages.indexedMiddle.toListed
  have atEnd : q ∈ h.store.rules := stages.indexed.mem_rules.mpr ⟨new, hq⟩
  rcases indexed.rule?_eliminateUnits (fun r hr => (fits r hr).filled) stages.eliminated hr with
    stays | ⟨-, ⟨a, single⟩, gone⟩
  · -- the rule is not long, since no rule is long at the end
    have short : r.kind ≠ .long := by
      obtain ⟨fitsQ, notLong⟩ := stages.chain.fits listedM fitsM q (stages.mem_rules.mp atEnd)
      rw [Ne, fitsQ.long, same.2] at notLong
      rwa [Ne, (fitsM r (listedM.mem_rules.mpr ⟨id, stays⟩)).long]
    obtain ⟨p, hp, -, -, kept⟩ := stages.rule?_rank stays
    obtain rfl := kept short
    have number : new = middle.rank id := stages.indexed.distinctSides _ _ _ _ hq hp same
    rw [number, hp] at hq
    exact ⟨(Option.some_inj.mp hq).symm, stays, number⟩
  -- splitting makes no rule with one right symbol
  · have inMiddle := stages.mem_middle_of_single fitsM atEnd (same.2.trans single)
    exact absurd same.2 (gone q inMiddle)

end Stages

/-- What a conversion makes of numbers: between the halves of the conversion some are empty, and at
the end the gaps are closed. -/
structure Renumbered (g : Grammar W) (middle : Store W) (h : Grammar W) : Prop where
  /-- At the end the numbers with a rule are those below the number of rules. -/
  live : ∀ id, (∃ r, h.store.rule id = .ok r) ↔ id < h.store.size
  /-- A rule from before keeps its number up to the middle, or it expands something into one
  category and its number is empty. -/
  survives : ∀ id r, g.store.rule id = .ok r →
    middle.rule id = .ok r ∨ middle.rule id = .error .noSuchRule ∧ ∃ a, r.right = [a]
  /-- A rule from the middle gets its rank for a number, and is changed only where it is long. -/
  moves : ∀ id r, middle.rule id = .ok r → ∃ q, h.store.rule (middle.rank id) = .ok q ∧
    q.left = r.left ∧ q.weight = r.weight ∧ (r.right.length ≤ 2 → q = r)
  /-- The rules from the middle keep their order. -/
  order : ∀ i j r, middle.rule i = .ok r → i < j → middle.rank i < middle.rank j
  /-- A rule at the end with the sides of a rule from before is that rule. -/
  found : ∀ id r new q, g.store.rule id = .ok r → h.store.rule new = .ok q → q.SameSides r →
    q = r ∧ middle.rule id = .ok r ∧ new = middle.rank id
  /-- Rules from before that are found at the end are in their order from before. -/
  stable : ∀ i j r p i' j' r' p', g.store.rule i = .ok r → g.store.rule j = .ok p →
    h.store.rule i' = .ok r' → h.store.rule j' = .ok p' → r'.SameSides r → p'.SameSides p →
    i < j → i' < j'

/-- A conversion of a grammar whose kinds fit closes the gaps between the numbers. -/
theorem exists_renumbered (indexed : g.store.Indexed) (fits : ∀ r ∈ g.store.rules, r.Fits) :
    ∃ middle h, g.store.eliminateUnits = .ok middle ∧ g.normalForm = .ok h ∧
      g.Renumbered middle h := by
  have filled : g.store.Filled := fun r hr => (fits r hr).filled
  obtain ⟨h, done⟩ := exists_normalForm indexed fits
  obtain ⟨middle, split, stages⟩ := exists_stages indexed filled done
  have fitsM := stages.expansions.fits fits
  have order : ∀ i j r, middle.rule i = .ok r → i < j → middle.rank i < middle.rank j :=
    fun i j r hr before => Store.rank_lt (Store.rule_eq_ok_iff.mp hr) before
  have found : ∀ id r new q, g.store.rule id = .ok r → h.store.rule new = .ok q →
      q.SameSides r → q = r ∧ middle.rule id = .ok r ∧ new = middle.rank id := by
    simp only [Store.rule_eq_ok_iff]
    exact fun id r new q hr hq same => stages.eq_of_sameSides indexed fits hr hq same
  refine ⟨middle, h, stages.eliminated, done, fun id => ?_, fun id r hr => ?_, fun id r hr => ?_,
    order, found, fun i j r p i' j' r' p' hr hp hr' hp' same same' before => ?_⟩
  · simp only [Store.rule_eq_ok_iff, ← stages.isSome_rule?, Option.isSome_iff_exists]
  · rw [Store.rule_eq_ok_iff] at hr
    rcases indexed.rule?_eliminateUnits filled stages.eliminated hr with stays | ⟨none, single, -⟩
    · exact .inl (Store.rule_eq_ok stays)
    · exact .inr ⟨Store.rule_eq_error none, single⟩
  · rw [Store.rule_eq_ok_iff] at hr
    obtain ⟨q, hq, left, weight, short⟩ := stages.rule?_rank hr
    refine ⟨q, Store.rule_eq_ok hq, left, weight, fun two => short fun long => ?_⟩
    have three := (fitsM r (stages.indexedMiddle.mem_rules.mpr ⟨id, hr⟩)).long.mp long
    omega
  · obtain ⟨-, inMiddle, rfl⟩ := found i r i' r' hr hr' same
    obtain ⟨-, -, rfl⟩ := found j p j' p' hp hp' same'
    exact order i j r inMiddle before

end Grammar

end Constituency
