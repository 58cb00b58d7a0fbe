import Constituency.NormalForm.UnitRules
import Constituency.Proofs.Store.Removal

/-!
# Expanding a category

One step of unit elimination replaces all rules that expand something into a
category alone by what the category expands into. In an indexed store it never
fails, and afterwards a rule is there when it was there before or comes from
applying a rule inside a replaced one, unless a rule with its sides was stored
already. The stored one then stays as it is, weight included.
-/

namespace Constituency

/-- When two steps succeed, the first one does, and the second one with its result. -/
theorem exists_of_bind_ok {E A B : Type} {x : Except E A} {f : A → Except E B} {b : B}
    (h : x >>= f = .ok b) : ∃ a, x = .ok a ∧ f a = .ok b := by
  cases x with
  | error e => cases h
  | ok a => exact ⟨a, rfl, h⟩

/-- The rule that comes from applying one rule inside a unit rule. -/
def Rule.chain {W : Type} [Weight W] (unit inner : Rule W) : Rule W :=
  ⟨unit.left, inner.right, inner.kind, Weight.compose unit.weight inner.weight⟩

namespace Store

variable {W : Type} [Weight W] {s : Store W}

/-- Composing with a rule that has a right side stores the composed rule. -/
theorem addComposed_eq (s : Store W) (unit : Rule W) {inner : Rule W} (h : inner.right ≠ []) :
    s.addComposed unit inner = .ok (s.add (unit.chain inner)).1 := by
  have filled : inner.right.isEmpty = false :=
    Bool.eq_false_iff.mpr fun hempty => h (List.isEmpty_iff.mp hempty)
  rw [addComposed, filled, if_neg Bool.false_ne_true]
  rfl

/-- Composing with the rules behind numbers stores all composed rules. -/
theorem foldlM_addComposed (unit : Rule W) {ids : List RuleNumber} {inners : List (Rule W)}
    (rules : ids.map s.rule? = inners.map some) (filled : ∀ i ∈ inners, i.right ≠ []) :
    ids.foldlM (fun s inner => do s.addComposed unit (← s.rule inner)) s =
      .ok (s.addAll (inners.map unit.chain)) := by
  induction ids generalizing s inners with
  | nil =>
    cases inners with
    | nil => rfl
    | cons i inners => cases rules
  | cons id ids ih =>
    cases inners with
    | nil => cases rules
    | cons i inners =>
      obtain ⟨first, rest⟩ := List.cons.inj rules
      have later : ids.map (s.add (unit.chain i)).1.rule? = inners.map some := by
        rw [← rest]
        refine List.map_congr_left fun j hj => ?_
        have hmem : s.rule? j ∈ inners.map some := rest ▸ List.mem_map_of_mem hj
        obtain ⟨q, -, hq⟩ := List.mem_map.mp hmem
        rw [← hq]
        exact rule?_add_of_eq_some hq.symm
      rw [List.foldlM_cons, rule_eq_ok first]
      simp only [bind, Except.bind]
      rw [addComposed_eq s unit (filled i List.mem_cons_self)]
      exact ih later fun i hi => filled i (List.mem_cons_of_mem _ hi)

/-! ## The rules after an expansion -/

/-- What expanding a category inside listed unit rules does to the set of rules: those unit rules
go, and a composed rule comes when no rule had its sides. -/
structure ExpandedIn (s t : Store W) (target : Symbol) (units : List (Rule W)) : Prop where
  /-- The rules afterwards. -/
  mem : ∀ r, r ∈ t.rules ↔ (∀ u ∈ units, ¬r.SameSides u) ∧
    (r ∈ s.rules ∨ (∃ u ∈ units, ∃ i ∈ s.rules, i.left = target ∧ r = u.chain i) ∧
      ∀ q ∈ s.rules, ¬q.SameSides r)

namespace ExpandedIn

variable {t m : Store W} {target : Symbol} {u : Rule W} {units : List (Rule W)}

/-- Without unit rules nothing changes. -/
theorem nil (s : Store W) (target : Symbol) : s.ExpandedIn s target [] :=
  ⟨fun r => by simp⟩

/-- No right side becomes empty. -/
theorem filled (h : s.ExpandedIn t target units) (filled : s.Filled) : t.Filled := by
  intro r hr
  rcases ((h.mem r).mp hr).2 with old | ⟨⟨u, -, i, hi, -, rfl⟩, -⟩
  · exact filled r old
  · exact filled i hi

/-- The rules for the category stay, apart from the unit rule. -/
theorem mem_of_left (h : s.ExpandedIn m target [u]) {i : Rule W} (left : i.left = target) :
    i ∈ m.rules ↔ ¬i.SameSides u ∧ i ∈ s.rules := by
  rw [h.mem, List.forall_mem_singleton]
  constructor
  · rintro ⟨hne, old | ⟨⟨v, -, j, hj, leftJ, rfl⟩, new⟩⟩
    · exact ⟨hne, old⟩
    · exact absurd ⟨leftJ.trans left.symm, rfl⟩ (new j hj)
  · rintro ⟨hne, old⟩
    exact ⟨hne, Or.inl old⟩

/-- For other left symbols than that of the unit rule the same sides are stored. -/
theorem absent_iff (h : s.ExpandedIn m target [u]) {r : Rule W} (hne : r.left ≠ u.left) :
    (∀ q ∈ m.rules, ¬q.SameSides r) ↔ ∀ q ∈ s.rules, ¬q.SameSides r := by
  constructor
  · intro new q hq same
    have other : ¬q.SameSides u := fun hsame => hne (same.1.symm.trans hsame.1)
    exact new q ((h.mem q).mpr ⟨List.forall_mem_singleton.mpr other, Or.inl hq⟩) same
  · intro new q hq same
    rcases ((h.mem q).mp hq).2 with old | ⟨⟨v, hv, i, -, -, rfl⟩, -⟩
    · exact new q old same
    · rw [List.mem_singleton] at hv
      subst hv
      exact hne same.1.symm

/-- Expanding inside one unit rule and then inside others is expanding inside all. -/
theorem cons (first : s.ExpandedIn m target [u]) (rest : m.ExpandedIn t target units)
    (right : ∀ v ∈ u :: units, v.right = [target]) (other : ∀ v ∈ units, v.left ≠ u.left) :
    s.ExpandedIn t target (u :: units) := by
  refine ⟨fun r => ?_⟩
  rw [rest.mem, first.mem, List.forall_mem_singleton, List.forall_mem_cons]
  constructor
  · rintro ⟨notLater, (⟨notU, old⟩ | ⟨⟨v, hv, i, hi, hleft, rfl⟩, new⟩)⟩
    · refine ⟨⟨notU, notLater⟩, old.imp_right ?_⟩
      rintro ⟨⟨w, hw, i, hi, hleft, heq⟩, new⟩
      exact ⟨⟨w, List.mem_cons.mpr (.inl (List.mem_singleton.mp hw)), i, hi, hleft, heq⟩, new⟩
    · have hne : (v.chain i).left ≠ u.left := other v hv
      refine ⟨⟨fun same => hne same.1, notLater⟩, Or.inr ⟨?_, (first.absent_iff hne).mp new⟩⟩
      exact ⟨v, List.mem_cons_of_mem _ hv, i, ((first.mem_of_left hleft).mp hi).2, hleft, rfl⟩
  · rintro ⟨⟨notU, notLater⟩, (old | ⟨⟨v, hv, i, hi, hleft, rfl⟩, new⟩)⟩
    · exact ⟨notLater, Or.inl ⟨notU, Or.inl old⟩⟩
    · rcases List.mem_cons.mp hv with rfl | hv
      · exact ⟨notLater, Or.inl ⟨notU, Or.inr
          ⟨⟨v, List.mem_singleton_self v, i, hi, hleft, rfl⟩, new⟩⟩⟩
      -- a rule for the category that was the unit rule would be composed into a unit rule itself
      · have hne : (v.chain i).left ≠ u.left := other v hv
        have sameRight : v.right = u.right :=
          (right v (List.mem_cons_of_mem _ hv)).trans (right u List.mem_cons_self).symm
        have stays : i ∈ m.rules :=
          (first.mem_of_left hleft).mpr
            ⟨fun same => notLater v hv ⟨rfl, same.2.trans sameRight.symm⟩, hi⟩
        exact ⟨notLater, Or.inr
          ⟨⟨v, hv, i, stays, hleft, rfl⟩, (first.absent_iff hne).mpr new⟩⟩

end ExpandedIn

/-! ## The run of an expansion -/

/-- Expanding a category inside one unit rule stores all composed rules and removes the unit
rule. -/
theorem Indexed.expandUnit_eq (h : s.Indexed) (filled : s.Filled) (target : Symbol)
    {id : RuleNumber} {unit : Rule W} (hid : s.rule? id = some unit) {t : Store W}
    {old : Option (Rule W)}
    (removed : (s.addAll ((s.withLeft target).map unit.chain)).remove unit = .ok (t, old)) :
    s.expandUnit target id = .ok t := by
  have fold := foldlM_addComposed unit (h.map_rule?_idsWithLeft target)
    fun i hi => filled i (h.mem_withLeft.mp hi).1
  rw [Store.expandUnit, rule_eq_ok hid]
  simp only [bind, Except.bind] at fold ⊢
  rw [fold]
  simp only [removed]
  rfl

/-- Expanding a category inside one unit rule never fails, and all other numbers keep their
rules. -/
theorem Indexed.expandUnit (h : s.Indexed) (filled : s.Filled) (target : Symbol) {id : RuleNumber}
    {unit : Rule W} (hid : s.rule? id = some unit) :
    ∃ t, s.expandUnit target id = .ok t ∧ t.Indexed ∧ s.ExpandedIn t target [unit] ∧
      ∀ j q, j ≠ id → s.rule? j = some q → t.rule? j = some q := by
  have inners : ∀ i, i ∈ s.withLeft target ↔ i ∈ s.rules ∧ i.left = target := fun i =>
    h.mem_withLeft
  have apart : ((s.withLeft target).map unit.chain).Pairwise fun a b => ¬a.SameSides b := by
    rw [List.pairwise_map]
    refine List.Pairwise.imp_of_mem ?_ (h.pairwise_withLeft target)
    intro a b ha hb hne same
    exact hne ⟨((inners a).mp ha).2.trans ((inners b).mp hb).2.symm, same.2⟩
  have added := h.addAll ((s.withLeft target).map unit.chain)
  have still : (s.addAll ((s.withLeft target).map unit.chain)).rule? id = some unit :=
    rule?_addAll_of_eq_some hid
  obtain ⟨t, ht, indexed, rule⟩ := added.remove_stored still (.refl unit)
  refine ⟨t, h.expandUnit_eq filled target hid ht, indexed, ⟨fun r => ?_⟩, fun j q hj hq => ?_⟩
  · have gone : r ∈ t.rules ↔
        ¬r.SameSides unit ∧ r ∈ (s.addAll ((s.withLeft target).map unit.chain)).rules := by
      rw [indexed.mem_rules, added.mem_rules]
      constructor
      · rintro ⟨j, hj⟩
        rw [rule] at hj
        split at hj
        · cases hj
        · next hne =>
          exact ⟨fun same => hne (added.distinctSides _ _ _ _ hj still same), j, hj⟩
      · rintro ⟨other, j, hj⟩
        refine ⟨j, ?_⟩
        rw [rule, if_neg, hj]
        rintro rfl
        rw [still] at hj
        exact other (Option.some.inj hj ▸ .refl unit)
    rw [gone, h.mem_rules_addAll apart]
    simp only [List.mem_map, inners, List.mem_singleton, forall_eq, exists_eq_left]
    refine and_congr_right fun _ => or_congr_right ?_
    refine and_congr_left fun _ => exists_congr fun i => ?_
    rw [and_assoc, eq_comm (b := r)]
  · rw [rule, if_neg hj]
    exact rule?_addAll_of_eq_some hq

/-- Expanding a category inside unit rules, one after the other, never fails. -/
theorem Indexed.foldlM_expandUnit (h : s.Indexed) (filled : s.Filled) (target : Symbol)
    {ids : List RuleNumber} {units : List (Rule W)} (rules : ids.map s.rule? = units.map some)
    (nodup : ids.Nodup) (right : ∀ u ∈ units, u.right = [target]) :
    ∃ t, ids.foldlM (fun s id => s.expandUnit target id) s = .ok t ∧ t.Indexed ∧
      s.ExpandedIn t target units := by
  induction ids generalizing s units with
  | nil =>
    cases units with
    | nil => exact ⟨s, rfl, h, .nil s target⟩
    | cons u units => cases rules
  | cons id ids ih =>
    cases units with
    | nil => cases rules
    | cons u units =>
      obtain ⟨hid, rest⟩ := List.cons.inj rules
      obtain ⟨fresh, nodup⟩ := List.nodup_cons.mp nodup
      have rightU : u.right = [target] := right u List.mem_cons_self
      obtain ⟨m, hm, indexed, first, keeps⟩ := h.expandUnit filled target hid
      -- the units still to come keep their numbers and have other left symbols
      have later : ids.map m.rule? = units.map some := by
        rw [← rest]
        refine List.map_congr_left fun j hj => ?_
        have hj' : s.rule? j ∈ units.map some := rest ▸ List.mem_map_of_mem hj
        obtain ⟨q, -, hq⟩ := List.mem_map.mp hj'
        rw [← hq]
        exact keeps j q (fun heq => fresh (heq ▸ hj)) hq.symm
      have other : ∀ v ∈ units, v.left ≠ u.left := by
        intro v hv heq
        have hv' : some v ∈ ids.map s.rule? := rest ▸ List.mem_map_of_mem hv
        obtain ⟨j, hj, hjv⟩ := List.mem_map.mp hv'
        have rightV := right v (List.mem_cons_of_mem _ hv)
        have same : j = id := h.distinctSides _ _ _ _ hjv hid ⟨heq, rightV.trans rightU.symm⟩
        exact fresh (same ▸ hj)
      obtain ⟨t, ht, indexedT, expanded⟩ := ih indexed (first.filled filled) later nodup
        fun v hv => right v (List.mem_cons_of_mem _ hv)
      refine ⟨t, ?_, indexedT, first.cons expanded right other⟩
      rw [List.foldlM_cons, hm]
      exact ht

/-- What expanding a category does to the set of rules: every rule that expands something into the
category alone goes, and what the category expands into inside such a rule comes, when no rule had
those sides. -/
structure Expanded (s t : Store W) (target : Symbol) : Prop where
  /-- The rules afterwards. -/
  mem : ∀ r, r ∈ t.rules ↔ r.right ≠ [target] ∧
    (r ∈ s.rules ∨
      (∃ u ∈ s.rules, ∃ i ∈ s.rules, u.right = [target] ∧ i.left = target ∧ r = u.chain i) ∧
        ∀ q ∈ s.rules, ¬q.SameSides r)

/-- A rule afterwards has its right side and kind from a rule before, and its right side is not the
category. -/
theorem Expanded.exists_of_mem {t : Store W} {target : Symbol} (h : s.Expanded t target)
    {r : Rule W} (hr : r ∈ t.rules) :
    r.right ≠ [target] ∧ ∃ q ∈ s.rules, q.right = r.right ∧ q.kind = r.kind := by
  obtain ⟨other, old | ⟨⟨u, -, i, hi, -, -, rfl⟩, -⟩⟩ := (h.mem r).mp hr
  · exact ⟨other, r, old, rfl, rfl⟩
  · exact ⟨other, i, hi, rfl, rfl⟩

/-- Expanding a category leaves no right side empty. -/
theorem Expanded.filled {t : Store W} {target : Symbol} (h : s.Expanded t target)
    (filled : s.Filled) : t.Filled := by
  intro r hr
  obtain ⟨-, q, hq, right, -⟩ := h.exists_of_mem hr
  exact right ▸ filled q hq

/-- Expanding a category never fails and gives the rules that `Expanded` tells. -/
theorem Indexed.expandTarget (h : s.Indexed) (filled : s.Filled) (target : Symbol) :
    ∃ t, s.expandTarget target = .ok t ∧ t.Indexed ∧ s.Expanded t target := by
  obtain ⟨t, ht, indexed, expanded⟩ := h.foldlM_expandUnit filled target
    (h.map_rule?_idsWithRight [target]) (h.nodup_idsWithRight [target])
    fun u hu => (h.mem_withRight.mp hu).2
  refine ⟨t, ht, indexed, ⟨fun r => ?_⟩⟩
  simp only [expanded.mem, h.mem_withRight]
  constructor
  · rintro ⟨other, old | ⟨⟨u, ⟨hu, hright⟩, i, hi, hleft, rfl⟩, new⟩⟩
    · exact ⟨fun hright => other r ⟨old, hright⟩ (.refl r), Or.inl old⟩
    · refine ⟨fun hright' => ?_, Or.inr ⟨⟨u, hu, i, hi, hright, hleft, rfl⟩, new⟩⟩
      exact other u ⟨hu, hright⟩ ⟨rfl, hright'.trans hright.symm⟩
  · rintro ⟨hne, old | ⟨⟨u, hu, i, hi, hright, hleft, rfl⟩, new⟩⟩
    · exact ⟨fun u hu same => hne (same.2.trans hu.2), Or.inl old⟩
    · refine ⟨fun v hv same => hne (same.2.trans hv.2), Or.inr ⟨?_, new⟩⟩
      exact ⟨u, ⟨hu, hright⟩, i, hi, hleft, rfl⟩

end Store

end Constituency
