import Constituency.NormalForm.Conversion
import Constituency.Proofs.NormalForm.SplittingRun
import Constituency.Proofs.Store.Plain

/-!
# Conversions without weights

A conversion composes weights and never asks for one, so converting the plain
copy of a grammar gives the plain copy of the converted grammar: unit rules are
expanded in the same order, pairs are split off under the same names, and a
conversion of the one fails exactly when that of the other does.
-/

namespace Constituency

/-- Two steps in a row have results that are related by a map when each of them has. -/
theorem bind_eq_map_bind {α β γ δ : Type} {x : Except Fault α} {y : Except Fault β} {p : α → β}
    {q : γ → δ} {k : α → Except Fault γ} {l : β → Except Fault δ} (first : y = x.map p)
    (next : ∀ a, l (p a) = (k a).map q) : y >>= l = (x >>= k).map q := by
  rw [first]
  cases x with
  | error e => rfl
  | ok a => exact next a

namespace Store

variable {W : Type}

/-! ## Unit rules -/

/-- The categories on the right sides of unit rules are the same. -/
theorem unitTargets_plain (s : Store W) : s.plain.unitTargets = s.unitTargets := by
  rw [unitTargets, rules_plain, filter_kind_map_plain, List.flatMap_map]
  rfl

/-- The same category is expanded next. -/
theorem nextUnitTarget?_plain (s : Store W) (pending : List Symbol) :
    s.plain.nextUnitTarget? pending = s.nextUnitTarget? pending := by
  rw [nextUnitTarget?, rules_plain, List.find?_map, Option.bind_map]
  rfl

/-- A run of steps is the same in both stores when each step is. -/
theorem foldlM_plain {α : Type} {p : Store Unit → α → Except Fault (Store Unit)}
    {f : Store W → α → Except Fault (Store W)} (same : ∀ s a, p s.plain a = (f s a).map plain)
    (s : Store W) (steps : List α) : steps.foldlM p s.plain = (steps.foldlM f s).map plain := by
  induction steps generalizing s with
  | nil => rfl
  | cons a steps ih =>
    rw [List.foldlM_cons, List.foldlM_cons]
    exact bind_eq_map_bind (same s a) ih

variable [Weight W]

/-- A composed rule is stored in both stores or in neither. -/
theorem addComposed_plain (s : Store W) (unit inner : Rule W) :
    s.plain.addComposed unit.plain inner.plain = (s.addComposed unit inner).map plain := by
  rw [addComposed, addComposed, Rule.right_plain]
  split
  · rfl
  · exact congrArg (fun result => Except.ok result.1)
      (s.add_plain ⟨unit.left, inner.right, inner.kind, Weight.compose unit.weight inner.weight⟩)

/-- Expanding a category inside one rule is the same in both stores. -/
theorem expandUnit_plain (s : Store W) (target : Symbol) (id : RuleNumber) :
    s.plain.expandUnit target id = (s.expandUnit target id).map plain := by
  rw [expandUnit, expandUnit, idsWithLeft_plain]
  refine bind_eq_map_bind (s.rule_plain id) fun unit => ?_
  have stored : ∀ (t : Store W) (inner : RuleNumber),
      t.plain.rule inner >>= t.plain.addComposed unit.plain =
        (t.rule inner >>= t.addComposed unit).map plain := fun t inner =>
    bind_eq_map_bind (t.rule_plain inner) (t.addComposed_plain unit)
  refine bind_eq_map_bind (foldlM_plain stored s _) fun t => ?_
  exact bind_eq_map_bind (t.remove_plain unit) fun _ => rfl

/-- Expanding a category is the same in both stores. -/
theorem expandTarget_plain (s : Store W) (target : Symbol) :
    s.plain.expandTarget target = (s.expandTarget target).map plain := by
  rw [expandTarget, idsWithRight_plain]
  exact foldlM_plain (fun t id => t.expandUnit_plain target id) s _

/-- Expanding pending categories is the same in both stores. -/
theorem eliminatePending_plain (s : Store W) (pending : List Symbol) :
    s.plain.eliminatePending pending = (s.eliminatePending pending).map plain := by
  fun_induction eliminatePending s pending with
  | case1 s pending none =>
    rw [eliminatePending, nextUnitTarget?_plain, none]
    rfl
  | case2 s pending target next mem shorter ih =>
    rw [eliminatePending, nextUnitTarget?_plain, next]
    simp only [dif_pos mem]
    exact bind_eq_map_bind (s.expandTarget_plain target) ih
  | case3 s pending target next notMem =>
    rw [eliminatePending, nextUnitTarget?_plain, next]
    simp only [dif_neg notMem]
    rfl

/-- Eliminating unit rules is the same in both stores. -/
theorem eliminateUnits_plain (s : Store W) :
    s.plain.eliminateUnits = s.eliminateUnits.map plain := by
  rw [eliminateUnits, unitTargets_plain]
  exact s.eliminatePending_plain _

/-! ## Long rules -/

omit [Weight W]

/-- The symbols are the same. -/
theorem symbols_plain (s : Store W) : s.plain.symbols = s.symbols := by
  rw [symbols, rules_plain, List.flatMap_map]
  rfl

/-- The first long rule is the same. -/
theorem firstLong?_plain (s : Store W) :
    s.plain.firstLong? = s.firstLong?.map Rule.plain := by
  rw [firstLong?, rules_plain, List.find?_map]
  rfl

/-- A pair is split off alike in both stores. -/
theorem splitPair_plain [Weight W] (s : Store W) (first second new : Symbol) :
    s.plain.splitPair first second new = (s.splitPair first second new).plain := by
  have merged : ∀ r : Rule W, (mergeLong first second new r).plain =
      mergeLong first second new r.plain := by
    intro r
    rw [mergeLong, mergeLong, Rule.kind_plain]
    split
    · exact Rule.plain_mergePair first second new r
    · rfl
  rw [splitPair, mapRules_plain s merged]
  exact append_plain (s.mapRules (mergeLong first second new)) ⟨new, [first, second], .binary, _⟩

end Store

namespace Grammar

variable {W : Type}

section Cases

variable [Weight W] {g : Grammar W} {taken : List Symbol} {r : Rule W}

/-- Without a long rule splitting is done. -/
theorem splitPending_of_none (none : g.store.firstLong? = none) : g.splitPending taken = .ok g := by
  rw [splitPending]
  split
  · rfl
  · next r long =>
    rw [none] at long
    cases long

/-- The leading pair of the first long rule is split off next. -/
theorem splitPending_of_pair (long : g.store.firstLong? = some r) {first second : Symbol}
    {rest : List Symbol} (right : r.right = first :: second :: rest) :
    g.splitPending taken = (g.splitStep taken first second).splitPending taken := by
  rw [splitPending]
  split
  · next none =>
    rw [long] at none
    cases none
  · next q long' =>
    obtain rfl : q = r := Option.some.inj (long'.symm.trans long)
    split
    · next a b more right' =>
      rw [right] at right'
      obtain ⟨rfl, rfl, rfl⟩ : first = a ∧ second = b ∧ rest = more := by simpa using right'
      rfl
    · next short => exact absurd right (short first second rest)

/-- A rule that passes for long without two right symbols cannot be split. -/
theorem splitPending_of_short (long : g.store.firstLong? = some r)
    (short : ∀ first second rest, r.right = first :: second :: rest → False) :
    g.splitPending taken = .error (.noLeadingPair r.left) := by
  rw [splitPending]
  split
  · next none =>
    rw [long] at none
    cases none
  · next q long' =>
    obtain rfl : q = r := Option.some.inj (long'.symm.trans long)
    split
    · next a b more right => exact (short a b more right).elim
    · rfl

end Cases

/-- The grammar without the weights of its rules. -/
def plain (g : Grammar W) : Grammar Unit where
  store := g.store.plain
  lexicon := g.lexicon
  rareBelow := g.rareBelow
  helpersSpent := g.helpersSpent
  helpers := g.helpers

variable [Weight W]

/-- Splitting long rules is the same in both grammars. -/
theorem splitPending_plain (taken : List Symbol) (g : Grammar W) :
    g.plain.splitPending taken = (g.splitPending taken).map plain := by
  fun_induction splitPending taken g with
  | case1 g none =>
    have none' : g.plain.store.firstLong? = Option.none := by
      rw [plain, g.store.firstLong?_plain, none]
      rfl
    rw [splitPending_of_none none']
    rfl
  | case2 g r long first second rest right n shorter ih =>
    have long' : g.plain.store.firstLong? = some r.plain := by
      rw [plain, g.store.firstLong?_plain, long]
      rfl
    have next : g.plain.splitStep taken first second = (g.splitStep taken first second).plain := by
      rw [splitStep, splitStep, plain, plain, Store.splitPair_plain]
    rw [splitPending_of_pair long' right, next]
    exact ih
  | case3 g r long short =>
    have long' : g.plain.store.firstLong? = some r.plain := by
      rw [plain, g.store.firstLong?_plain, long]
      rfl
    rw [splitPending_of_short long' short]
    rfl

/-- Converting the plain copy gives the plain copy of the converted grammar, or both conversions
fail alike. -/
theorem normalForm_plain (g : Grammar W) : g.plain.normalForm = g.normalForm.map plain := by
  refine bind_eq_map_bind g.store.eliminateUnits_plain fun store => ?_
  have split : (g.plain.withStore store.plain).splitLongRules =
      (g.withStore store).splitLongRules.map plain := by
    rw [splitLongRules, splitLongRules, show (g.plain.withStore store.plain).store.symbols =
      (g.withStore store).store.symbols from store.symbols_plain]
    exact splitPending_plain _ (g.withStore store)
  refine bind_eq_map_bind split fun split => ?_
  have sorted : split.plain.withStore split.plain.store.renumber =
      (split.withStore split.store.renumber).plain := by
    rw [withStore, withStore, plain, plain, Store.renumber_plain]
  dsimp only
  rw [sorted, plain, Store.isCoherent_plain]
  split <;> rfl

end Grammar

end Constituency
