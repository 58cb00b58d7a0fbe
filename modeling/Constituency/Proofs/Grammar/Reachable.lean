import Constituency.Grammar.Treebank
import Constituency.Rule.Text
import Constituency.Proofs.NormalForm.Conversion

/-!
# Grammars within reach

Grammars are made from the empty one by storing and removing rules, assigning
kinds, counting words, changing the threshold for rare words, converting to
normal form and, while one is estimated, changing weights. Every operation keeps
the store indexed and the kinds of its rules fitting, so every grammar within
reach has an indexed store whose kinds fit.
-/

namespace Constituency

/-! ## Rules as they are made -/

namespace Rule

variable {W : Type}

/-- A rule as it is made from its sides: there is a right side, and the kind is what its length
tells. -/
structure Provisional (r : Rule W) : Prop where
  /-- There is a right symbol. -/
  filled : r.right ≠ []
  /-- The kind is provisional. -/
  kind : r.kind = .ofLength r.right.length

/-- The kind of a rule as it is made fits. -/
theorem Provisional.fits {r : Rule W} (h : r.Provisional) : r.Fits := by
  refine ⟨h.filled, ?_, ?_⟩ <;> rw [h.kind]
  all_goals
    have some_symbol := List.length_pos_iff.mpr h.filled
    match r.right.length with
    | 0 => simp [RuleKind.ofLength]
    | 1 => simp [RuleKind.ofLength]
    | 2 => simp [RuleKind.ofLength]
    | n + 3 => simp [RuleKind.ofLength]

/-- Making a rule of its sides gives a rule as it is made. -/
theorem provisional_of_ofSides? {left : Symbol} {right : List Symbol} {weight : W} {r : Rule W}
    (h : ofSides? left right weight = some r) : r.Provisional := by
  rw [ofSides?] at h
  split at h
  · cases h
  · next hne =>
    cases h
    exact ⟨fun hempty => hne (List.isEmpty_iff.mpr hempty), rfl⟩

/-- The rules at the nodes of a tree are as they are made. -/
theorem provisional_of_mem_localRules {trim : Bool} {weight : W} {t : Tree Symbol} {r : Rule W}
    (hr : r ∈ t.localRules trim weight) : r.Provisional := by
  obtain ⟨u, -, hu⟩ := List.mem_filterMap.mp hr
  obtain ⟨sides, -, made⟩ := Option.bind_eq_some_iff.mp hu
  exact provisional_of_ofSides? made

/-- A rule that is read is as it is made. -/
theorem provisional_of_read [WeightText W] {line : String} {r : Rule W} (h : read line = .ok r) :
    r.Provisional := by
  have made : ∀ {left : Symbol} {right : List Symbol} {weight : W},
      ofSides left right weight = .ok r → r.Provisional := by
    intro left right weight hr
    rw [ofSides] at hr
    split at hr
    · next q hq =>
      cases hr
      exact provisional_of_ofSides? hq
    · cases hr
  rw [read] at h
  split at h
  · dsimp only at h
    split at h
    · cases h
    · obtain ⟨value, -, hmade⟩ := exists_of_bind_ok h
      split at hmade
      · exact made hmade
      · cases hmade
  · cases h

/-- The rules that are read from a text are as they are made. -/
theorem provisional_of_readAll [WeightText W] {source : String} {rules : List (Rule W)}
    (h : readAll source = .ok rules) : ∀ r ∈ rules, r.Provisional := by
  rw [readAll] at h
  generalize Text.filledLines source = lines at h
  induction lines generalizing rules with
  | nil => cases h; exact fun r hr => nomatch hr
  | cons line lines ih =>
    rw [List.mapM_cons] at h
    obtain ⟨number, line⟩ := line
    dsimp only at h
    cases hread : read (W := W) line with
    | error e => rw [hread] at h; cases h
    | ok q =>
      rw [hread] at h
      obtain ⟨first, hfirst, h⟩ := exists_of_bind_ok h
      obtain ⟨rest, hrest, hrules⟩ := exists_of_bind_ok h
      cases hfirst
      cases hrules
      intro r hr
      rcases List.mem_cons.mp hr with rfl | hr
      · exact provisional_of_read hread
      · exact ih hrest r hr

end Rule

namespace Grammar

variable {W : Type} [Weight W]

/-- The grammars that operations reach from the empty one, when only rules that `admits` allows are
stored. -/
inductive Reachable (admits : Rule W → Prop) : Grammar W → Prop
  /-- The empty grammar. -/
  | empty : Reachable admits {}
  /-- A rule is stored, unless its sides are there. -/
  | add {g : Grammar W} (before : Reachable admits g) {r : Rule W} (allowed : admits r) :
      Reachable admits (g.withStore (g.store.add r).1)
  /-- A rule is removed. -/
  | remove {g : Grammar W} (before : Reachable admits g) {r : Rule W} {s : Store W}
      {old : Option (Rule W)} (done : g.store.remove r = .ok (s, old)) :
      Reachable admits (g.withStore s)
  /-- Every rule gets the kind it has among the left symbols. -/
  | assignKinds {g : Grammar W} (before : Reachable admits g) :
      Reachable admits (g.withStore g.store.assignKinds)
  /-- The weight of a rule is changed. -/
  | modifyWeight {g : Grammar W} (before : Reachable admits g) (id : RuleNumber) (f : W → W) :
      Reachable admits (g.withStore (g.store.modifyWeight id f))
  /-- A word is counted. -/
  | countWord {g : Grammar W} (before : Reachable admits g) (word : String) (n : Nat) :
      Reachable admits (g.countWord word n)
  /-- The threshold for rare words is changed. -/
  | setRareBelow {g : Grammar W} (before : Reachable admits g) (n : Nat) :
      Reachable admits { g with rareBelow := n }
  /-- The grammar is converted to normal form. -/
  | convert {g h : Grammar W} (before : Reachable admits g) (done : g.normalForm = .ok h) :
      Reachable admits h

namespace Reachable

variable {admits : Rule W → Prop} {g : Grammar W}

/-- A grammar within reach has an indexed store and no empty right side, when only rules with a
right side are stored. -/
theorem indexed_filled (h : g.Reachable admits) (filled : ∀ r, admits r → r.right ≠ []) :
    g.store.Indexed ∧ g.store.Filled := by
  induction h with
  | empty => exact ⟨Store.indexed_empty, fun _ hr => nomatch hr⟩
  | @add g _ r allowed ih =>
    refine ⟨ih.1.add r, fun q hq => ?_⟩
    rcases ih.1.mem_rules_add.mp hq with old | ⟨rfl, -⟩
    · exact ih.2 q old
    · exact filled q allowed
  | @remove g _ r s old done ih =>
    obtain ⟨t, gone, ht, indexed, mem⟩ := ih.1.remove r
    rw [done] at ht
    cases ht
    exact ⟨indexed, fun q hq => ih.2 q ((mem q).mp hq).1⟩
  | @assignKinds g _ ih =>
    refine ⟨ih.1.assignKinds, fun q hq => ?_⟩
    obtain ⟨p, hp, rfl⟩ := Store.exists_of_mem_assignKinds hq
    exact ih.2 p hp
  | @modifyWeight g _ id f ih =>
    refine ⟨ih.1.modifyWeight id f, fun q hq => ?_⟩
    obtain ⟨p, hp, weight, rfl⟩ := ih.1.exists_of_mem_modifyWeight hq
    exact ih.2 p hp
  | countWord _ _ _ ih => exact ih
  | setRareBelow _ _ ih => exact ih
  | convert _ done ih => exact indexed_normalForm ih.1 ih.2 done

/-- When only rules that fit are stored, all rules of a grammar within reach fit. -/
theorem fits (h : g.Reachable admits) (fit : ∀ r, admits r → r.Fits) :
    ∀ r ∈ g.store.rules, r.Fits := by
  have filled : ∀ r, admits r → r.right ≠ [] := fun r allowed => (fit r allowed).filled
  induction h with
  | empty => exact fun r hr => nomatch hr
  | @add g before r allowed ih =>
    intro q hq
    rcases (before.indexed_filled filled).1.mem_rules_add.mp hq with old | ⟨rfl, -⟩
    · exact ih q old
    · exact fit q allowed
  | @remove g before r s old done ih =>
    obtain ⟨t, gone, ht, -, mem⟩ := (before.indexed_filled filled).1.remove r
    rw [done] at ht
    cases ht
    exact fun q hq => ih q ((mem q).mp hq).1
  | @assignKinds g before ih =>
    intro q hq
    obtain ⟨p, hp, rfl⟩ := Store.exists_of_mem_assignKinds hq
    exact Rule.fits_of_kindAmong (ih p hp).filled rfl
  | @modifyWeight g before id f ih =>
    intro q hq
    obtain ⟨p, hp, weight, rfl⟩ :=
      (before.indexed_filled filled).1.exists_of_mem_modifyWeight hq
    exact ⟨(ih p hp).filled, (ih p hp).binary, (ih p hp).long⟩
  | countWord _ _ _ ih => exact ih
  | setRareBelow _ _ ih => exact ih
  | convert before done ih =>
    exact fun r hr => (fits_normalForm (before.indexed_filled filled).1 ih done r hr).1

/-- Storing a list of allowed rules stays within reach. -/
theorem addAll (h : g.Reachable admits) {rules : List (Rule W)} (allowed : ∀ r ∈ rules, admits r) :
    (g.withStore (g.store.addAll rules)).Reachable admits := by
  induction rules generalizing g with
  | nil => exact h
  | cons r rules ih =>
    exact ih (h.add (allowed r List.mem_cons_self))
      fun q hq => allowed q (List.mem_cons_of_mem r hq)

/-- Counting words stays within reach. -/
theorem countWords (h : g.Reachable admits) (entries : List (String × Nat)) :
    (g.countWords entries).Reachable admits := by
  induction entries generalizing g with
  | nil => exact h
  | cons entry entries ih => exact ih (h.countWord entry.1 entry.2)

/-- A grammar made from allowed rules is within reach. -/
theorem ofRules {rules : List (Rule W)} (allowed : ∀ r ∈ rules, admits r) :
    (Grammar.ofRules rules).Reachable admits :=
  (Reachable.empty.addAll allowed).assignKinds

/-- A grammar that is read from texts is within reach. -/
theorem ofText [WeightText W] {rules lexicon : String} {rareBelow : Nat}
    (h : Grammar.ofText rules lexicon rareBelow = .ok g) : g.Reachable Rule.Provisional := by
  obtain ⟨list, hlist, h⟩ := exists_of_bind_ok h
  obtain ⟨words, -, h⟩ := exists_of_bind_ok h
  cases h
  have made : ∀ r ∈ list, r.Provisional := by
    cases hread : Rule.readAll (W := W) rules with
    | error e => rw [hread] at hlist; cases hlist
    | ok list' =>
      rw [hread] at hlist
      cases hlist
      exact Rule.provisional_of_readAll hread
  exact ((Reachable.ofRules made).countWords words).setRareBelow rareBelow

/-- The plain grammar of a treebank is within reach. -/
theorem ofTrees (trees : List (Tree Symbol)) (rareBelow : Nat) :
    (Grammar.ofTrees trees rareBelow).Reachable Rule.Provisional := by
  have counted : (Grammar.countLeaves ({} : Grammar Unit) trees).Reachable Rule.Provisional :=
    Reachable.empty.countWords _
  refine ((counted.addAll fun r hr => ?_).assignKinds).setRareBelow rareBelow
  obtain ⟨t, -, hr⟩ := List.mem_flatMap.mp hr
  exact Rule.provisional_of_mem_localRules hr

end Reachable

section Estimation

variable {R : Type} [ProbabilityNumber R] {admits : Rule (Probability R) → Prop}
  {g : Grammar (Probability R)}

/-- Counting uses of allowed rules stays within reach. -/
theorem Reachable.foldl_countUse (h : g.Reachable admits) {uses : List (Rule (Probability R))}
    (allowed : ∀ r ∈ uses, ∀ weight, admits { r with weight }) :
    (g.withStore (uses.foldl Store.countUse g.store)).Reachable admits := by
  induction uses generalizing g with
  | nil => exact h
  | cons r uses ih =>
    have step : (g.withStore (g.store.countUse r)).Reachable admits := by
      rw [Store.countUse]
      split
      · exact h.modifyWeight _ _
      · exact h.add (allowed r List.mem_cons_self _)
    exact ih step fun q hq => allowed q (List.mem_cons_of_mem r hq)

/-- Changing the weights of some rules stays within reach. -/
theorem Reachable.foldl_modifyWeight (h : g.Reachable admits) (ids : List RuleNumber)
    (f : Probability R → Probability R) :
    (g.withStore (ids.foldl (fun s id => s.modifyWeight id f) g.store)).Reachable admits := by
  induction ids generalizing g with
  | nil => exact h
  | cons id ids ih => exact ih (h.modifyWeight id f)

/-- Turning counts into shares stays within reach. -/
theorem Reachable.assignShares (h : g.Reachable admits) :
    (g.withStore g.store.assignShares).Reachable admits := by
  have each : ∀ (lefts : List Symbol) (g : Grammar (Probability R)), g.Reachable admits →
      (g.withStore (lefts.foldl (fun s left =>
        (s.idsWithLeft left).foldl (fun t id => t.modifyWeight id (·.share (s.leftCount left))) s)
        g.store)).Reachable admits := by
    intro lefts
    induction lefts with
    | nil => exact fun g h => h
    | cons left lefts ih => exact fun g h => ih _ (h.foldl_modifyWeight _ _)
  exact each g.store.leftSides g h

/-- The probabilistic grammar of a treebank is within reach. -/
theorem Reachable.estimate (trees : List (Tree Symbol)) (rareBelow : Nat) :
    (Grammar.estimate (R := R) trees rareBelow).Reachable Rule.Provisional := by
  have counted : (Grammar.countLeaves ({} : Grammar (Probability R)) trees).Reachable
      Rule.Provisional := Reachable.empty.countWords _
  refine (((counted.foldl_countUse fun r hr weight => ?_).assignShares).assignKinds).setRareBelow
    rareBelow
  obtain ⟨t, -, hr⟩ := List.mem_flatMap.mp hr
  have made := Rule.provisional_of_mem_localRules hr
  exact ⟨made.filled, made.kind⟩

end Estimation

end Grammar

end Constituency
