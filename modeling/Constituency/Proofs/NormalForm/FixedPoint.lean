import Constituency.Proofs.NormalForm.Lossless

/-!
# Converting twice

A conversion leaves rules for words, binary rules and loops, and a grammar with no
other rules is converted into itself. The kinds stay those assigned, although
categories lose their rules on the way and helpers come with rules of their own:
no left symbol comes in but those of helpers, no helper stands alone on a right
side, and a category that does has the rule it stands in.
-/

namespace Constituency

namespace Store

variable {W : Type} {s t : Store W}

/-- A store in normal form has rules for words, binary rules and loops. -/
def Normal (s : Store W) : Prop :=
  ∀ r ∈ s.rules, r.kind = .terminal ∨ r.kind = .binary ∨ r.kind = .unit ∧ r.right = [r.left]

/-! ## Nothing to do -/

/-- In normal form no category is expanded. -/
theorem Normal.nextUnitTarget?_eq_none (h : s.Normal) (pending : List Symbol) :
    s.nextUnitTarget? pending = none := by
  rw [nextUnitTarget?, Option.bind_eq_none_iff]
  intro r found
  have asks := List.find?_some found
  rw [Bool.and_eq_true, Bool.and_eq_true, beq_iff_eq, Bool.not_eq_true'] at asks
  obtain ⟨⟨unit, noLoop⟩, -⟩ := asks
  rcases h r (List.mem_of_find?_eq_some found) with terminal | binary | ⟨-, right⟩
  · cases terminal.symm.trans unit
  · cases binary.symm.trans unit
  · rw [Rule.isLoop, unit, right] at noLoop
    simp at noLoop

/-- In normal form no rule is split. -/
theorem Normal.firstLong?_eq_none (h : s.Normal) : s.firstLong? = none := by
  rw [firstLong?, List.find?_eq_none]
  intro r hr long
  have kind := of_decide_eq_true long
  rcases h r hr with terminal | binary | ⟨unit, -⟩
  · cases terminal.symm.trans kind
  · cases binary.symm.trans kind
  · cases unit.symm.trans kind

/-- Unit elimination changes no store in normal form. -/
theorem Normal.eliminateUnits_eq [Weight W] (h : s.Normal) : s.eliminateUnits = .ok s := by
  rw [Store.eliminateUnits, Store.eliminatePending]
  split
  · rfl
  · next target next =>
    rw [h.nextUnitTarget?_eq_none] at next
    cases next

/-- Unit elimination brings no left symbol in. -/
theorem Expansions.exists_left [Weight W] (h : Expansions s t) {r : Rule W} (hr : r ∈ t.rules) :
    ∃ q ∈ s.rules, q.left = r.left := by
  induction h with
  | done => exact ⟨r, hr, rfl⟩
  | step _ first _ ih =>
    obtain ⟨q, hq, left⟩ := ih hr
    rcases ((first.mem q).mp hq).2 with old | ⟨⟨u, hu, i, -, -, -, rfl⟩, -⟩
    · exact ⟨q, old, left⟩
    · exact ⟨u, hu, left⟩

end Store

namespace Grammar

variable {W : Type} [Weight W] {g h split : Grammar W} {middle : Store W} {heads : Symbol → Bool}

/-- A grammar in normal form whose numbers have no gaps is converted into itself. -/
theorem normalForm_of_normal (indexed : g.store.Indexed) (normal : g.store.Normal)
    (numbered : g.store.renumber = g.store) : g.normalForm = .ok g := by
  have unsplit : (g.withStore g.store).splitLongRules = .ok g :=
    splitPending_of_none normal.firstLong?_eq_none
  rw [normalForm, normal.eliminateUnits_eq]
  simp only [bind, Except.bind, unsplit]
  rw [numbered]
  have coherent : (g.withStore g.store).store.isCoherent = true := indexed.isCoherent
  rw [if_pos coherent]
  rfl

namespace Stages

/-! ## What a conversion leaves -/

/-- The second half of a conversion is a run of splitting, in full. -/
theorem rewritesFully (stages : Stages g middle split h) :
    ∃ rewrite minted,
      RewritesFully middle.symbols (g.withStore middle) split rewrite minted :=
  stages.chain.rewritesFully (accounted_symbols (g.withStore middle)) stages.indexedMiddle.toListed

/-- A left symbol at the end was one in between or is new. -/
theorem left_cases (stages : Stages g middle split h) {r : Rule W} (hr : r ∈ h.store.rules) :
    (∃ q ∈ middle.rules, q.left = r.left) ∨ r.left ∉ middle.symbols := by
  obtain ⟨rewrite, minted, full⟩ := stages.rewritesFully
  rw [stages.mem_rules, full.rules_eq] at hr
  rcases List.mem_append.mp hr with old | new
  · obtain ⟨q, hq, rfl⟩ := List.mem_map.mp old
    exact Or.inl ⟨q, hq, (full.left_eq q).symm⟩
  · exact Or.inr fun there =>
      full.fresh (accounted_symbols _) r.left there (List.mem_map_of_mem new)

/-- Rules that fit are brought into normal form when only loops are left in between. -/
theorem normal (stages : Stages g middle split h) (fits : ∀ r ∈ middle.rules, r.Fits)
    (loops : ∀ u ∈ middle.rules, u.kind = .unit → u.right = [u.left]) : h.store.Normal := by
  intro r hr
  obtain ⟨fitting, notLong⟩ := stages.chain.fits stages.indexedMiddle.toListed fits r
    (stages.mem_rules.mp hr)
  cases kind : r.kind with
  | terminal => exact Or.inl rfl
  | binary => exact Or.inr (Or.inl rfl)
  | unit =>
    obtain ⟨a, right⟩ := fitting.exists_right_of_unit kind
    exact Or.inr (Or.inr ⟨rfl, loops r (stages.mem_middle_of_single fits hr right) kind⟩)
  | long => exact absurd kind notLong

/-- A category that stands alone on a right side at the end has rules at the end exactly when it
had rules at the start. -/
theorem mem_left_iff (stages : Stages g middle split h) (fits : ∀ r ∈ middle.rules, r.Fits)
    (classified : g.store.Classified (g.store.rules.map Rule.left).contains)
    (loops : ∀ u ∈ middle.rules, u.kind = .unit → u.right = [u.left]) {r : Rule W}
    (hr : r ∈ h.store.rules) {a : Symbol} (single : r.right = [a])
    (category : a.isWordlike = false) :
    a ∈ h.store.rules.map Rule.left ↔ a ∈ g.store.rules.map Rule.left := by
  have there := stages.mem_middle_of_single fits hr single
  constructor
  · intro heads
    obtain ⟨q, hq, rfl⟩ := List.mem_map.mp heads
    rcases stages.left_cases hq with ⟨p, hp, left⟩ | new
    · obtain ⟨o, ho, same⟩ := stages.expansions.exists_left hp
      exact List.mem_map.mpr ⟨o, ho, same.trans left⟩
    · exact absurd (Store.mem_symbols there (by simp [single])) new
  · intro heads
    -- the rule is a unit rule, hence a loop, and so the category has this rule
    have unit : r.kind = .unit := by
      rw [stages.expansions.classified classified r there, single, Rule.kindAmong, category,
        List.contains_iff_mem.mpr heads]
      rfl
    have left : r.left = a := List.singleton_inj.mp ((loops r there unit).symm.trans single)
    exact List.mem_map.mpr ⟨r, hr, left⟩

/-- Rules that are classified by the left symbols at the start are classified by those at the end,
when only loops are left in between. -/
theorem classified (stages : Stages g middle split h) (fits : ∀ r ∈ middle.rules, r.Fits)
    (classified : g.store.Classified (g.store.rules.map Rule.left).contains)
    (loops : ∀ u ∈ middle.rules, u.kind = .unit → u.right = [u.left]) :
    h.store.Classified (h.store.rules.map Rule.left).contains := by
  intro r hr
  obtain ⟨fitting, notLong⟩ := stages.chain.fits stages.indexedMiddle.toListed fits r
    (stages.mem_rules.mp hr)
  match right : r.right with
  | [] => exact absurd right fitting.filled
  | [a, b] => exact fitting.binary.mpr (by rw [right]; rfl)
  | a :: b :: c :: rest => exact absurd (fitting.long.mpr (by rw [right]; simp)) notLong
  | [a] =>
    have there := stages.mem_middle_of_single fits hr right
    rw [stages.expansions.classified classified r there, right, Rule.kindAmong, Rule.kindAmong]
    cases category : a.isWordlike with
    | true => rfl
    | false =>
      have same : (h.store.rules.map Rule.left).contains a =
          (g.store.rules.map Rule.left).contains a := by
        rw [Bool.eq_iff_iff, List.contains_iff_mem, List.contains_iff_mem]
        exact stages.mem_left_iff fits classified loops hr right category
      rw [same]

/-- What a conversion leaves has numbers without gaps. -/
theorem renumber_eq (stages : Stages g middle split h) : h.store.renumber = h.store := by
  rw [stages.renumbered]
  exact Store.renumber_ofRules _

end Stages

/-- A grammar within reach whose kinds are those assigned has a conversion that is a fixed point.
The conversion is in normal form and keeps its kinds when they are assigned again, has rules for
the same words and so the same symbols for all sentences, and is its own conversion, down to the
numbers of its rules. -/
theorem exists_normalForm_fixed (g : Grammar W) (reached : g.Reachable (·.right ≠ []))
    (assigned : g.store.assignKinds = g.store) :
    ∃ h, g.normalForm = .ok h ∧ h.store.Normal ∧ h.store.assignKinds = h.store ∧
      (∀ word, (∃ r ∈ h.store.rules, r.kind = .terminal ∧ r.right = [word]) ↔
        ∃ r ∈ g.store.rules, r.kind = .terminal ∧ r.right = [word]) ∧
      (∀ words, h.tokenSymbols words = g.tokenSymbols words) ∧
      h.normalForm = .ok h := by
  obtain ⟨indexed, filled⟩ := reached.indexed_filled fun _ filled => filled
  have classified := Store.classified_of_assignKinds assigned
  obtain ⟨middle, h, new, conv⟩ := exists_converts multiplicative_one indexed filled classified
  obtain ⟨middle', split, stages⟩ := exists_stages indexed filled conv.ok
  obtain rfl : middle' = middle := Except.ok.inj (stages.eliminated.symm.trans conv.eliminated)
  obtain ⟨t, ht, -, -, -, loops⟩ := indexed.eliminateUnits filled
  obtain rfl : middle' = t := Except.ok.inj (stages.eliminated.symm.trans ht)
  have looping := loops _ classified
  have fits : ∀ r ∈ middle'.rules, r.Fits := stages.expansions.fits fun r hr =>
    Rule.fits_of_kindAmong (filled r hr) (classified r hr)
  have normal := stages.normal fits looping
  refine ⟨h, conv.ok, normal, ?_, fun word => ?_, conv.tokenSymbols indexed, ?_⟩
  · exact stages.indexed.assignKinds_eq_self (stages.classified fits classified looping)
  · have same : (∃ r, h.store.Lexical r ∧ r.right = [word]) ↔
        ∃ r, g.store.Lexical r ∧ r.right = [word] := by
      rw [conv.lexical]
      exact conv.closed.exists_lexical_iff
    simpa only [Store.Lexical, and_assoc] using same
  · exact normalForm_of_normal stages.indexed normal stages.renumber_eq

/-- A grammar with a loop, a cycle of unit rules, a category that has unit rules only, and a long
rule. -/
def entangled : Grammar Unit :=
  ofRules [⟨⟨"S"⟩, [⟨"NP"⟩], .terminal, ()⟩, ⟨⟨"NP"⟩, [⟨"S"⟩], .terminal, ()⟩,
    ⟨⟨"NP"⟩, [⟨"NP"⟩], .terminal, ()⟩, ⟨⟨"NP"⟩, [⟨"it"⟩], .terminal, ()⟩,
    ⟨⟨"VP"⟩, [⟨"NP"⟩], .terminal, ()⟩, ⟨⟨"S"⟩, [⟨"NP"⟩, ⟨"VP"⟩, ⟨"NP"⟩], .long, ()⟩]

/-- Its conversion mints one helper and is a fixed point. -/
theorem exists_normalForm_fixed_entangled :
    entangled.Reachable (·.right ≠ []) ∧ entangled.store.assignKinds = entangled.store ∧
      entangled.minted = [⟨"X0"⟩] ∧
      ∃ h, entangled.normalForm = .ok h ∧ h.store.Normal ∧ h.store.assignKinds = h.store ∧
        (∃ r ∈ h.store.rules, r.kind = .terminal ∧ r.right = [⟨"it"⟩]) ∧
        h.tokenSymbols ["it"] = entangled.tokenSymbols ["it"] ∧ h.normalForm = .ok h := by
  have reached : entangled.Reachable (·.right ≠ []) := by
    refine Reachable.ofRules fun r hr => ?_
    simp only [List.mem_cons, List.not_mem_nil, or_false] at hr
    rcases hr with rfl | rfl | rfl | rfl | rfl | rfl <;> simp
  have assigned : entangled.store.assignKinds = entangled.store := Store.assignKinds_assignKinds _
  have word : ∃ r ∈ entangled.store.rules, r.kind = .terminal ∧ r.right = [⟨"it"⟩] := by
    decide +kernel
  obtain ⟨h, done, normal, kinds, same, tokens, again⟩ :=
    exists_normalForm_fixed entangled reached assigned
  exact ⟨reached, assigned, by decide +kernel, h, done, normal, kinds, (same ⟨"it"⟩).mpr word,
    tokens ["it"], again⟩

end Grammar

end Constituency
