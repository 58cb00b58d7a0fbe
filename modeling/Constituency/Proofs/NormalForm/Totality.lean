import Constituency.Proofs.NormalForm.HelperNames
import Constituency.Proofs.NormalForm.UnitRounds

/-!
# Every conversion ends

A conversion has three loops: the rounds of unit elimination, the steps of
splitting, and in every step the count that passes over helper names in use. A
run of all three is told as a finite object, with what every step relies on:
numbers that are looked up have rules, rules are found on both lists, long rules
have a leading pair, and the lists are in order at the end. Every grammar within
reach has exactly one run, whatever cycles its unit rules form, however long its
rules are, and whether or not kinds were assigned since rules last came or went.
-/

namespace Constituency

namespace Store

/-- Counting up from one number, past helper names that are taken, ends at another. -/
inductive CountsTo (taken : List Symbol) : Nat → Nat → Prop
  /-- The name is free. -/
  | free {n : Nat} (free : Symbol.helper n ∉ taken) : CountsTo taken n n
  /-- The name is taken, so the next number is tried. -/
  | next {n k : Nat} (mem : Symbol.helper n ∈ taken) (rest : CountsTo taken (n + 1) k) :
      CountsTo taken n k

variable {taken : List Symbol}

/-- Counting ends at one number only. -/
theorem CountsTo.unique {n k m : Nat} (h : CountsTo taken n k) (other : CountsTo taken n m) :
    k = m := by
  induction h with
  | free free =>
    cases other with
    | free => rfl
    | next mem => exact absurd mem free
  | next mem _ ih =>
    cases other with
    | free free => exact absurd mem free
    | next _ rest => exact ih rest

/-- Counting up over names that are taken ends at the first that is not. -/
theorem countsTo_of_taken {k : Nat} (free : Symbol.helper k ∉ taken) {n : Nat} (le : n ≤ k)
    (before : ∀ m, n ≤ m → m < k → Symbol.helper m ∈ taken) : CountsTo taken n k := by
  obtain ⟨d, rfl⟩ := Nat.exists_eq_add_of_le le
  induction d generalizing n with
  | zero => exact .free free
  | succ d ih =>
    have later : n + 1 + d = n + (d + 1) := by omega
    refine .next (before n (Nat.le_refl n) (by omega)) (later ▸ ih ?_ (by omega) ?_)
    · exact later ▸ free
    · exact fun m from_n below => before m (by omega) (by omega)

/-- The search for a free name counts up to it. -/
theorem countsTo_firstFree (taken : List Symbol) (n : Nat) :
    CountsTo taken n (firstFree taken n) :=
  countsTo_of_taken (helper_firstFree_not_mem taken n) (le_firstFree taken n)
    fun _ => helper_mem_of_lt_firstFree

end Store

namespace Grammar

variable {W : Type} [Weight W] {g h : Grammar W} {taken : List Symbol}

/-- A run of splitting: the pair at the front of the first long rule gives way to the next free
helper, until no rule is long. -/
inductive Splits (taken : List Symbol) : Grammar W → Grammar W → Prop
  /-- No rule is long. -/
  | done {g : Grammar W} (listed : g.store.Listed) (none : g.store.firstLong? = none) :
      Splits taken g g
  /-- One pair is split off. -/
  | step {g h : Grammar W} {r : Rule W} {first second : Symbol} {rest : List Symbol} {n : Nat}
      (listed : g.store.Listed) (long : g.store.firstLong? = some r)
      (right : r.right = first :: second :: rest) (named : Store.CountsTo taken g.helpersSpent n)
      (later : Splits taken
        { g with
          store := g.store.splitPair first second (.helper n)
          helpersSpent := n + 1
          helpers := g.helpers.insert (.helper n) } h) : Splits taken g h

/-- From one grammar there is only one run. -/
theorem Splits.unique {k : Grammar W} (run : Splits taken g h) (other : Splits taken g k) :
    h = k := by
  induction run with
  | done _ none =>
    cases other with
    | done => rfl
    | step _ long =>
      rw [none] at long
      cases long
  | step _ long right named _ ih =>
    cases other with
    | done _ none =>
      rw [none] at long
      cases long
    | step _ long' right' named' later =>
      obtain rfl := Option.some.inj (long.symm.trans long')
      obtain ⟨rfl, rest⟩ := List.cons.inj (right.symm.trans right')
      obtain ⟨rfl, -⟩ := List.cons.inj rest
      obtain rfl := named.unique named'
      exact ih later

/-- A chain of splitting steps that starts from a listed store is a run. -/
theorem SplitChain.splits (chain : SplitChain taken g h) (listed : g.store.Listed) :
    Splits taken g h := by
  induction chain with
  | done none => exact .done listed none
  | step long right _ ih =>
    exact .step listed long right (Store.countsTo_firstFree _ _) (ih (listed.splitPair _ _ _))

/-- A run of a conversion: the store between its halves, and the grammar whose rules get new
numbers. -/
structure ConversionRun (g : Grammar W) (middle : Store W) (split h : Grammar W) : Prop where
  /-- Unit rules are eliminated round by round. -/
  rounds : g.store.Rounds [] middle
  /-- Long rules are split step by step. -/
  splits : Splits middle.symbols (g.withStore middle) split
  /-- The rules get new numbers. -/
  renumbered : h = split.withStore split.store.renumber
  /-- The check at the end finds both lists in order. -/
  coherent : h.store.isCoherent = true

/-- From one grammar there is only one run of a conversion. -/
theorem ConversionRun.unique {middle middle' : Store W} {split split' k : Grammar W}
    (run : g.ConversionRun middle split h) (other : g.ConversionRun middle' split' k) :
    h = k := by
  obtain rfl := run.rounds.unique other.rounds
  obtain rfl := run.splits.unique other.splits
  rw [run.renumbered, other.renumbered]

/-- Every grammar within reach has exactly one run of a conversion, and the conversion gives its
result, in which no rule has more than two right symbols. Rules may be stored with any kind that
fits, and kinds need not have been assigned since. -/
theorem exists_conversionRun {admits : Rule W → Prop} (fit : ∀ r, admits r → r.Fits)
    (reached : g.Reachable admits) :
    ∃ h, g.normalForm = .ok h ∧ (∃ middle split, g.ConversionRun middle split h) ∧
      (∀ k middle split, g.ConversionRun middle split k → k = h) ∧
      ∀ r ∈ h.store.rules, r.right.length ≤ 2 := by
  have indexed := (reached.indexed_filled fun r allowed => (fit r allowed).filled).1
  have fits := reached.fits fit
  obtain ⟨h, middle, split, converted, stages, rounds⟩ := exists_stages_rounds indexed fits
  have run : g.ConversionRun middle split h :=
    ⟨rounds, stages.chain.splits stages.indexedMiddle.toListed, stages.renumbered,
      stages.indexed.isCoherent⟩
  refine ⟨h, converted, ⟨middle, split, run⟩, fun k _ _ other => other.unique run, ?_⟩
  intro r hr
  obtain ⟨fitsR, notLong⟩ := fits_normalForm indexed fits converted r hr
  have short := mt fitsR.long.mpr notLong
  omega

/-- A grammar with a cycle of unit rules, a loop and a long rule, to which a rule for the word of
another rule was added without assigning kinds again. -/
def unassigned : Grammar Unit :=
  let classified : Grammar Unit :=
    ofRules [⟨⟨"S"⟩, [⟨"B"⟩], .terminal, ()⟩, ⟨⟨"B"⟩, [⟨"S"⟩], .terminal, ()⟩,
      ⟨⟨"B"⟩, [⟨"B"⟩], .terminal, ()⟩, ⟨⟨"B"⟩, [⟨"X0"⟩], .terminal, ()⟩,
      ⟨⟨"S"⟩, [⟨"B"⟩, ⟨"B"⟩, ⟨"B"⟩, ⟨"B"⟩], .long, ()⟩]
  classified.withStore (classified.store.add ⟨⟨"X0"⟩, [⟨"S"⟩, ⟨"B"⟩, ⟨"S"⟩], .long, ()⟩).1

/-- The conversion of the grammar ends, although its unit rules form a cycle, a helper name is in
use and one rule still passes for a rule for a word. -/
theorem exists_conversionRun_unassigned :
    unassigned.Reachable Rule.Provisional ∧ unassigned.store.unitTargets = [⟨"B"⟩, ⟨"S"⟩] ∧
      (∃ r ∈ unassigned.store.rules, r.right = [⟨"X0"⟩] ∧ r.kind = .terminal) ∧
      ⟨"X0"⟩ ∈ unassigned.store.leftSides ∧
      ∃ h, unassigned.normalForm = .ok h ∧
        (∃ middle split, unassigned.ConversionRun middle split h) ∧
        ∀ r ∈ h.store.rules, r.right.length ≤ 2 := by
  have reached : unassigned.Reachable Rule.Provisional := by
    refine .add (.ofRules fun r hr => ?_) ⟨by simp, rfl⟩
    simp only [List.mem_cons, List.not_mem_nil, or_false] at hr
    rcases hr with rfl | rfl | rfl | rfl | rfl <;> exact ⟨by simp, rfl⟩
  obtain ⟨h, converted, run, -, short⟩ := exists_conversionRun (fun _ made => made.fits) reached
  exact ⟨reached, by decide +kernel, by decide +kernel, by decide +kernel, h, converted, run, short⟩

end Grammar

end Constituency
