import Constituency.Proofs.Grammar.Operations
import Constituency.Proofs.NormalForm.Parses
import Constituency.Proofs.NormalForm.Plain
import Mathlib

/-!
# The names of helpers

Splitting mints one name in each step, the next number whose name is not taken.
Numbers only count up and are kept with the grammar, so no name is minted twice
however often rules come and go between conversions. Taken are the symbols that
unit elimination leaves, not those that the grammar had when the conversion
started. A name that occurs in unit rules alone, none of which leads to a word,
is gone by then, and when its number comes up it is minted although it was a
category before.
-/

namespace Constituency

namespace Store

variable {W : Type}

/-- Numbers that are passed over have names that are taken. -/
theorem helper_mem_of_lt_firstFree {taken : List Symbol} {n k : Nat} (from_n : n ≤ k)
    (below : k < firstFree taken n) : Symbol.helper k ∈ taken := by
  fun_induction firstFree taken n with
  | case1 taken n mem shorter ih =>
    rcases Nat.eq_or_lt_of_le from_n with rfl | later
    · exact mem
    · exact List.mem_of_mem_erase (ih later below)
  | case2 taken n mem => omega

/-- The symbols of the rules that unit elimination leaves. -/
def symbolsLeft [Weight W] (s : Store W) : List Symbol :=
  match s.eliminateUnits with
  | .ok t => t.symbols
  | .error _ => []

end Store

namespace Grammar

variable {W : Type} [Weight W]

/-- The names that splitting mints, in order. -/
def mintedPending (taken : List Symbol) (g : Grammar W) : List Symbol :=
  match h : g.store.firstLong? with
  | none => []
  | some r =>
    match hr : r.right with
    | first :: second :: _ =>
      have := Store.longTotal_splitPair_lt (.helper (Store.firstFree taken g.helpersSpent)) h hr
      .helper (Store.firstFree taken g.helpersSpent) ::
        mintedPending taken (g.splitStep taken first second)
    | _ => []
termination_by g.store.longTotal

/-- The names that a conversion mints, in order. -/
def minted (g : Grammar W) : List Symbol :=
  match g.store.eliminateUnits with
  | .ok store => (g.withStore store).mintedPending store.symbols
  | .error _ => []

/-! ## One conversion -/

section Run

variable {g h : Grammar W} {taken : List Symbol} {r : Rule W}

/-- Without a long rule nothing is minted. -/
theorem mintedPending_of_none (none : g.store.firstLong? = none) : g.mintedPending taken = [] := by
  rw [mintedPending]
  split
  · rfl
  · next r long =>
    rw [none] at long
    cases long

/-- A step mints the first free name. -/
theorem mintedPending_of_pair (long : g.store.firstLong? = some r) {first second : Symbol}
    {rest : List Symbol} (right : r.right = first :: second :: rest) :
    g.mintedPending taken = .helper (Store.firstFree taken g.helpersSpent) ::
      (g.splitStep taken first second).mintedPending taken := by
  rw [mintedPending]
  split
  · next none =>
    rw [long] at none
    cases none
  · next q long' =>
    obtain rfl : q = r := Option.some.inj (long'.symm.trans long)
    split
    · next a b more right' =>
      rw [right] at right'
      obtain ⟨rfl, rfl, rfl⟩ : first = a ∧ second = b ∧ rest = more := by simpa using right'
      rfl
    · next short => exact absurd right (short first second rest)

/-- What a conversion mints, by its effect: `g` is the grammar that splitting starts from and `h`
the one it ends with. -/
structure Mints (g h : Grammar W) (taken names : List Symbol) : Prop where
  /-- Numbers count up. -/
  counted : g.helpersSpent ≤ h.helpersSpent
  /-- No name is minted twice. -/
  nodup : names.Nodup
  /-- The names are those with the numbers counted that are not taken. -/
  mem : ∀ a, a ∈ names ↔
    a ∉ taken ∧ ∃ k, g.helpersSpent ≤ k ∧ k < h.helpersSpent ∧ a = .helper k
  /-- The names become helpers. -/
  helpers : ∀ a, h.isHelper a = true ↔ a ∈ names ∨ g.isHelper a = true

/-- The run of splitting mints free names. -/
theorem SplitChain.mints (chain : SplitChain taken g h) :
    Mints g h taken (g.mintedPending taken) := by
  induction chain with
  | @done g none =>
    rw [mintedPending_of_none none]
    refine ⟨Nat.le_refl _, .nil, fun a => ⟨(absurd · List.not_mem_nil), ?_⟩, fun a => by simp⟩
    rintro ⟨-, k, le, lt, -⟩
    omega
  | @step g h r first second rest long right _ ih =>
    rw [mintedPending_of_pair long right]
    have free := Store.helper_firstFree_not_mem taken g.helpersSpent
    have later := Store.le_firstFree taken g.helpersSpent
    have counted : Store.firstFree taken g.helpersSpent + 1 ≤ h.helpersSpent := ih.counted
    have mem : ∀ a, a ∈ (g.splitStep taken first second).mintedPending taken ↔ a ∉ taken ∧ ∃ k,
        Store.firstFree taken g.helpersSpent + 1 ≤ k ∧ k < h.helpersSpent ∧ a = .helper k := ih.mem
    constructor
    · omega
    · refine List.nodup_cons.mpr ⟨fun again => ?_, ih.nodup⟩
      obtain ⟨-, k, le, -, same⟩ := (mem _).mp again
      have := Symbol.helper_inj same
      omega
    · intro a
      rw [List.mem_cons, mem]
      constructor
      · rintro (rfl | ⟨notTaken, k, le, lt, rfl⟩)
        · exact ⟨free, _, later, by omega, rfl⟩
        · exact ⟨notTaken, k, by omega, lt, rfl⟩
      -- a number before the first free one has a name that is taken
      · rintro ⟨notTaken, k, le, lt, rfl⟩
        rcases Nat.lt_trichotomy k (Store.firstFree taken g.helpersSpent) with before | rfl | behind
        · exact absurd (Store.helper_mem_of_lt_firstFree le before) notTaken
        · exact Or.inl rfl
        · exact Or.inr ⟨notTaken, k, behind, lt, rfl⟩
    · intro a
      rw [ih.helpers, isHelper_splitStep, Bool.or_eq_true, Symbol.is, beq_iff_eq, List.mem_cons]
      tauto

/-- A conversion mints free names: names are taken when unit elimination leaves them. -/
theorem mints_of_normalForm (done : g.normalForm = .ok h) :
    Mints g h g.store.symbolsLeft g.minted := by
  obtain ⟨store, split, eliminated, chain, rfl⟩ := normalForm_cases done
  rw [Store.symbolsLeft, minted, eliminated]
  have mints := chain.mints
  exact ⟨mints.counted, mints.nodup, mints.mem, mints.helpers⟩

/-- A conversion mints no symbol of its grammar exactly when unit elimination loses none that its
numbers name. -/
theorem Mints.fresh_iff {names : List Symbol} (mints : Mints g h g.store.symbolsLeft names) :
    (∀ a ∈ names, a ∉ g.store.symbols) ↔ ∀ k, g.helpersSpent ≤ k → k < h.helpersSpent →
      Symbol.helper k ∈ g.store.symbols → Symbol.helper k ∈ g.store.symbolsLeft := by
  constructor
  · intro fresh k le lt there
    by_contra lost
    exact fresh _ ((mints.mem _).mpr ⟨lost, k, le, lt, rfl⟩) there
  · intro kept a ha there
    obtain ⟨lost, k, le, lt, rfl⟩ := (mints.mem a).mp ha
    exact lost (kept k le lt there)

/-- When the kinds are as assigned, a symbol that unit elimination loses occurs in unit rules only
and derives nothing. -/
theorem useless_of_lost (indexed : g.store.Indexed) (filled : g.store.Filled)
    (assigned : g.store.assignKinds = g.store) {a : Symbol} (lost : a ∉ g.store.symbolsLeft) :
    (∀ r ∈ g.store.rules, a ∈ r.left :: r.right → r.kind = .unit) ∧
      ∀ symbols trees used,
        ¬Derives g.store.Lexical g.store.Phrasal (a :: symbols) trees used := by
  have classified := Store.classified_of_assignKinds assigned
  obtain ⟨middle, h, new, conv⟩ := exists_converts multiplicative_one indexed filled classified
  rw [Store.symbolsLeft, conv.eliminated] at lost
  constructor
  · intro r hr occurs
    by_contra other
    obtain ⟨q, hq, left, right, -⟩ := conv.closed.after r.left r _ (.rule hr other)
    refine lost (Store.mem_symbols hq ?_)
    rwa [left, right]
  · exact fun symbols trees used hd => lost (conv.mem_symbols_of_derives filled classified hd)

end Run

/-! ## Runs of operations -/

/-- An operation that goes on with the grammar and does not start again with another one. -/
def Operation.Continues : Operation W → Prop
  | .new | .ofRules .. | .ofTreebank .. => False
  | .add .. | .remove _ | .assignKinds | .countWord .. | .setRareBelow _ | .convert => True

/-- Every helper of a grammar within reach has a number that is spent. -/
theorem Reachable.exists_of_isHelper {admits : Rule W → Prop} {g : Grammar W}
    (reached : g.Reachable admits) {a : Symbol} (helper : g.isHelper a = true) :
    ∃ k < g.helpersSpent, a = .helper k := by
  induction reached with
  | empty => exact absurd helper (by rw [isHelper, Std.TreeSet.contains_emptyc]; decide)
  | add _ _ ih => exact ih helper
  | remove _ _ ih => exact ih helper
  | assignKinds _ ih => exact ih helper
  | modifyWeight _ _ _ ih => exact ih helper
  | countWord _ _ _ ih => exact ih helper
  | setRareBelow _ _ ih => exact ih helper
  | convert _ done ih =>
    have mints := mints_of_normalForm done
    rcases (mints.helpers a).mp helper with new | old
    · obtain ⟨-, k, -, lt, rfl⟩ := (mints.mem a).mp new
      exact ⟨k, lt, rfl⟩
    · obtain ⟨k, lt, rfl⟩ := ih old
      exact ⟨k, Nat.lt_of_lt_of_le lt mints.counted, rfl⟩

section Runs

/-- What a run mints, by its effect: numbers count up, names are new and become helpers. -/
structure MintsAlong (g last : Grammar W) (names : List Symbol) : Prop where
  /-- Numbers count up. -/
  counted : g.helpersSpent ≤ last.helpersSpent
  /-- No name is minted twice. -/
  nodup : names.Nodup
  /-- The names have the numbers counted. -/
  numbered : ∀ a ∈ names, ∃ k, g.helpersSpent ≤ k ∧ k < last.helpersSpent ∧ a = .helper k
  /-- The names become helpers, and nothing else does. -/
  helpers : ∀ a, last.isHelper a = true ↔ a ∈ names ∨ g.isHelper a = true

variable {g next last : Grammar W} {names more : List Symbol}

omit [Weight W] in
/-- One run after another mints the names of both. -/
theorem MintsAlong.trans (first : g.MintsAlong next names) (second : next.MintsAlong last more) :
    g.MintsAlong last (names ++ more) := by
  have counted := first.counted
  have countedMore := second.counted
  constructor
  · omega
  · refine List.nodup_append.mpr ⟨first.nodup, second.nodup, fun a ha b hb same => ?_⟩
    obtain ⟨k, -, lt, rfl⟩ := first.numbered a ha
    obtain ⟨m, le, -, rfl⟩ := second.numbered b hb
    have := Symbol.helper_inj same
    omega
  · intro a ha
    rcases List.mem_append.mp ha with ha | ha
    · obtain ⟨k, le, lt, rfl⟩ := first.numbered a ha
      exact ⟨k, le, by omega, rfl⟩
    · obtain ⟨k, le, lt, rfl⟩ := second.numbered a ha
      exact ⟨k, by omega, lt, rfl⟩
  · intro a
    rw [second.helpers, first.helpers, List.mem_append]
    tauto

variable [TreebankWeight W]

/-- The names that an operation mints. -/
def mintedBy (g : Grammar W) : Operation W → List Symbol
  | .convert => g.minted
  | _ => []

/-- The names that a run mints, conversion by conversion. -/
def mintedAlong (g : Grammar W) : List (Operation W) → List Symbol
  | [] => []
  | op :: ops =>
    g.mintedBy op ++
      match g.step op with
      | .ok next => next.mintedAlong ops
      | .error _ => []

/-- An operation that goes on mints names only as a conversion, and new ones. -/
theorem mintsAlong_step {op : Operation W} (continues : op.Continues)
    (done : g.step op = .ok next) : g.MintsAlong next (g.mintedBy op) := by
  have unchanged : next.helpers = g.helpers → next.helpersSpent = g.helpersSpent →
      g.MintsAlong next [] := fun helpers spent =>
    ⟨Nat.le_of_eq spent.symm, .nil, fun a ha => absurd ha List.not_mem_nil,
      fun a => by rw [isHelper, helpers, isHelper]; simp⟩
  cases op with
  | new | ofRules | ofTreebank => exact continues.elim
  | add | assignKinds | countWord | setRareBelow =>
    cases done
    exact unchanged rfl rfl
  | remove r =>
    rw [step] at done
    cases removed : g.store.remove r with
    | error e =>
      rw [removed] at done
      cases done
    | ok result =>
      rw [removed] at done
      cases done
      exact unchanged rfl rfl
  | convert =>
    have mints := mints_of_normalForm done
    exact ⟨mints.counted, mints.nodup, fun a ha => ((mints.mem a).mp ha).2, mints.helpers⟩

/-- A run that goes on mints new names. -/
theorem mintsAlong_execute {ops : List (Operation W)} (continues : ∀ op ∈ ops, op.Continues)
    (done : g.execute ops = .ok last) : g.MintsAlong last (g.mintedAlong ops) := by
  induction ops generalizing g with
  | nil =>
    cases done
    exact ⟨Nat.le_refl _, .nil, fun a ha => absurd ha List.not_mem_nil, fun a => by
      simp [mintedAlong]⟩
  | cons op ops ih =>
    obtain ⟨next, first, rest⟩ := exists_of_bind_ok done
    rw [mintedAlong, first]
    exact (mintsAlong_step (continues op List.mem_cons_self) first).trans
      (ih (fun op hop => continues op (List.mem_cons_of_mem _ hop)) rest)

/-- A run falls into its beginning and its end. -/
theorem execute_append (g : Grammar W) (before after : List (Operation W)) :
    g.execute (before ++ after) = g.execute before >>= fun mid => mid.execute after := by
  induction before generalizing g with
  | nil => rfl
  | cons op before ih =>
    rw [List.cons_append, execute, execute]
    cases g.step op with
    | error e => rfl
    | ok next => exact ih next

/-- Helper names along a run, from a grammar within reach and without starting again. The run
succeeds, no name is minted twice or was a helper before, and the helpers at the end are those
before and those minted. A conversion on the way mints no symbol of its grammar exactly when unit
elimination loses none of the symbols that its numbers name. When the kinds are as assigned, the
symbols that it does mint occur in unit rules only and derive nothing. -/
theorem exists_execute_minted (g : Grammar W) (reached : g.Reachable Rule.Provisional)
    (ops : List (Operation W)) (continues : ∀ op ∈ ops, op.Continues) :
    ∃ last, g.execute ops = .ok last ∧ (g.mintedAlong ops).Nodup ∧
      (∀ a ∈ g.mintedAlong ops, g.isHelper a = false) ∧
      (∀ a, last.isHelper a = true ↔ a ∈ g.mintedAlong ops ∨ g.isHelper a = true) ∧
      ∀ before after, ops = before ++ .convert :: after →
        ∃ mid next, g.execute before = .ok mid ∧ mid.normalForm = .ok next ∧
          ((∀ a ∈ mid.minted, a ∉ mid.store.symbols) ↔
            ∀ k, mid.helpersSpent ≤ k → k < next.helpersSpent →
              .helper k ∈ mid.store.symbols → .helper k ∈ mid.store.symbolsLeft) ∧
          (mid.store.assignKinds = mid.store → ∀ a ∈ mid.minted, a ∈ mid.store.symbols →
            (∀ r ∈ mid.store.rules, a ∈ r.left :: r.right → r.kind = .unit) ∧
              ∀ symbols trees used,
                ¬Derives mid.store.Lexical mid.store.Phrasal (a :: symbols) trees used) := by
  obtain ⟨last, done, -⟩ := reached.execute ops
  have along := mintsAlong_execute continues done
  refine ⟨last, done, along.nodup, fun a ha => ?_, along.helpers, ?_⟩
  · obtain ⟨k, le, -, rfl⟩ := along.numbered a ha
    refine Bool.eq_false_iff.mpr fun helper => ?_
    obtain ⟨m, lt, same⟩ := reached.exists_of_isHelper helper
    have := Symbol.helper_inj same
    omega
  · rintro before after rfl
    rw [execute_append] at done
    obtain ⟨mid, first, rest⟩ := exists_of_bind_ok done
    obtain ⟨next, converted, -⟩ := exists_of_bind_ok rest
    have mints := mints_of_normalForm converted
    refine ⟨mid, next, first, converted, mints.fresh_iff, fun assigned a ha _ => ?_⟩
    obtain ⟨mid', first', reachedMid⟩ := reached.execute before
    obtain rfl : mid = mid' := Except.ok.inj (first.symm.trans first')
    obtain ⟨indexed, filled⟩ := reachedMid.indexed_filled fun _ made => made.filled
    exact useless_of_lost indexed filled assigned ((mints.mem a).mp ha).1

end Runs

/-- A grammar with a long rule, where a category has the name of a helper. -/
def renewed : Grammar Unit :=
  ofRules [⟨⟨"S"⟩, [⟨"A"⟩, ⟨"B"⟩, ⟨"C"⟩], .long, ()⟩, ⟨⟨"X1"⟩, [⟨"a"⟩], .terminal, ()⟩]

/-- Two conversions with a new long rule in between. -/
def renewal : List (Operation Unit) :=
  [.convert, .add ⟨⟨"T"⟩, [⟨"A"⟩, ⟨"B"⟩, ⟨"C"⟩], .long, ()⟩ ⟨by simp, rfl⟩, .convert]

/-- Two names are minted, the one in use is passed over, and the helpers are just these two. -/
theorem exists_execute_minted_renewed :
    renewed.Reachable Rule.Provisional ∧ (∀ op ∈ renewal, op.Continues) ∧
      renewed.mintedAlong renewal = [⟨"X0"⟩, ⟨"X2"⟩] ∧
      ∃ last, renewed.execute renewal = .ok last ∧
        ∀ a, last.isHelper a = true ↔ a = ⟨"X0"⟩ ∨ a = ⟨"X2"⟩ := by
  have reached : renewed.Reachable Rule.Provisional := by
    refine Reachable.ofRules fun r hr => ?_
    simp only [List.mem_cons, List.not_mem_nil, or_false] at hr
    rcases hr with rfl | rfl <;> exact ⟨by simp, rfl⟩
  have continues : ∀ op ∈ renewal, op.Continues := by
    intro op hop
    simp only [renewal, List.mem_cons, List.not_mem_nil, or_false] at hop
    rcases hop with rfl | rfl | rfl <;> trivial
  have names : renewed.mintedAlong renewal = [⟨"X0"⟩, ⟨"X2"⟩] := by cbv
  obtain ⟨last, done, -, -, helpers, -⟩ := exists_execute_minted renewed reached renewal continues
  refine ⟨reached, continues, names, last, done, fun a => ?_⟩
  have unconverted : renewed.isHelper a = false := Std.TreeSet.contains_emptyc
  rw [helpers, names, unconverted]
  simp

/-- A grammar with a cycle of unit rules that leads to no word, through a category with the name of
a helper. -/
def captured : Grammar Unit :=
  ofRules [⟨⟨"S"⟩, [⟨"A"⟩, ⟨"B"⟩, ⟨"C"⟩], .long, ()⟩, ⟨⟨"X0"⟩, [⟨"Y"⟩], .terminal, ()⟩,
    ⟨⟨"Y"⟩, [⟨"X0"⟩], .terminal, ()⟩]

/-- A conversion mints a name that stands on both sides of stored rules. -/
theorem minted_captured :
    captured.Reachable Rule.Provisional ∧ ⟨"X0"⟩ ∈ captured.store.symbols ∧
      ⟨"X0"⟩ ∈ captured.minted ∧
      ∃ h, captured.normalForm = .ok h ∧ h.isHelper ⟨"X0"⟩ = true := by
  have reached : captured.Reachable Rule.Provisional := by
    refine Reachable.ofRules fun r hr => ?_
    simp only [List.mem_cons, List.not_mem_nil, or_false] at hr
    rcases hr with rfl | rfl | rfl <;> exact ⟨by simp, rfl⟩
  have minted : ⟨"X0"⟩ ∈ captured.minted := by decide +kernel
  obtain ⟨h, done, -⟩ := reached.step .convert
  exact ⟨reached, by decide +kernel, minted, h, done,
    ((mints_of_normalForm done).helpers _).mpr (Or.inl minted)⟩

end Grammar

end Constituency
