import Constituency.Proofs.NormalForm.Splicing

/-!
# The run of splitting

Splitting mints one helper for each step. Helper names are never names of the
grammar that the run starts from and never minted twice, because names that are
taken are passed over and numbers only count up. So every step is one that
refines the store, and so is the run: it never fails on rules whose kinds fit,
and afterwards no rule is long.
-/

namespace Constituency

/-- Helpers with different numbers have different names. -/
theorem Symbol.helper_inj {m n : Nat} (h : helper m = helper n) : m = n := by
  have names : "X" ++ String.ofList (Nat.toDigits 10 m) =
      "X" ++ String.ofList (Nat.toDigits 10 n) := congrArg Symbol.name h
  have lists := congrArg String.toList names
  simp only [String.toList_append, String.toList_ofList] at lists
  have digits : Nat.toDigits 10 m = Nat.toDigits 10 n := List.append_cancel_left lists
  rw [← Nat.ofDigitChars_ten_toDigits (n := m), digits, Nat.ofDigitChars_ten_toDigits]

namespace Store

variable {W : Type}

/-- The search for a free name only counts up. -/
theorem le_firstFree (taken : List Symbol) (n : Nat) : n ≤ firstFree taken n := by
  fun_induction firstFree taken n with
  | case1 taken n mem shorter ih => omega
  | case2 taken n mem => exact Nat.le_refl n

/-- The name that is found is not taken. -/
theorem helper_firstFree_not_mem (taken : List Symbol) (n : Nat) :
    Symbol.helper (firstFree taken n) ∉ taken := by
  fun_induction firstFree taken n with
  | case1 taken n mem shorter ih =>
    have later := le_firstFree (taken.erase (.helper n)) (n + 1)
    have other : Symbol.helper (firstFree (taken.erase (.helper n)) (n + 1)) ≠ .helper n :=
      fun heq => by
        have := Symbol.helper_inj heq
        omega
    rwa [List.mem_erase_of_ne other] at ih
  | case2 taken n mem => exact mem

/-- The first long rule is a stored one, and long. -/
theorem firstLong?_eq_some {s : Store W} {r : Rule W} (h : s.firstLong? = some r) :
    r ∈ s.rules ∧ r.kind = .long :=
  ⟨List.mem_of_find?_eq_some h, of_decide_eq_true (List.find?_some h :)⟩

/-- Without a first long rule no stored rule is long. -/
theorem firstLong?_eq_none {s : Store W} (h : s.firstLong? = none) {r : Rule W}
    (hr : r ∈ s.rules) : r.kind ≠ .long := by
  have := List.find?_eq_none.mp h r hr
  simpa using this

end Store

namespace Grammar

variable {W M : Type}

/-- Every symbol in use is taken or an earlier helper. -/
def Accounted (g : Grammar W) (taken : List Symbol) : Prop :=
  ∀ a ∈ g.store.symbols, a ∈ taken ∨ ∃ k < g.helpersSpent, a = Symbol.helper k

/-- At the start of splitting every symbol is taken. -/
theorem accounted_symbols (g : Grammar W) : g.Accounted g.store.symbols :=
  fun _ ha => Or.inl ha

/-- The next helper occurs nowhere. -/
theorem Accounted.fresh {g : Grammar W} {taken : List Symbol} (h : g.Accounted taken) :
    Symbol.helper (Store.firstFree taken g.helpersSpent) ∉ g.store.symbols := by
  intro hmem
  rcases h _ hmem with there | ⟨k, hk, heq⟩
  · exact Store.helper_firstFree_not_mem taken g.helpersSpent there
  · have later := Store.le_firstFree taken g.helpersSpent
    have := Symbol.helper_inj heq
    omega

/-- The grammar after one step of splitting. -/
def splitStep [Weight W] (g : Grammar W) (taken : List Symbol) (first second : Symbol) :
    Grammar W :=
  { g with
    store := g.store.splitPair first second
      (.helper (Store.firstFree taken g.helpersSpent))
    helpersSpent := Store.firstFree taken g.helpersSpent + 1
    helpers := g.helpers.insert (.helper (Store.firstFree taken g.helpersSpent)) }

section Run

variable [Weight W] {g h : Grammar W} {taken : List Symbol} {first second : Symbol}

/-- After a step of splitting the new symbol is a helper, and the others are as before. -/
theorem isHelper_splitStep (g : Grammar W) (taken : List Symbol) (first second a : Symbol) :
    (g.splitStep taken first second).isHelper a =
      (Symbol.is (.helper (Store.firstFree taken g.helpersSpent)) a || g.isHelper a) := by
  have tie : (compare (Symbol.helper (Store.firstFree taken g.helpersSpent)) a == .eq) =
      Symbol.is (.helper (Store.firstFree taken g.helpersSpent)) a := by
    rw [Symbol.is, Bool.eq_iff_iff, beq_iff_eq, beq_iff_eq,
      Std.LawfulEqCmp.compare_eq_iff_eq, eq_comm]
  rw [isHelper, splitStep, Std.TreeSet.contains_insert, tie, isHelper]

/-- After a step the symbols in use are accounted for again. -/
theorem Accounted.splitStep (acc : g.Accounted taken) (listed : g.store.Listed) {r : Rule W}
    (hr : r ∈ g.store.rules) {rest : List Symbol} (right : r.right = first :: second :: rest) :
    (g.splitStep taken first second).Accounted taken := by
  intro a ha
  rcases listed.mem_symbols_splitPair hr right ha with rfl | old
  · exact Or.inr ⟨_, Nat.lt_succ_self _, rfl⟩
  · rcases acc a old with there | ⟨k, hk, rfl⟩
    · exact Or.inl there
    · have later := Store.le_firstFree taken g.helpersSpent
      have spent : (g.splitStep taken first second).helpersSpent =
          Store.firstFree taken g.helpersSpent + 1 := rfl
      exact Or.inr ⟨k, by omega, rfl⟩

/-- A chain of steps, each for the leading pair of the first long rule, until none is left. -/
inductive SplitChain (taken : List Symbol) : Grammar W → Grammar W → Prop
  /-- No rule is long. -/
  | done {g : Grammar W} (none : g.store.firstLong? = none) : SplitChain taken g g
  /-- One pair is split off before the others. -/
  | step {g h : Grammar W} {r : Rule W} {first second : Symbol} {rest : List Symbol}
      (long : g.store.firstLong? = some r) (right : r.right = first :: second :: rest)
      (later : SplitChain taken (g.splitStep taken first second) h) : SplitChain taken g h

/-- When splitting succeeds, it is a chain of steps. -/
theorem splitChain_of_ok (h_ok : g.splitPending taken = .ok h) : SplitChain taken g h := by
  fun_induction splitPending taken g with
  | case1 g none =>
    cases h_ok
    exact .done none
  | case2 g r long first second rest right n shorter ih => exact .step long right (ih h_ok)
  | case3 => cases h_ok

/-- Splitting never fails on rules whose kinds fit. -/
theorem exists_splitPending (taken : List Symbol) (g : Grammar W) (listed : g.store.Listed)
    (fits : ∀ r ∈ g.store.rules, r.Fits) : ∃ h, g.splitPending taken = .ok h := by
  fun_induction splitPending taken g with
  | case1 g none => exact ⟨g, rfl⟩
  | case2 g r long first second rest right n shorter ih =>
    exact ih (listed.splitPair _ _ _) (listed.fits_splitPair fits _ _ _)
  | case3 g r long short =>
    obtain ⟨stored, kind⟩ := Store.firstLong?_eq_some long
    have three := (fits r stored).long.mp kind
    match hright : r.right with
    | [] => simp [hright] at three
    | [a] => simp [hright] at three
    | a :: b :: rest => exact absurd hright (short a b rest)

/-- A chain of steps leaves a listed store, apart in sides and without empty right sides. -/
theorem SplitChain.listed (chain : SplitChain taken g h) (acc : g.Accounted taken)
    (listed : g.store.Listed) (apart : g.store.DistinctSides) (filled : g.store.Filled) :
    h.store.Listed ∧ h.store.DistinctSides ∧ h.store.Filled := by
  induction chain with
  | done => exact ⟨listed, apart, filled⟩
  | step long right _ ih =>
    have stored := (Store.firstLong?_eq_some long).1
    exact ih (acc.splitStep listed stored right) (listed.splitPair _ _ _)
      (apart.splitPair listed acc.fresh) (listed.filled_splitPair filled _ _ _)

/-- A chain of steps leaves rules whose kinds fit, none of them long. -/
theorem SplitChain.fits (chain : SplitChain taken g h) (listed : g.store.Listed)
    (fits : ∀ r ∈ g.store.rules, r.Fits) : ∀ r ∈ h.store.rules, r.Fits ∧ r.kind ≠ .long := by
  induction chain with
  | done none => exact fun r hr => ⟨fits r hr, Store.firstLong?_eq_none none hr⟩
  | step _ _ _ ih => exact ih (listed.splitPair _ _ _) (listed.fits_splitPair fits _ _ _)

/-- A chain of steps leaves no rule with one right symbol that was not there before. -/
theorem SplitChain.mem_of_single (chain : SplitChain taken g h) (listed : g.store.Listed)
    (fits : ∀ r ∈ g.store.rules, r.Fits) {q : Rule W} (hq : q ∈ h.store.rules) {a : Symbol}
    (single : q.right = [a]) : q ∈ g.store.rules := by
  induction chain with
  | done => exact hq
  | @step g h r first second rest _ _ _ ih =>
    have after := ih (listed.splitPair _ _ _) (listed.fits_splitPair fits _ _ _) hq
    rcases listed.mem_rules_splitPair.mp after with rfl | ⟨p, hp, rfl⟩
    · cases single
    · by_cases long : p.kind = .long
      · have three := (fits p hp).long.mp long
        have two : 2 ≤ [a].length := by
          rw [← single]
          exact Store.two_le_length_mergeLong (fits p hp) (by omega)
        exact absurd two (Nat.not_succ_le_self 1)
      · rwa [Store.mergeLong_of_ne long]

/-- A property that the weight of helper rules has stays with all weights. -/
theorem SplitChain.weights {admits : W → Prop} (neutral : admits Weight.neutral)
    (chain : SplitChain taken g h) (listed : g.store.Listed)
    (weights : ∀ r ∈ g.store.rules, admits r.weight) : ∀ r ∈ h.store.rules, admits r.weight := by
  induction chain with
  | done => exact weights
  | step _ _ _ ih =>
    refine ih (listed.splitPair _ _ _) fun r hr => ?_
    rcases listed.mem_rules_splitPair.mp hr with rfl | ⟨q, hq, rfl⟩
    · exact neutral
    · rw [Store.weight_mergeLong]
      exact weights q hq

/-- A chain of steps keeps the lexicon and the threshold for rare words. -/
theorem SplitChain.words (chain : SplitChain taken g h) :
    h.lexicon = g.lexicon ∧ h.rareBelow = g.rareBelow := by
  induction chain with
  | done => exact ⟨rfl, rfl⟩
  | step _ _ _ ih => exact ih

/-- What a chain of steps does to derivations: the symbols it mints are unspent helpers that were
not taken, they are known as helpers afterwards, the rules for words stay, and the store is refined
by splicing the minted symbols out. -/
theorem SplitChain.refines [Monoid M] {value : W → M} (mult : Multiplicative value)
    (chain : SplitChain taken g h) (acc : g.Accounted taken) (listed : g.store.Listed)
    (apart : g.store.DistinctSides) (fits : ∀ r ∈ g.store.rules, r.Fits) :
    ∃ new : Symbol → Bool,
      (∀ a, new a = true → a ∉ taken ∧ ∃ k, g.helpersSpent ≤ k ∧ a = Symbol.helper k) ∧
      (∀ a, h.isHelper a = (g.isHelper a || new a)) ∧
      (∀ r, h.store.Lexical r ↔ g.store.Lexical r) ∧ g.store.Refines h.store value new := by
  induction chain with
  | @done g none =>
    exact ⟨fun _ => false, fun _ hnew => absurd hnew Bool.false_ne_true,
      fun a => (Bool.or_false _).symm, fun _ => Iff.rfl, Store.Refines.refl _ _⟩
  | @step g h r first second rest long right later ih =>
    obtain ⟨stored, kind⟩ := Store.firstLong?_eq_some long
    have fresh := acc.fresh
    have pair_ne : ∀ a ∈ r.right, a ≠ Symbol.helper (Store.firstFree taken g.helpersSpent) :=
      fun a ha heq => fresh (heq ▸ Store.mem_symbols stored (List.mem_cons_of_mem _ ha))
    have splittable : g.store.Splittable first second
        (.helper (Store.firstFree taken g.helpersSpent)) :=
      ⟨listed, apart, fits, fresh, pair_ne first (by rw [right]; simp),
        pair_ne second (by rw [right]; simp)⟩
    obtain ⟨new, unspent, helpers, lexical, refined⟩ :=
      ih (acc.splitStep listed stored right) (listed.splitPair _ _ _)
        (apart.splitPair listed fresh) (listed.fits_splitPair fits _ _ _)
    refine ⟨fun a => Symbol.is (.helper (Store.firstFree taken g.helpersSpent)) a || new a, ?_, ?_,
      ?_, (splittable.refines mult).trans refined⟩
    · intro a ha
      have le := Store.le_firstFree taken g.helpersSpent
      rcases Bool.or_eq_true_iff.mp ha with here | later
      · rw [Symbol.is, beq_iff_eq] at here
        exact ⟨here ▸ Store.helper_firstFree_not_mem taken g.helpersSpent, _, le, here⟩
      · obtain ⟨notTaken, k, hk, rfl⟩ := unspent a later
        have spent : (g.splitStep taken first second).helpersSpent =
            Store.firstFree taken g.helpersSpent + 1 := rfl
        exact ⟨notTaken, k, by omega, rfl⟩
    · intro a
      rw [helpers, isHelper_splitStep, Bool.or_comm (Symbol.is _ a), Bool.or_assoc]
    · intro q
      rw [lexical]
      exact ⟨splittable.lexical_before, splittable.lexical_after⟩

end Run

end Grammar

end Constituency
