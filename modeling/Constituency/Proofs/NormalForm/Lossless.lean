import Constituency.Proofs.NormalForm.HelperNames
import Constituency.Proofs.NormalForm.Rewriting

/-!
# Splitting loses nothing

Splitting changes every long rule and adds rules for helpers, yet the rules before
can be read off the rules afterwards: leave out those of the minted helpers, and
write the helpers out in the others until none is left. `Lossless` says so in full.
Writing out comes to an end because the pair of a helper is as old as the grammar
or was minted before the helper.
-/

namespace Constituency

variable {W : Type}

/-! ## Writing out comes to an end -/

/-- A symbol stands on the right side of the rule that writes out another one. -/
def WrittenFor (minted : List (Rule W)) (b a : Symbol) : Prop :=
  ∃ r ∈ minted, r.left = a ∧ b ∈ r.right

namespace Expands

variable {minted : List (Rule W)}

/-- What is no helper is not written out. -/
theorem acc_of_old {a : Symbol} (old : a ∉ minted.map Rule.left) : Acc (WrittenFor minted) a := by
  apply Acc.intro
  rintro b ⟨r, hr, left, -⟩
  exact absurd (List.mem_map.mpr ⟨r, hr, left⟩) old

/-- A helper is written out after the symbols of its right side. -/
theorem acc_of_right (single : ∀ p ∈ minted, ∀ q ∈ minted, p.left = q.left → p = q) {r : Rule W}
    (hr : r ∈ minted) (right : ∀ b ∈ r.right, Acc (WrittenFor minted) b) :
    Acc (WrittenFor minted) r.left := by
  apply Acc.intro
  rintro b ⟨q, hq, left, inside⟩
  obtain rfl := single q hq r hr left
  exact right b inside

/-- Symbols that stand for something are written out in finitely many steps. -/
theorem acc (single : ∀ p ∈ minted, ∀ q ∈ minted, p.left = q.left → p = q)
    {symbols expanded : List Symbol} (h : Expands minted symbols expanded) :
    ∀ a ∈ symbols, Acc (WrittenFor minted) a := by
  induction h with
  | nil => exact fun a ha => absurd ha List.not_mem_nil
  | keep old _ ih =>
    intro b hb
    rcases List.mem_cons.mp hb with rfl | hb
    · exact acc_of_old old
    · exact ih b hb
  | write rule _ _ ihRight ih =>
    intro b hb
    rcases List.mem_cons.mp hb with rfl | hb
    · exact acc_of_right single rule ihRight
    · exact ih b hb

/-- When the right side of every helper stands for something, writing out comes to an end. -/
theorem wellFounded (single : ∀ p ∈ minted, ∀ q ∈ minted, p.left = q.left → p = q)
    (total : ∀ r ∈ minted, ∃ inner, Expands minted r.right inner) :
    WellFounded (WrittenFor minted) := by
  apply WellFounded.intro
  intro a
  by_cases helper : a ∈ minted.map Rule.left
  · obtain ⟨r, hr, rfl⟩ := List.mem_map.mp helper
    obtain ⟨inner, written⟩ := total r hr
    exact acc_of_right single hr (written.acc single)
  · exact acc_of_old helper

end Expands

namespace Grammar

variable [Weight W] {g h : Grammar W} {taken : List Symbol}

/-! ## The whole run -/

/-- What else holds of a run of splitting: the minted rules are for the minted names, in their
order, each stands for something, and no rule that branches is merged into one symbol. -/
structure RewritesFully (taken : List Symbol) (g h : Grammar W) (rewrite : Rule W → Rule W)
    (minted : List (Rule W)) : Prop extends Rewrites taken g h rewrite minted where
  /-- The left symbols of the minted rules are the names that are minted. -/
  names : minted.map Rule.left = g.mintedPending taken
  /-- The right side of each stands for something. -/
  total : ∀ r ∈ minted, ∃ inner, Expands minted r.right inner
  /-- Two right symbols or more do not become one. -/
  branching : ∀ r : Rule W, r.Fits → 2 ≤ r.right.length → 2 ≤ (rewrite r).right.length

/-- A step before a run of splitting keeps what else holds of it. -/
theorem RewritesFully.step {rewrite : Rule W → Rule W} {minted : List (Rule W)} {r : Rule W}
    {first second : Symbol} {rest : List Symbol} (acc : g.Accounted taken)
    (listed : g.store.Listed) (long : g.store.firstLong? = some r)
    (right : r.right = first :: second :: rest)
    (below : RewritesFully taken (g.splitStep taken first second) h rewrite minted) :
    ∃ rewrite minted, RewritesFully taken g h rewrite minted := by
  have stored := (Store.firstLong?_eq_some long).1
  obtain ⟨apart, pair_old⟩ := below.pair_old acc listed stored right
  refine ⟨_, _, .step acc listed stored right below.toRewrites, ?_, fun q hq => ?_,
    fun q fits two => ?_⟩
  · rw [mintedPending_of_pair long right, List.map_cons, below.names]
    rfl
  · rcases List.mem_cons.mp hq with rfl | hq
    · exact ⟨[first, second], .refl pair_old⟩
    · obtain ⟨inner, written⟩ := below.total q hq
      exact ⟨_, written.cons_minted apart (pair_old first (by simp)) (pair_old second (by simp))⟩
  · exact below.branching _ (Store.fits_mergeLong fits) (Store.two_le_length_mergeLong fits two)

/-- A run of splitting rewrites rules and mints rules for helpers, in full. -/
theorem SplitChain.rewritesFully (chain : SplitChain taken g h) (acc : g.Accounted taken)
    (listed : g.store.Listed) : ∃ rewrite minted, RewritesFully taken g h rewrite minted := by
  induction chain with
  | @done g none =>
    refine ⟨id, [], .refl taken g, ?_, fun r hr => absurd hr List.not_mem_nil, fun _ _ two => two⟩
    rw [mintedPending_of_none none, List.map_nil]
  | step long right _ ih =>
    have stored := (Store.firstLong?_eq_some long).1
    obtain ⟨rewrite, minted, below⟩ :=
      ih (acc.splitStep listed stored right) (listed.splitPair _ _ _)
    exact RewritesFully.step acc listed long right below

/-! ## Nothing is lost -/

/-- The rules of a grammar with one of some names on the left side. -/
def rulesFor (h : Grammar W) (names : List Symbol) : List (Rule W) :=
  h.store.rules.filter fun q => names.contains q.left

/-- The rules of a grammar with none of some names on the left side. -/
def rulesBeside (h : Grammar W) (names : List Symbol) : List (Rule W) :=
  h.store.rules.filter fun q => !names.contains q.left

/-- Splitting `g` into `h` loses nothing: the names are those of the minted helpers, and `rewrite`
tells what becomes of each rule. -/
structure Lossless (g h : Grammar W) (names : List Symbol) (rewrite : Rule W → Rule W) :
    Prop where
  /-- A minted name occurs in no rule before. -/
  fresh : ∀ a ∈ names, a ∉ g.store.symbols
  /-- No name is minted twice. -/
  nodup : names.Nodup
  /-- The names become helpers, and nothing else does. -/
  helpers : ∀ a, h.isHelper a = true ↔ a ∈ names ∨ g.isHelper a = true
  /-- The rules for other symbols are those from before, rewritten one by one in their order. -/
  beside : h.rulesBeside names = g.store.rules.map rewrite
  /-- No two rules become one. -/
  injective : ∀ p ∈ g.store.rules, ∀ q ∈ g.store.rules,
    (rewrite p).SameSides (rewrite q) → p = q
  /-- A rule keeps its left symbol and its weight. -/
  kept : ∀ r ∈ g.store.rules, (rewrite r).left = r.left ∧ (rewrite r).weight = r.weight
  /-- Written out, the right side is the one from before and no other one. -/
  right : ∀ r ∈ g.store.rules, ∀ symbols,
    Expands (h.rulesFor names) (rewrite r).right symbols ↔ symbols = r.right
  /-- A minted helper has one rule, with two right symbols and a weight that changes no product. -/
  single : ∀ a ∈ names, ∃ q, h.rulesFor [a] = [q] ∧ q.right.length = 2 ∧ q.kind = .binary ∧
    q.weight = Weight.neutral
  /-- Writing the minted helpers out comes to an end. -/
  ends : WellFounded (WrittenFor (h.rulesFor names))
  /-- A rule with two right symbols or fewer stays as it is. -/
  short : ∀ r ∈ g.store.rules, r.right.length ≤ 2 → rewrite r = r
  /-- A rule with three right symbols or more ends as a binary rule. -/
  long : ∀ r ∈ g.store.rules, 3 ≤ r.right.length →
    (rewrite r).right.length = 2 ∧ (rewrite r).kind = .binary

omit [Weight W] in
/-- Among rules with distinct left symbols, one is singled out by its own. -/
theorem filter_left_eq_singleton {rules : List (Rule W)} (nodup : (rules.map Rule.left).Nodup)
    {q : Rule W} (hq : q ∈ rules) : rules.filter (fun r => [q.left].contains r.left) = [q] := by
  have picks : ∀ r : Rule W, [q.left].contains r.left = true ↔ r.left = q.left := fun r => by
    rw [List.contains_iff_mem, List.mem_singleton]
  induction rules with
  | nil => exact absurd hq List.not_mem_nil
  | cons r rules ih =>
    obtain ⟨first, rest⟩ := List.nodup_cons.mp nodup
    rcases List.mem_cons.mp hq with rfl | later
    · have none : rules.filter (fun r => [q.left].contains r.left) = [] := by
        rw [List.filter_eq_nil_iff]
        intro p hp same
        exact first ((picks p).mp same ▸ List.mem_map_of_mem hp)
      rw [List.filter_cons, if_pos ((picks q).mpr rfl), none]
    · have other : ¬[q.left].contains r.left = true := fun same =>
        first ((picks r).mp same ▸ List.mem_map_of_mem later)
      rw [List.filter_cons, if_neg other, ih rest later]

namespace RewritesFully

variable {rewrite : Rule W → Rule W} {minted : List (Rule W)}

/-- Names that the rules from before do not have single out minted rules. -/
theorem filter_rules (full : RewritesFully taken g h rewrite minted)
    {p : Symbol → Bool} (old : ∀ a ∈ g.store.symbols, p a = false) :
    h.store.rules.filter (fun q => p q.left) = minted.filter fun q => p q.left := by
  have none : (g.store.rules.map rewrite).filter (fun q => p q.left) = [] := by
    rw [List.filter_eq_nil_iff]
    intro q hq
    obtain ⟨r, hr, rfl⟩ := List.mem_map.mp hq
    rw [full.left_eq, old r.left (Store.mem_symbols hr List.mem_cons_self)]
    exact Bool.false_ne_true
  rw [full.rules_eq, List.filter_append, none, List.nil_append]

/-- The rules for the minted names are the minted ones. -/
theorem rulesFor_eq (full : RewritesFully taken g h rewrite minted) (acc : g.Accounted taken) :
    h.rulesFor (g.mintedPending taken) = minted := by
  have old : ∀ a ∈ g.store.symbols, (g.mintedPending taken).contains a = false := by
    intro a ha
    rw [← full.names, ← Bool.not_eq_true, List.contains_iff_mem]
    exact full.fresh acc a ha
  rw [rulesFor, full.filter_rules old, ← full.names, List.filter_eq_self]
  exact fun q hq => List.contains_iff_mem.mpr (List.mem_map_of_mem hq)

/-- The rules beside the minted names are the rewritten ones. -/
theorem rulesBeside_eq (full : RewritesFully taken g h rewrite minted) (acc : g.Accounted taken) :
    h.rulesBeside (g.mintedPending taken) = g.store.rules.map rewrite := by
  have none : minted.filter (fun q => !(minted.map Rule.left).contains q.left) = [] := by
    rw [List.filter_eq_nil_iff]
    intro q hq
    simp only [List.contains_iff_mem.mpr (List.mem_map_of_mem hq), Bool.not_true]
    exact Bool.false_ne_true
  rw [rulesBeside, ← full.names, full.rules_eq, List.filter_append, none, List.append_nil,
    List.filter_eq_self]
  intro q hq
  obtain ⟨r, hr, rfl⟩ := List.mem_map.mp hq
  have old := full.fresh acc r.left (Store.mem_symbols hr List.mem_cons_self)
  rw [full.left_eq, Bool.not_eq_true', ← Bool.not_eq_true, List.contains_iff_mem]
  exact old

/-- Each minted rule is the one for its name. -/
theorem rulesFor_left (full : RewritesFully taken g h rewrite minted) (acc : g.Accounted taken)
    {q : Rule W} (hq : q ∈ minted) : h.rulesFor [q.left] = [q] := by
  have old : ∀ a ∈ g.store.symbols, [q.left].contains a = false := by
    intro a ha
    rw [← Bool.not_eq_true, List.contains_iff_mem, List.mem_singleton]
    rintro rfl
    exact full.fresh acc _ ha (List.mem_map_of_mem hq)
  rw [rulesFor, full.filter_rules old, filter_left_eq_singleton full.nodup hq]

/-- Each minted helper has one rule. -/
theorem single (full : RewritesFully taken g h rewrite minted) :
    ∀ p ∈ minted, ∀ q ∈ minted, p.left = q.left → p = q :=
  fun _ hp _ hq => List.inj_on_of_nodup_map full.nodup hp hq

/-- Splitting a listed store apart in sides, whose kinds fit, loses nothing. -/
theorem lossless (full : RewritesFully g.store.symbols g h rewrite minted)
    (chain : SplitChain g.store.symbols g h) (listed : g.store.Listed)
    (apart : g.store.DistinctSides) (fits : ∀ r ∈ g.store.rules, r.Fits) :
    Lossless g h (g.mintedPending g.store.symbols) rewrite := by
  have acc := accounted_symbols g
  have mints := chain.mints
  have stored : ∀ r ∈ g.store.rules, rewrite r ∈ h.store.rules := fun r hr => by
    rw [full.rules_eq]
    exact List.mem_append_left minted (List.mem_map_of_mem hr)
  constructor
  case fresh => exact fun a ha => ((mints.mem a).mp ha).1
  case nodup => exact mints.nodup
  case helpers => exact mints.helpers
  case beside => exact full.rulesBeside_eq acc
  case injective =>
    intro p hp q hq same
    obtain ⟨i, hi⟩ := listed.mem_rules.mp hp
    obtain ⟨j, hj⟩ := listed.mem_rules.mp hq
    have left : p.left = q.left := by
      rw [← full.left_eq p, ← full.left_eq q]
      exact same.1
    have written := full.right p hp
    rw [same.2] at written
    have right : p.right = q.right := written.unique full.single (full.right q hq)
    exact apart.eq hi hj ⟨left, right⟩
  case kept => exact fun r _ => ⟨full.left_eq r, full.weight_eq r⟩
  case right =>
    intro r hr symbols
    rw [full.rulesFor_eq acc]
    constructor
    · exact fun written => written.unique full.single (full.right r hr)
    · rintro rfl
      exact full.right r hr
  case single =>
    intro a ha
    rw [← full.names] at ha
    obtain ⟨q, hq, rfl⟩ := List.mem_map.mp ha
    obtain ⟨kind, two, neutral⟩ := full.minted_eq q hq
    exact ⟨q, full.rulesFor_left acc hq, two, kind, neutral⟩
  case ends =>
    rw [full.rulesFor_eq acc]
    exact Expands.wellFounded full.single full.total
  case short =>
    intro r hr short
    apply full.short
    intro long
    have := (fits r hr).long.mp long
    omega
  case long =>
    intro r hr three
    obtain ⟨fitting, notLong⟩ := chain.fits listed fits _ (stored r hr)
    have atLeast := full.branching r (fits r hr) (by omega)
    have atMost : ¬3 ≤ (rewrite r).right.length := fun still => notLong (fitting.long.mpr still)
    have two : (rewrite r).right.length = 2 := by omega
    exact ⟨two, fitting.binary.mpr two⟩

end RewritesFully

/-- Splitting the long rules of a grammar that passes the check, lists its rules and has kinds that
fit never fails and loses nothing. The minted rules are told by their names; the others are the
rules from before, one for one, and the helpers written out in them give back the old right
sides. -/
theorem exists_splitLongRules_lossless (g : Grammar W) (listed : g.store.Listed)
    (coherent : g.store.isCoherent = true) (fits : ∀ r ∈ g.store.rules, r.Fits) :
    ∃ h rewrite, g.splitLongRules = .ok h ∧
      Lossless g h (g.mintedPending g.store.symbols) rewrite := by
  obtain ⟨h, done⟩ := exists_splitPending g.store.symbols g listed fits
  have chain := splitChain_of_ok done
  obtain ⟨rewrite, minted, full⟩ := chain.rewritesFully (accounted_symbols g) listed
  exact ⟨h, rewrite, done,
    full.lossless chain listed (listed.distinctSides_of_isCoherent coherent) fits⟩

/-- A grammar with repeated and overlapping pairs, where a category has the name of a helper. -/
def repeating : Grammar Unit :=
  ofRules [⟨⟨"S"⟩, [⟨"A"⟩, ⟨"A"⟩, ⟨"A"⟩], .long, ()⟩,
    ⟨⟨"T"⟩, [⟨"A"⟩, ⟨"B"⟩, ⟨"A"⟩, ⟨"B"⟩], .long, ()⟩,
    ⟨⟨"U"⟩, [⟨"B"⟩, ⟨"A"⟩, ⟨"A"⟩, ⟨"X1"⟩, ⟨"A"⟩], .long, ()⟩,
    ⟨⟨"X1"⟩, [⟨"A"⟩, ⟨"B"⟩], .binary, ()⟩, ⟨⟨"A"⟩, [⟨"a"⟩], .terminal, ()⟩]

/-- Splitting mints five helpers, some for pairs with a helper, and loses nothing. -/
theorem exists_splitLongRules_lossless_repeating :
    repeating.store.Listed ∧ repeating.store.isCoherent = true ∧
      (∀ r ∈ repeating.store.rules, r.Fits) ∧
      repeating.mintedPending repeating.store.symbols =
        [⟨"X0"⟩, ⟨"X2"⟩, ⟨"X3"⟩, ⟨"X4"⟩, ⟨"X5"⟩] ∧
      ∃ h rewrite, repeating.splitLongRules = .ok h ∧
        Lossless repeating h [⟨"X0"⟩, ⟨"X2"⟩, ⟨"X3"⟩, ⟨"X4"⟩, ⟨"X5"⟩] rewrite := by
  have reached : repeating.Reachable Rule.Provisional := by
    refine Reachable.ofRules fun r hr => ?_
    simp only [List.mem_cons, List.not_mem_nil, or_false] at hr
    rcases hr with rfl | rfl | rfl | rfl | rfl <;> exact ⟨by simp, rfl⟩
  have indexed := (reached.indexed_filled fun _ made => made.filled).1
  have fits := reached.fits fun _ made => made.fits
  have names : repeating.mintedPending repeating.store.symbols =
      [⟨"X0"⟩, ⟨"X2"⟩, ⟨"X3"⟩, ⟨"X4"⟩, ⟨"X5"⟩] := by cbv
  have lossless := exists_splitLongRules_lossless repeating indexed.toListed indexed.isCoherent fits
  rw [names] at lossless
  exact ⟨indexed.toListed, indexed.isCoherent, fits, names, lossless⟩

end Grammar

end Constituency
