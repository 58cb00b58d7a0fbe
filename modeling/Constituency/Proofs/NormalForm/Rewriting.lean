import Constituency.Proofs.NormalForm.Conversion
import Mathlib.Data.List.Forall2
import Mathlib.Data.List.Nodup

/-!
# Where the rules of a conversion come from

Splitting rewrites the right sides of long rules and mints rules for helpers. Each
rule afterwards is either minted or rewritten from one rule before, and the old
right side is what one gets by writing out the helpers in the new one, again and
again. `Expands` is this writing out; a run of splitting steps is described by
`Rewrites`, with one list of minted rules that grows in front.

On derivations this accounts for every rule: when the helpers are spliced out, what
is left is a derivation by the rules before, which uses them in the same order.
-/

namespace Constituency

variable {W : Type}

/-! ## Writing helpers out -/

/-- Symbols and what they stand for when the left symbol of every minted rule is written out. -/
inductive Expands (minted : List (Rule W)) : List Symbol → List Symbol → Prop
  /-- No symbols stand for none. -/
  | nil : Expands minted [] []
  /-- A symbol that is no helper stands for itself. -/
  | keep {a : Symbol} {symbols expanded : List Symbol} (old : a ∉ minted.map Rule.left)
      (rest : Expands minted symbols expanded) : Expands minted (a :: symbols) (a :: expanded)
  /-- A helper stands for what the right side of its rule stands for. -/
  | write {r : Rule W} {symbols inner expanded : List Symbol} (rule : r ∈ minted)
      (right : Expands minted r.right inner) (rest : Expands minted symbols expanded) :
      Expands minted (r.left :: symbols) (inner ++ expanded)

namespace Expands

variable {minted more : List (Rule W)}

/-- Symbols that are no helpers stand for themselves. -/
theorem refl {symbols : List Symbol} (old : ∀ a ∈ symbols, a ∉ minted.map Rule.left) :
    Expands minted symbols symbols := by
  induction symbols with
  | nil => exact .nil
  | cons a symbols ih =>
    exact .keep (old a List.mem_cons_self) (ih fun b hb => old b (List.mem_cons_of_mem a hb))

/-- The order of the minted rules does not matter. -/
theorem congr (same : ∀ r, r ∈ minted ↔ r ∈ more) {symbols expanded : List Symbol}
    (h : Expands minted symbols expanded) : Expands more symbols expanded := by
  induction h with
  | nil => exact .nil
  | keep old _ ih =>
    refine .keep (fun hmem => old ?_) ih
    obtain ⟨r, hr, left⟩ := List.mem_map.mp hmem
    exact List.mem_map.mpr ⟨r, (same r).mpr hr, left⟩
  | write rule _ _ ihRight ih => exact .write ((same _).mp rule) ihRight ih

/-- How a symbol and more are written out. -/
theorem cons_cases {a : Symbol} {symbols expanded : List Symbol}
    (h : Expands minted (a :: symbols) expanded) :
    (a ∉ minted.map Rule.left ∧ ∃ rest, expanded = a :: rest ∧ Expands minted symbols rest) ∨
      ∃ r ∈ minted, r.left = a ∧ ∃ inner rest, expanded = inner ++ rest ∧
        Expands minted r.right inner ∧ Expands minted symbols rest := by
  cases h with
  | keep old rest => exact .inl ⟨old, _, rfl, rest⟩
  | write rule right rest => exact .inr ⟨_, rule, rfl, _, _, rfl, right, rest⟩

/-- When each helper has one rule, there is one way to write helpers out. -/
theorem unique (single : ∀ p ∈ minted, ∀ q ∈ minted, p.left = q.left → p = q)
    {symbols expanded others : List Symbol} (h : Expands minted symbols expanded)
    (k : Expands minted symbols others) : expanded = others := by
  induction h generalizing others with
  | nil =>
    cases k
    rfl
  | keep old _ ih =>
    rcases k.cons_cases with ⟨-, rest, rfl, hrest⟩ | ⟨r, hr, left, -⟩
    · rw [ih hrest]
    · exact absurd (List.mem_map.mpr ⟨r, hr, left⟩) old
  | @write r _ _ _ rule _ _ ihRight ih =>
    rcases k.cons_cases with ⟨old, -⟩ | ⟨q, hq, left, inner, rest, rfl, hinner, hrest⟩
    · exact absurd (List.mem_map_of_mem rule) old
    · obtain rfl := single q hq r rule left
      rw [ihRight hinner, ih hrest]

/-- Writing out makes no list shorter, when no minted rule has an empty right side. -/
theorem length_le (filled : ∀ r ∈ minted, r.right ≠ []) {symbols expanded : List Symbol}
    (h : Expands minted symbols expanded) : symbols.length ≤ expanded.length := by
  induction h with
  | nil => exact Nat.le_refl 0
  | keep _ _ ih => exact Nat.succ_le_succ ih
  | @write r _ inner _ rule _ _ ihRight ih =>
    have some_symbol := List.length_pos_iff.mpr (filled r rule)
    rw [List.length_cons, List.length_append]
    omega

variable [Weight W] {first second new : Symbol}

/-- With one more helper, the pair is written for it in what symbols stand for. -/
theorem cons_minted (apart : new ∉ minted.map Rule.left)
    (first_old : first ∉ new :: minted.map Rule.left)
    (second_old : second ∉ new :: minted.map Rule.left) {symbols expanded : List Symbol}
    (h : Expands minted symbols expanded) :
    Expands (Store.helperRule first second new :: minted) symbols
      (unmerge first second new expanded) := by
  have lefts : (Store.helperRule (W := W) first second new :: minted).map Rule.left =
      new :: minted.map Rule.left := rfl
  induction h with
  | nil => exact .nil
  | @keep a _ _ old _ ih =>
    by_cases here : a = new
    · subst here
      have pair : Expands (Store.helperRule (W := W) first second a :: minted) [first, second]
          [first, second] :=
        .keep (by rwa [lefts]) (.keep (by rwa [lefts]) .nil)
      rw [unmerge_cons_new]
      exact .write (r := Store.helperRule first second a) List.mem_cons_self pair ih
    · rw [unmerge_cons_of_ne here]
      refine .keep ?_ ih
      rw [lefts, List.mem_cons, not_or]
      exact ⟨here, old⟩
  | write rule _ _ ihRight ih =>
    rw [unmerge_append]
    exact .write (List.mem_cons_of_mem _ rule) ihRight ih

end Expands

namespace Grammar

/-! ## Rules of helpers -/

section Helpers

variable {h : Grammar W}

/-- The rules of the helpers. -/
def helperRules (h : Grammar W) : List (Rule W) :=
  h.store.rules.filter fun q => h.isHelper q.left

/-- A rule is what splitting made of another one: its left symbol and its weight are the same, and
its right side is the same when the helpers are written out. -/
structure RewrittenFrom (h : Grammar W) (q r : Rule W) : Prop where
  /-- The left symbols are the same. -/
  left : q.left = r.left
  /-- The weights are the same. -/
  weight : q.weight = r.weight
  /-- The right side stands for that of the other rule. -/
  right : Expands h.helperRules q.right r.right

/-- The rules of the helpers are the stored ones with a helper on the left side. -/
theorem mem_helperRules {q : Rule W} :
    q ∈ h.helperRules ↔ q ∈ h.store.rules ∧ h.isHelper q.left = true :=
  List.mem_filter

/-- A symbol that is no helper stands for itself. -/
theorem expands_cons {a : Symbol} (plain : h.isHelper a = false)
    {symbols expanded : List Symbol} (written : Expands h.helperRules (a :: symbols) expanded) :
    ∃ rest, expanded = a :: rest ∧ Expands h.helperRules symbols rest := by
  rcases written.cons_cases with ⟨-, kept⟩ | ⟨r, hr, rfl, -⟩
  · exact kept
  · rw [(mem_helperRules.mp hr).2] at plain
    cases plain

/-- Rules have the product of those that they were rewritten from. -/
theorem product_eq_of_rewritten {M : Type} [Monoid M] {value : W → M} {used rules : List (Rule W)}
    (same : List.Forall₂ h.RewrittenFrom used rules) :
    Rule.product value used = Rule.product value rules := by
  induction same with
  | nil => rfl
  | cons first _ ih => rw [Rule.product_cons, Rule.product_cons, first.weight, ih]

/-- Neutral rules of helpers change no product. -/
theorem product_filter [Weight W] {M : Type} [Monoid M] {value : W → M}
    (mult : Multiplicative value) (neutral : ∀ q ∈ h.helperRules, q.weight = Weight.neutral)
    {used : List (Rule W)} (stored : ∀ q ∈ used, q ∈ h.store.rules) :
    Rule.product value (used.filter fun q => !h.isHelper q.left) = Rule.product value used := by
  induction used with
  | nil => rfl
  | cons q used ih =>
    have rest := ih fun r hr => stored r (List.mem_cons_of_mem q hr)
    cases marked : h.isHelper q.left with
    | false =>
      rw [List.filter_cons_of_pos (by simp [marked]), Rule.product_cons, rest, Rule.product_cons]
    | true =>
      have helper := mem_helperRules.mpr ⟨stored q List.mem_cons_self, marked⟩
      rw [List.filter_cons_of_neg (by simp [marked]), rest, Rule.product_cons, neutral q helper,
        mult.neutral, one_mul]

end Helpers

/-! ## A run of splitting -/

variable [Weight W] {g h : Grammar W} {taken : List Symbol} {first second : Symbol}

/-- What a run of splitting does to rules: those from before are rewritten one by one, and those of
the helpers come behind them. -/
structure Rewrites (taken : List Symbol) (g h : Grammar W) (rewrite : Rule W → Rule W)
    (minted : List (Rule W)) : Prop where
  /-- The rules afterwards. -/
  rules_eq : h.store.rules = g.store.rules.map rewrite ++ minted
  /-- The minted helpers were not taken and not spent. -/
  unspent : ∀ r ∈ minted, r.left ∉ taken ∧ ∃ k, g.helpersSpent ≤ k ∧ r.left = Symbol.helper k
  /-- Each helper has one rule. -/
  nodup : (minted.map Rule.left).Nodup
  /-- They are known as helpers. -/
  helpers : ∀ a, h.isHelper a = (g.isHelper a || (minted.map Rule.left).contains a)
  /-- A minted rule has two right symbols and changes no product. -/
  minted_eq : ∀ r ∈ minted, r.kind = .binary ∧ r.right.length = 2 ∧ r.weight = Weight.neutral
  /-- Rewriting keeps the left symbol. -/
  left_eq : ∀ r, (rewrite r).left = r.left
  /-- Rewriting keeps the weight. -/
  weight_eq : ∀ r, (rewrite r).weight = r.weight
  /-- Only long rules are rewritten. -/
  short : ∀ r, r.kind ≠ .long → rewrite r = r
  /-- Writing the helpers out gives the right side from before. -/
  right : ∀ r ∈ g.store.rules, Expands minted (rewrite r).right r.right

/-- What is accounted for at the start is never minted. -/
theorem Rewrites.fresh {rewrite : Rule W → Rule W} {minted : List (Rule W)}
    (rewrites : Rewrites taken g h rewrite minted) (acc : g.Accounted taken) :
    ∀ a ∈ g.store.symbols, a ∉ minted.map Rule.left := by
  intro a ha hmem
  obtain ⟨r, hr, rfl⟩ := List.mem_map.mp hmem
  obtain ⟨notTaken, k, hk, named⟩ := rewrites.unspent r hr
  rcases acc _ ha with there | ⟨j, hj, same⟩
  · exact notTaken there
  · have := Symbol.helper_inj (named.symm.trans same)
    omega

/-- When nothing is split, nothing is rewritten or minted. -/
theorem Rewrites.refl (taken : List Symbol) (g : Grammar W) : Rewrites taken g g id [] :=
  ⟨by simp, by simp, by simp, by simp, by simp, fun _ => rfl, fun _ => rfl, fun _ _ => rfl,
    fun _ _ => .refl (by simp)⟩

/-- No step behind the one that mints a helper mints that helper again or one of its pair, and the
helper is none of its pair. -/
theorem Rewrites.pair_old {rewrite : Rule W → Rule W} {minted : List (Rule W)} {r : Rule W}
    {rest : List Symbol} (acc : g.Accounted taken) (listed : g.store.Listed)
    (stored : r ∈ g.store.rules) (right : r.right = first :: second :: rest)
    (below : Rewrites taken (g.splitStep taken first second) h rewrite minted) :
    .helper (Store.firstFree taken g.helpersSpent) ∉ minted.map Rule.left ∧
      ∀ a ∈ [first, second],
        a ∉ .helper (Store.firstFree taken g.helpersSpent) :: minted.map Rule.left := by
  have fresh := acc.fresh
  have freshLater := below.fresh (acc.splitStep listed stored right)
  have helper : Store.helperRule first second (.helper (Store.firstFree taken g.helpersSpent)) ∈
      (g.splitStep taken first second).store.rules := listed.mem_rules_splitPair.mpr (.inl rfl)
  -- the helper and its pair occur in its rule, so no later step mints them
  refine ⟨freshLater _ (Store.mem_symbols helper List.mem_cons_self), fun a ha => ?_⟩
  rw [List.mem_cons, not_or]
  refine ⟨fun same => fresh ?_, freshLater a (Store.mem_symbols helper (List.mem_cons_of_mem _ ha))⟩
  have inside : a ∈ r.right := by
    rw [right]
    exact List.mem_append_left rest ha
  exact same ▸ Store.mem_symbols stored (List.mem_cons_of_mem _ inside)

/-- A step before a run of splitting rewrites its rules first and mints one helper more. -/
theorem Rewrites.step {rewrite : Rule W → Rule W} {minted : List (Rule W)} {r : Rule W}
    {rest : List Symbol} (acc : g.Accounted taken) (listed : g.store.Listed)
    (stored : r ∈ g.store.rules) (right : r.right = first :: second :: rest)
    (below : Rewrites taken (g.splitStep taken first second) h rewrite minted) :
    Rewrites taken g h
      (rewrite ∘ Store.mergeLong first second
        (.helper (Store.firstFree taken g.helpersSpent)))
      (Store.helperRule first second
        (.helper (Store.firstFree taken g.helpersSpent)) :: minted) := by
  have fresh := acc.fresh
  obtain ⟨apart, pair_old⟩ := below.pair_old acc listed stored right
  generalize hnew : Symbol.helper (Store.firstFree taken g.helpersSpent) = new at *
  have store : (g.splitStep taken first second).store = g.store.splitPair first second new := by
    rw [← hnew]
    rfl
  constructor
  case rules_eq =>
    have kept : rewrite (Store.helperRule first second new) =
        Store.helperRule first second new := below.short _ (by simp [Store.helperRule])
    rw [below.rules_eq, store, listed.rules_splitPair, List.map_append, List.map_map,
      List.append_assoc, List.map_singleton, kept, List.singleton_append]
  case unspent =>
    have later := Store.le_firstFree taken g.helpersSpent
    intro q hq
    rcases List.mem_cons.mp hq with rfl | hq
    · refine ⟨?_, _, later, hnew.symm⟩
      rw [← hnew]
      exact Store.helper_firstFree_not_mem taken g.helpersSpent
    · obtain ⟨notTaken, k, hk, named⟩ := below.unspent q hq
      have spent : (g.splitStep taken first second).helpersSpent =
          Store.firstFree taken g.helpersSpent + 1 := rfl
      exact ⟨notTaken, k, by omega, named⟩
  case nodup => exact List.nodup_cons.mpr ⟨apart, below.nodup⟩
  case helpers =>
    intro a
    rw [below.helpers, isHelper_splitStep, hnew, List.map_cons, List.contains_cons,
      Bool.or_comm (Symbol.is _ a), Bool.or_assoc]
    rfl
  case minted_eq =>
    intro q hq
    rcases List.mem_cons.mp hq with rfl | hq
    · exact ⟨rfl, rfl, rfl⟩
    · exact below.minted_eq q hq
  case left_eq => exact fun q => (below.left_eq _).trans (Store.left_mergeLong _ _ _ q)
  case weight_eq => exact fun q => (below.weight_eq _).trans (Store.weight_mergeLong _ _ _ q)
  case short =>
    intro q kind
    rw [Function.comp_apply, Store.mergeLong_of_ne kind, below.short q kind]
  case right =>
    intro q hq
    have merged : Store.mergeLong first second new q ∈
        (g.splitStep taken first second).store.rules := by
      rw [store]
      exact listed.mem_rules_splitPair.mpr (.inr ⟨q, hq, rfl⟩)
    have absent : new ∉ q.right := fun inside =>
      fresh (Store.mem_symbols hq (List.mem_cons_of_mem _ inside))
    have expanded := (below.right _ merged).cons_minted apart (pair_old first (by simp))
      (pair_old second (by simp))
    rwa [Store.unmerge_mergeLong absent] at expanded

/-- A run of splitting rewrites rules and mints rules for helpers. -/
theorem SplitChain.rewrites (chain : SplitChain taken g h) (acc : g.Accounted taken)
    (listed : g.store.Listed) : ∃ rewrite minted, Rewrites taken g h rewrite minted := by
  induction chain with
  | done => exact ⟨id, [], .refl taken _⟩
  | step long right _ ih =>
    have stored := (Store.firstLong?_eq_some long).1
    obtain ⟨rewrite, minted, below⟩ :=
      ih (acc.splitStep listed stored right) (listed.splitPair _ _ _)
    exact ⟨_, _, .step acc listed stored right below⟩

/-! ## The rules of a converted grammar -/

/-- How the rules of a grammar stem from those of a store before splitting. -/
structure SplitFrom (s : Store W) (h : Grammar W) : Prop where
  /-- No symbol from before is a helper. -/
  fresh : ∀ a ∈ s.symbols, h.isHelper a = false
  /-- Rules of other symbols are rewritten. -/
  origin : ∀ q ∈ h.store.rules, h.isHelper q.left = false → ∃ r ∈ s.rules, h.RewrittenFrom q r
  /-- Rules of helpers have two right symbols and change no product. -/
  minted : ∀ q ∈ h.helperRules, q.right.length = 2 ∧ q.weight = Weight.neutral
  /-- Each helper has one rule. -/
  single : ∀ p ∈ h.helperRules, ∀ q ∈ h.helperRules, p.left = q.left → p = q

/-- A conversion of a grammar that was not converted before splits the rules of the store in
between. -/
theorem Stages.splitFrom {middle : Store W} {split : Grammar W} (stages : Stages g middle split h)
    (unconverted : ∀ a, g.isHelper a = false) : SplitFrom middle h := by
  have acc : (g.withStore middle).Accounted middle.symbols := accounted_symbols (g.withStore middle)
  obtain ⟨rewrite, minted, rewrites⟩ := stages.chain.rewrites acc stages.indexedMiddle.toListed
  have fresh : ∀ a ∈ middle.symbols, a ∉ minted.map Rule.left := rewrites.fresh acc
  have helper : ∀ a, h.isHelper a = (minted.map Rule.left).contains a := by
    intro a
    have same : h.isHelper a = split.isHelper a := by
      rw [stages.renumbered]
      rfl
    rw [same, rewrites.helpers, show (g.withStore middle).isHelper a = false from unconverted a,
      Bool.false_or]
  have stored : ∀ {q : Rule W}, q ∈ h.store.rules ↔
      (∃ r ∈ middle.rules, rewrite r = q) ∨ q ∈ minted := by
    intro q
    rw [stages.mem_rules, rewrites.rules_eq, List.mem_append, List.mem_map]
    rfl
  have mem : ∀ q, q ∈ h.helperRules ↔ q ∈ minted := by
    intro q
    rw [mem_helperRules, stored, helper, List.contains_iff_mem]
    constructor
    · rintro ⟨⟨r, hr, rfl⟩ | there, marked⟩
      · rw [rewrites.left_eq] at marked
        exact absurd marked (fresh _ (Store.mem_symbols hr List.mem_cons_self))
      · exact there
    · exact fun there => ⟨.inr there, List.mem_map_of_mem there⟩
  refine ⟨fun a ha => ?_, fun q hq plain => ?_, fun q hq => ?_, fun p hp q hq left => ?_⟩
  · rw [helper, Bool.eq_false_iff]
    exact fun marked => fresh a ha (List.contains_iff_mem.mp marked)
  · rcases stored.mp hq with ⟨r, hr, rfl⟩ | there
    · exact ⟨r, hr, rewrites.left_eq r, rewrites.weight_eq r,
        (rewrites.right r hr).congr fun q => (mem q).symm⟩
    · have marked := mem_helperRules.mp ((mem q).mpr there)
      rw [plain] at marked
      cases marked.2
  · exact (rewrites.minted_eq q ((mem q).mp hq)).2
  · exact List.inj_on_of_nodup_map rewrites.nodup ((mem p).mp hp) ((mem q).mp hq) left

namespace SplitFrom

variable {s : Store W}

/-- A rule that is for no helper is rewritten from exactly one rule. -/
theorem existsUnique_origin (from_s : SplitFrom s h) (indexed : s.Indexed) {q : Rule W}
    (hq : q ∈ h.store.rules) (plain : h.isHelper q.left = false) :
    ∃! r, r ∈ s.rules ∧ h.RewrittenFrom q r := by
  obtain ⟨r, hr, rewritten⟩ := from_s.origin q hq plain
  refine ⟨r, ⟨hr, rewritten⟩, fun p ⟨hp, other⟩ => ?_⟩
  exact indexed.eq_of_sameSides hp hr ⟨other.left.symm.trans rewritten.left,
    other.right.unique from_s.single rewritten.right⟩

/-- Splicing the helpers out of a derivation from symbols gives a derivation from what these stand
for, by the rules that were rewritten into those used, in the same order. -/
theorem derives_splice (from_s : SplitFrom s h) (lexical : h.store.Lexical = s.Lexical)
    {symbols expanded : List Symbol} {trees : List (Tree Symbol)} {used : List (Rule W)}
    (hd : Derives h.store.Lexical h.store.Branching symbols trees used)
    (written : Expands h.helperRules symbols expanded) :
    ∃ rules, Derives s.Lexical s.Branching expanded (Tree.spliceAll h.isHelper trees) rules ∧
      List.Forall₂ h.RewrittenFrom (used.filter fun q => !h.isHelper q.left) rules := by
  induction hd generalizing expanded with
  | nil =>
    cases written
    exact ⟨[], .nil, .nil⟩
  | @word r a symbols trees used licence right _ ih =>
    rw [lexical] at licence
    have old : ∀ b ∈ r.left :: r.right, h.isHelper b = false := fun b hb =>
      from_s.fresh b (Store.mem_symbols licence.1 hb)
    have plain := old r.left List.mem_cons_self
    obtain ⟨rest, rfl, below⟩ := expands_cons plain written
    obtain ⟨rules, hrules, kept⟩ := ih below
    have itself : h.RewrittenFrom r r := ⟨rfl, rfl, .refl fun b hb marked => by
      obtain ⟨q, hq, rfl⟩ := List.mem_map.mp marked
      have helper := (mem_helperRules.mp hq).2
      rw [old q.left (List.mem_cons_of_mem _ hb)] at helper
      cases helper⟩
    refine ⟨r :: rules, ?_, ?_⟩
    · rw [Tree.spliceAll_cons_of_not_marked plain, Tree.spliceAll_leaf]
      exact .word licence right hrules
    · rw [List.filter_cons_of_pos (by simp [plain])]
      exact .cons itself kept
  | @node r children below symbols trees used licence hright _ ihRight ih =>
    cases marked : h.isHelper r.left with
    | false =>
      obtain ⟨rest, rfl, later⟩ := expands_cons marked written
      obtain ⟨rules, hrules, kept⟩ := ih later
      obtain ⟨q, hq, rewritten⟩ := from_s.origin r licence.1 marked
      obtain ⟨inside, hinside, keptIn⟩ := ihRight rewritten.right
      have two : 2 ≤ q.right.length := by
        refine Nat.le_trans licence.2 (rewritten.right.length_le fun p hp bare => ?_)
        have length := (from_s.minted p hp).1
        rw [bare] at length
        cases length
      refine ⟨q :: (inside ++ rules), ?_, ?_⟩
      · rw [Tree.spliceAll_cons_of_not_marked marked, rewritten.left]
        exact .node ⟨hq, two⟩ hinside hrules
      · rw [List.filter_cons_of_pos (by simp [marked]), List.filter_append]
        exact .cons rewritten (List.rel_append keptIn kept)
    -- the node of a helper: its children take its place
    | true =>
      have helper := mem_helperRules.mpr ⟨licence.1, marked⟩
      have some_child : children ≠ [] := hright.ne_nil fun bare => by
        have two := licence.2
        rw [bare] at two
        cases two
      rcases written.cons_cases with ⟨old, -⟩ | ⟨q, hq, left, inner, rest, rfl, hinner, later⟩
      · exact absurd (List.mem_map_of_mem helper) old
      obtain rfl := from_s.single q hq r helper left
      obtain ⟨rules, hrules, kept⟩ := ih later
      obtain ⟨inside, hinside, keptIn⟩ := ihRight hinner
      refine ⟨inside ++ rules, ?_, ?_⟩
      · rw [Tree.spliceAll_cons_of_marked marked some_child]
        exact hinside.append hrules
      · rw [List.filter_cons_of_neg (by simp [marked]), List.filter_append]
        exact List.rel_append keptIn kept

end SplitFrom

end Grammar

end Constituency
