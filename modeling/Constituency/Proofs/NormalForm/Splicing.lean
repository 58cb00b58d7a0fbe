import Constituency.Proofs.NormalForm.Splitting

/-!
# Splitting and splicing

After long rules are split, every derivation from symbols that are no helpers
comes from exactly one derivation afterwards, by splicing the helpers out, and
the product of the weights is the same. `Refines` states this; it holds of one
step and of several steps in a row, where the helpers of all steps are spliced
out together.
-/

namespace Constituency

namespace Symbol

/-- Whether a symbol is the given one. -/
def is (new a : Symbol) : Bool :=
  a == new

/-- A symbol is itself. -/
theorem is_self (new : Symbol) : is new new = true :=
  beq_self_eq_true new

/-- A symbol is no other one. -/
theorem is_of_ne {new a : Symbol} (h : a ≠ new) : is new a = false :=
  beq_false_of_ne h

/-- A symbol that is not the given one differs from it. -/
theorem ne_of_is {new a : Symbol} (h : is new a = false) : a ≠ new :=
  ne_of_beq_false h

end Symbol

namespace Derives

variable {W : Type} {lexical inner : Rule W → Prop}

/-- How a derivation of a symbol and more begins. -/
theorem cons_cases {x : Symbol} {symbols : List Symbol} {trees : List (Tree Symbol)}
    {used : List (Rule W)} (h : Derives lexical inner (x :: symbols) trees used) :
    (∃ r a rest more, lexical r ∧ r.left = x ∧ r.right = [a] ∧ trees = .node x [.leaf a] :: rest ∧
        Derives lexical inner symbols rest more) ∨
      ∃ r children below rest more, inner r ∧ r.left = x ∧
        Derives lexical inner r.right children below ∧ trees = .node x children :: rest ∧
        Derives lexical inner symbols rest more := by
  cases h with
  | word licence right rest => exact Or.inl ⟨_, _, _, _, licence, rfl, right, rfl, rest⟩
  | node licence right rest => exact Or.inr ⟨_, _, _, _, _, licence, rfl, right, rfl, rest⟩

end Derives

namespace Store

variable {W M : Type} [Monoid M]

/-- Derivations by two stores correspond by splicing new symbols out, from symbols that are not
new. -/
structure Refines (s t : Store W) (value : W → M) (new : Symbol → Bool) : Prop where
  /-- Splicing gives a derivation by the first store. -/
  splice : ∀ {symbols trees used}, (∀ a ∈ symbols, new a = false) →
    Derives t.Lexical t.Branching symbols trees used →
    ∃ rules, Derives s.Lexical s.Branching symbols (Tree.spliceAll new trees) rules ∧
      Rule.product value rules = Rule.product value used
  /-- Every derivation by the first store is given. -/
  unsplice : ∀ {symbols trees used}, (∀ a ∈ symbols, new a = false) →
    Derives s.Lexical s.Branching symbols trees used →
    ∃ before rules, Derives t.Lexical t.Branching symbols before rules ∧
      Tree.spliceAll new before = trees ∧ Rule.product value rules = Rule.product value used
  /-- No derivation is given twice. -/
  unique : ∀ {symbols trees others used more}, (∀ a ∈ symbols, new a = false) →
    Derives t.Lexical t.Branching symbols trees used →
    Derives t.Lexical t.Branching symbols others more →
    Tree.spliceAll new trees = Tree.spliceAll new others → trees = others

variable {value : W → M} {s t m : Store W}

/-- A store refines itself without new symbols. -/
theorem Refines.refl (s : Store W) (value : W → M) : s.Refines s value fun _ => false where
  splice _ h := ⟨_, by rw [Tree.spliceAll_false]; exact h, rfl⟩
  unsplice _ h := ⟨_, _, h, Tree.spliceAll_false _, rfl⟩
  unique _ _ _ h := by rwa [Tree.spliceAll_false, Tree.spliceAll_false] at h

/-- Refinements in a row are one for the new symbols of both. -/
theorem Refines.trans {first second : Symbol → Bool} (h : s.Refines m value first)
    (k : m.Refines t value second) : s.Refines t value fun a => first a || second a := by
  have apart : ∀ {symbols : List Symbol}, (∀ a ∈ symbols, (first a || second a) = false) →
      (∀ a ∈ symbols, first a = false) ∧ ∀ a ∈ symbols, second a = false := fun hnew =>
    ⟨fun a ha => (Bool.or_eq_false_iff.mp (hnew a ha)).1,
      fun a ha => (Bool.or_eq_false_iff.mp (hnew a ha)).2⟩
  constructor
  · intro symbols trees used hnew hd
    obtain ⟨notFirst, notSecond⟩ := apart hnew
    obtain ⟨middle, hmiddle, productM⟩ := k.splice notSecond hd
    obtain ⟨rules, hrules, product⟩ := h.splice notFirst hmiddle
    exact ⟨rules, by rwa [Tree.spliceAll_spliceAll] at hrules, product.trans productM⟩
  · intro symbols trees used hnew hd
    obtain ⟨notFirst, notSecond⟩ := apart hnew
    obtain ⟨middle, rulesM, hmiddle, splicedM, productM⟩ := h.unsplice notFirst hd
    obtain ⟨before, rules, hbefore, spliced, product⟩ := k.unsplice notSecond hmiddle
    refine ⟨before, rules, hbefore, ?_, product.trans productM⟩
    rw [← Tree.spliceAll_spliceAll, spliced, splicedM]
  · intro symbols trees others used more hnew hd ho same
    obtain ⟨notFirst, notSecond⟩ := apart hnew
    obtain ⟨_, hmiddle, -⟩ := k.splice notSecond hd
    obtain ⟨_, hmiddle', -⟩ := k.splice notSecond ho
    rw [← Tree.spliceAll_spliceAll, ← Tree.spliceAll_spliceAll] at same
    exact k.unique notSecond hd ho (h.unique notFirst hmiddle hmiddle' same)

/-! ## One step -/

section Step

variable {first second new : Symbol}

/-- What a step needs: the rules are listed, apart in their sides and fit, and the helper is new
while the pair is not. -/
structure Splittable (s : Store W) (first second new : Symbol) : Prop where
  /-- Both lists name the rules. -/
  listed : s.Listed
  /-- The rules are apart in their sides. -/
  apart : s.DistinctSides
  /-- Kinds fit. -/
  fits : ∀ r ∈ s.rules, r.Fits
  /-- The helper occurs in no rule. -/
  fresh : new ∉ s.symbols
  /-- The first symbol of the pair is not the helper. -/
  first_ne : first ≠ new
  /-- The second symbol of the pair is not the helper. -/
  second_ne : second ≠ new

namespace Splittable

/-- No rule before the step has the helper on its left side. -/
theorem left_ne (h : s.Splittable first second new) {r : Rule W} (hr : r ∈ s.rules) :
    r.left ≠ new := fun heq => h.fresh (mem_symbols hr (heq ▸ List.mem_cons_self))

/-- No rule before the step has the helper on its right side. -/
theorem not_mem_right (h : s.Splittable first second new) {r : Rule W} (hr : r ∈ s.rules) :
    new ∉ r.right := fun hmem => h.fresh (mem_symbols hr (List.mem_cons_of_mem _ hmem))

variable [Weight W]

/-- A rule for a word after the step was there before. -/
theorem lexical_before (h : s.Splittable first second new) {r : Rule W}
    (hr : (s.splitPair first second new).Lexical r) : s.Lexical r := by
  obtain ⟨stored, kind⟩ := hr
  rcases h.listed.mem_rules_splitPair.mp stored with rfl | ⟨q, hq, rfl⟩
  · cases kind
  · have same := mergeLong_eq_self_of_terminal kind
    rw [same] at kind ⊢
    exact ⟨hq, kind⟩

/-- A rule for a word is still there after the step. -/
theorem lexical_after (h : s.Splittable first second new) {r : Rule W} (hr : s.Lexical r) :
    (s.splitPair first second new).Lexical r := by
  refine ⟨h.listed.mem_rules_splitPair.mpr (Or.inr ⟨r, hr.1, ?_⟩), hr.2⟩
  rw [mergeLong_of_ne]
  rw [hr.2]
  exact RuleKind.noConfusion

/-- The rule of the helper branches. -/
theorem branching_helperRule (h : s.Splittable first second new) :
    (s.splitPair first second new).Branching (helperRule first second new) :=
  ⟨h.listed.mem_rules_splitPair.mpr (Or.inl rfl), Nat.le_refl 2⟩

/-- Splicing the helper out of a derivation after the step gives one before, with the pair written
for every helper among the symbols. -/
theorem derives_splice (h : s.Splittable first second new) (mult : Multiplicative value)
    {symbols : List Symbol} {trees : List (Tree Symbol)} {used : List (Rule W)}
    (hd : Derives (s.splitPair first second new).Lexical (s.splitPair first second new).Branching
      symbols trees used) :
    ∃ rules, Derives s.Lexical s.Branching (unmerge first second new symbols)
        (Tree.spliceAll (Symbol.is new) trees) rules ∧
      Rule.product value rules = Rule.product value used := by
  induction hd with
  | nil => exact ⟨[], .nil, rfl⟩
  | @word r a symbols trees used licence right _ ih =>
    obtain ⟨rules, hrules, product⟩ := ih
    have lexical := h.lexical_before licence
    have hne := h.left_ne lexical.1
    refine ⟨r :: rules, ?_, by rw [Rule.product_cons, product, Rule.product_cons]⟩
    rw [unmerge_cons_of_ne hne, Tree.spliceAll_cons_of_not_marked (Symbol.is_of_ne hne),
      Tree.spliceAll_leaf]
    exact .word lexical right hrules
  | @node r children below symbols trees used licence hright _ ihRight ih =>
    obtain ⟨rules, hrules, product⟩ := ih
    obtain ⟨inside, hinside, productIn⟩ := ihRight
    rcases h.listed.mem_rules_splitPair.mp licence.1 with rfl | ⟨q, hq, rfl⟩
    -- the node of a helper: its children take its place
    · have pair : unmerge first second new [first, second] = [first, second] :=
        unmerge_of_not_mem (by simp [h.first_ne.symm, h.second_ne.symm])
      have some_child : children ≠ [] := hright.ne_nil (List.cons_ne_nil first [second])
      rw [show (helperRule (W := W) first second new).right = [first, second] from rfl, pair]
        at hinside
      refine ⟨inside ++ rules, ?_, ?_⟩
      · rw [show (helperRule (W := W) first second new).left = new from rfl, unmerge_cons_new,
          Tree.spliceAll_cons_of_marked (Symbol.is_self new) some_child]
        exact hinside.append hrules
      · rw [Rule.product_cons, Rule.product_append, Rule.product_append, productIn, product,
          show (helperRule (W := W) first second new).weight = Weight.neutral from rfl,
          mult.neutral, one_mul]
    · have hne : (mergeLong first second new q).left ≠ new := by
        rw [left_mergeLong]
        exact h.left_ne hq
      have two := Nat.le_trans licence.2 (length_mergeLong_le first second new q)
      rw [unmerge_mergeLong (h.not_mem_right hq)] at hinside
      refine ⟨q :: (inside ++ rules), ?_, ?_⟩
      · rw [unmerge_cons_of_ne hne, Tree.spliceAll_cons_of_not_marked (Symbol.is_of_ne hne),
          left_mergeLong]
        exact .node ⟨hq, two⟩ hinside hrules
      · rw [Rule.product_cons, Rule.product_append, productIn, product, Rule.product_cons,
          Rule.product_append, weight_mergeLong]

/-- What the right side of a rule derives after the step, the right side with the pair replaced
derives too, up to splicing: the trees of the pair come under a node of the helper. -/
theorem exists_derives_mergeLong (h : s.Splittable first second new) (mult : Multiplicative value)
    (q : Rule W) {trees : List (Tree Symbol)} {used : List (Rule W)}
    (hd : Derives (s.splitPair first second new).Lexical (s.splitPair first second new).Branching
      q.right trees used) :
    ∃ merged rules,
      Derives (s.splitPair first second new).Lexical (s.splitPair first second new).Branching
        (mergeLong first second new q).right merged rules ∧
      Tree.spliceAll (Symbol.is new) merged = Tree.spliceAll (Symbol.is new) trees ∧
      Rule.product value rules = Rule.product value used := by
  rcases mergeLong_cases first second new q with same | ⟨-, front, back, hright, same⟩
  · rw [same]
    exact ⟨trees, used, hd, rfl, rfl⟩
  · rw [hright] at hd
    obtain ⟨treesF, treesR, usedF, usedR, rfl, rfl, hfront, hrest⟩ := hd.split
    obtain ⟨treesP, treesB, usedP, usedB, rfl, rfl, hpair, hback⟩ :=
      Derives.split (show Derives _ _ ([first, second] ++ back) treesR usedR from hrest)
    have some_child : treesP ≠ [] := hpair.ne_nil (List.cons_ne_nil first [second])
    have neutral : value (helperRule (W := W) first second new).weight = 1 := mult.neutral
    refine ⟨treesF ++ .node new treesP :: treesB,
      usedF ++ helperRule first second new :: (usedP ++ usedB), ?_, ?_, ?_⟩
    · rw [same]
      exact hfront.append (.node h.branching_helperRule hpair hback)
    · rw [Tree.spliceAll_append, Tree.spliceAll_cons_of_marked (Symbol.is_self new) some_child,
        Tree.spliceAll_append, Tree.spliceAll_append]
    · rw [Rule.product_append, Rule.product_cons, neutral, one_mul, Rule.product_append,
        Rule.product_append, Rule.product_append]

/-- Every derivation before the step from other symbols than the helper is spliced from one
afterwards. -/
theorem derives_unsplice (h : s.Splittable first second new) (mult : Multiplicative value)
    {symbols : List Symbol} {trees : List (Tree Symbol)} {used : List (Rule W)}
    (hnew : new ∉ symbols) (hd : Derives s.Lexical s.Branching symbols trees used) :
    ∃ before rules,
      Derives (s.splitPair first second new).Lexical (s.splitPair first second new).Branching
        symbols before rules ∧
      Tree.spliceAll (Symbol.is new) before = trees ∧
      Rule.product value rules = Rule.product value used := by
  induction hd with
  | nil => exact ⟨[], [], .nil, rfl, rfl⟩
  | @word r a symbols trees used licence right _ ih =>
    rw [List.mem_cons, not_or] at hnew
    obtain ⟨before, rules, hbefore, spliced, product⟩ := ih hnew.2
    refine ⟨_, _, .word (h.lexical_after licence) right hbefore, ?_, ?_⟩
    · rw [Tree.spliceAll_cons_of_not_marked (Symbol.is_of_ne (Ne.symm hnew.1)),
        Tree.spliceAll_leaf, spliced]
    · rw [Rule.product_cons, product, Rule.product_cons]
  | @node q children below symbols trees used licence _ _ ihRight ih =>
    rw [List.mem_cons, not_or] at hnew
    obtain ⟨before, rules, hbefore, spliced, product⟩ := ih hnew.2
    obtain ⟨inside, rulesIn, hinside, splicedIn, productIn⟩ :=
      ihRight (h.not_mem_right licence.1)
    obtain ⟨merged, rulesM, hmerged, splicedM, productM⟩ :=
      h.exists_derives_mergeLong mult q hinside
    have unmarked := Symbol.is_of_ne (Ne.symm hnew.1)
    have branching : (s.splitPair first second new).Branching (mergeLong first second new q) :=
      ⟨h.listed.mem_rules_splitPair.mpr (Or.inr ⟨q, licence.1, rfl⟩),
        two_le_length_mergeLong (h.fits q licence.1) licence.2⟩
    have node := Derives.node branching hmerged hbefore
    rw [left_mergeLong] at node
    refine ⟨_, _, node, ?_, ?_⟩
    · rw [Tree.spliceAll_cons_of_not_marked unmarked, splicedM, splicedIn, spliced]
    · rw [Rule.product_cons, Rule.product_append, productM, productIn, product, weight_mergeLong,
        Rule.product_cons, Rule.product_append]

/-- Splicing the helper out of a derivation leaves no leaf on its own. -/
theorem spliceAll_ne_leaf (h : s.Splittable first second new) (mult : Multiplicative value)
    {symbols : List Symbol} {trees : List (Tree Symbol)} {used : List (Rule W)}
    (hd : Derives (s.splitPair first second new).Lexical (s.splitPair first second new).Branching
      symbols trees used) (a : Symbol) : Tree.spliceAll (Symbol.is new) trees ≠ [.leaf a] := by
  intro alone
  obtain ⟨rules, hrules, -⟩ := h.derives_splice mult hd
  have inner := hrules.not_isLeaf (fun r hr => (h.fits r hr.1).filled) (.leaf a)
    (alone ▸ List.mem_singleton_self _)
  cases inner

/-- A rule after the step with the left symbol of the helper is that of the helper. -/
theorem eq_helperRule (h : s.Splittable first second new) {r : Rule W}
    (hr : r ∈ (s.splitPair first second new).rules) (left : r.left = new) :
    r = helperRule first second new := by
  rcases h.listed.mem_rules_splitPair.mp hr with rfl | ⟨q, hq, rfl⟩
  · rfl
  · rw [left_mergeLong] at left
    exact absurd left (h.left_ne hq)

/-- Two rules after the step are equal when their left symbols are, and their right sides with the
pair written for the helper. -/
theorem eq_of_unmerge (h : s.Splittable first second new) {r q : Rule W}
    (hr : r ∈ (s.splitPair first second new).rules)
    (hq : q ∈ (s.splitPair first second new).rules) (left : r.left = q.left)
    (right : unmerge first second new r.right = unmerge first second new q.right) : r = q := by
  by_cases there : r.left = new
  · rw [h.eq_helperRule hr there, h.eq_helperRule hq (left.symm.trans there)]
  · rcases h.listed.mem_rules_splitPair.mp hr with rfl | ⟨a, ha, rfl⟩
    · exact absurd rfl there
    · rcases h.listed.mem_rules_splitPair.mp hq with rfl | ⟨b, hb, rfl⟩
      · exact absurd left there
      · rw [left_mergeLong, left_mergeLong] at left
        rw [unmerge_mergeLong (h.not_mem_right ha), unmerge_mergeLong (h.not_mem_right hb)]
          at right
        obtain ⟨i, hi⟩ := h.listed.mem_rules.mp ha
        obtain ⟨j, hj⟩ := h.listed.mem_rules.mp hb
        rw [h.apart.eq hi hj ⟨left, right⟩]

/-- What is spliced from a derivation after the step tells the derivation. -/
theorem splice_unique (h : s.Splittable first second new) (mult : Multiplicative value)
    {symbols : List Symbol} {trees others : List (Tree Symbol)} {used more : List (Rule W)}
    (hd : Derives (s.splitPair first second new).Lexical (s.splitPair first second new).Branching
      symbols trees used)
    (ho : Derives (s.splitPair first second new).Lexical (s.splitPair first second new).Branching
      symbols others more)
    (same : Tree.spliceAll (Symbol.is new) trees = Tree.spliceAll (Symbol.is new) others) :
    trees = others := by
  induction hd generalizing others more with
  | nil =>
    cases ho
    rfl
  | @word r a symbols trees used licence right _ ih =>
    have unmarked := Symbol.is_of_ne (h.left_ne (h.lexical_before licence).1)
    rw [Tree.spliceAll_cons_of_not_marked unmarked, Tree.spliceAll_leaf] at same
    rcases ho.cons_cases with ⟨q, b, rest, more', -, -, -, rfl, hrest⟩ |
      ⟨q, children, below, rest, more', -, -, hright, rfl, hrest⟩
    · rw [Tree.spliceAll_cons_of_not_marked unmarked, Tree.spliceAll_leaf] at same
      obtain ⟨head, tail⟩ := List.cons.inj same
      rw [head, ih hrest tail]
    · rw [Tree.spliceAll_cons_of_not_marked unmarked] at same
      have alone := (Tree.node.inj (List.cons.inj same).1).2
      exact absurd alone.symm (h.spliceAll_ne_leaf mult hright a)
  | @node r children below symbols trees used licence hright _ ihRight ih =>
    rcases ho.cons_cases with ⟨q, b, rest, more', licenceQ, left, -, rfl, hrest⟩ |
      ⟨q, children', below', rest, more', licenceQ, left, hright', rfl, hrest⟩
    · have unmarked := Symbol.is_of_ne (left ▸ h.left_ne (h.lexical_before licenceQ).1)
      rw [Tree.spliceAll_cons_of_not_marked unmarked, Tree.spliceAll_cons_of_not_marked unmarked,
        Tree.spliceAll_leaf] at same
      have alone := (Tree.node.inj (List.cons.inj same).1).2
      exact absurd alone (h.spliceAll_ne_leaf mult hright b)
    · obtain ⟨rules, hrules, -⟩ := h.derives_splice mult hright
      obtain ⟨rules', hrules', -⟩ := h.derives_splice mult hright'
      by_cases there : r.left = new
      -- two nodes of the helper: both pairs of trees take two places
      · have hr := h.eq_helperRule licence.1 there
        have hq := h.eq_helperRule licenceQ.1 (left.trans there)
        subst hr hq
        have marked := Symbol.is_self new
        have pair : [first, second] ≠ [] := List.cons_ne_nil first [second]
        rw [show (helperRule (W := W) first second new).left = new from rfl,
          Tree.spliceAll_cons_of_marked marked (hright.ne_nil pair),
          Tree.spliceAll_cons_of_marked marked (hright'.ne_nil pair)] at same
        have lengths := hrules.length_eq.trans hrules'.length_eq.symm
        obtain ⟨head, tail⟩ := List.append_inj same lengths
        rw [ihRight hright' head, ih hrest tail]
      · have unmarked := Symbol.is_of_ne there
        rw [Tree.spliceAll_cons_of_not_marked unmarked,
          Tree.spliceAll_cons_of_not_marked unmarked] at same
        obtain ⟨head, tail⟩ := List.cons.inj same
        have below_eq := (Tree.node.inj head).2
        have right : unmerge first second new r.right = unmerge first second new q.right := by
          rw [← hrules.labels, ← hrules'.labels, below_eq]
        have hrq := h.eq_of_unmerge licence.1 licenceQ.1 left.symm right
        subst hrq
        rw [ihRight hright' below_eq, ih hrest tail]

/-- One step of splitting refines the store. -/
theorem refines (h : s.Splittable first second new) (mult : Multiplicative value) :
    s.Refines (s.splitPair first second new) value (Symbol.is new) := by
  have absent : ∀ {symbols : List Symbol}, (∀ a ∈ symbols, Symbol.is new a = false) →
      new ∉ symbols := fun hnew hmem => Symbol.ne_of_is (hnew new hmem) rfl
  constructor
  · intro symbols trees used hnew hd
    obtain ⟨rules, hrules, product⟩ := h.derives_splice mult hd
    rw [unmerge_of_not_mem (absent hnew)] at hrules
    exact ⟨rules, hrules, product⟩
  · intro symbols trees used hnew hd
    exact h.derives_unsplice mult (absent hnew) hd
  · intro symbols trees others used more _ hd ho same
    exact h.splice_unique mult hd ho same

end Splittable

end Step

end Store

end Constituency
