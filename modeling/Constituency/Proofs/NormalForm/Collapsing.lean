import Constituency.Proofs.Derivation.Basic
import Constituency.Proofs.NormalForm.UnitClosure
import Mathlib.Algebra.BigOperators.Group.List.Basic

/-!
# Unit elimination collapses derivations

With the unit closure of its rules a grammar derives exactly the collapsed trees
of its derivations. From left to right a derivation is collapsed rule by rule;
from right to left every rule is unfolded along a chain of unit rules again, and
along the chain that the rule has its weight from the product of the weights is
the same.
-/

namespace Constituency

/-- The product of the values of the weights of rules. -/
def Rule.product {W M : Type} [Monoid M] (value : W → M) (used : List (Rule W)) : M :=
  (used.map fun r => value r.weight).prod

namespace Rule

variable {W M : Type} [Monoid M] {value : W → M}

/-- No rules have product one. -/
theorem product_nil : product value ([] : List (Rule W)) = 1 :=
  rfl

/-- The value of the first rule is a factor. -/
theorem product_cons (r : Rule W) (used : List (Rule W)) :
    product value (r :: used) = value r.weight * product value used := by
  rw [product, List.map_cons, List.prod_cons, product]

/-- The rules of two lists have the product of both. -/
theorem product_append (used more : List (Rule W)) :
    product value (used ++ more) = product value used * product value more := by
  rw [product, List.map_append, List.prod_append, product, product]

end Rule

namespace Store

variable {W M : Type} [Monoid M] {value : W → M} {s t : Store W} {heads : Symbol → Bool}

/-- A derivation by the rule that a symbol unfolds into becomes one of the symbol, which collapses
to the same children; the unit rules along the way are used besides. -/
theorem Unfolds.exists_derivation {a : Symbol} {r : Rule W} {m : M}
    (h : s.Unfolds value a r m) {d : Tree Symbol} {below : List (Rule W)}
    (hd : Derives s.Lexical s.Phrasal [r.left] [d] (r :: below)) (inner : d.isLeaf = false) :
    ∃ e used, Derives s.Lexical s.Phrasal [a] [e] used ∧ e.isLeaf = false ∧
      e.collapse = .node a d.collapse.children ∧
      Rule.product value used = m * Rule.product value below := by
  induction h with
  | @rule r stored other =>
    have label : d.label = r.left := (List.cons.inj hd.labels).1
    refine ⟨d, r :: below, hd, inner, ?_, Rule.product_cons r below⟩
    rw [← label, ← Tree.label_collapse, Tree.node_label_children]
  | @unit u r b m stored kind right _ ih =>
    obtain ⟨e, used, he, innerE, collapsed, product⟩ := ih hd
    have phrasal : s.Phrasal u := ⟨stored, by rw [kind]; exact RuleKind.noConfusion⟩
    refine ⟨.node u.left [e], u :: used, .single_node phrasal (right ▸ he), rfl, ?_, ?_⟩
    · rw [Tree.collapse_single u.left innerE, collapsed]
      rfl
    · rw [Rule.product_cons, product, mul_assoc]

/-- A derivation by the unit closure is a collapsed derivation by the rules before, with the same
product. -/
theorem UnitClosed.exists_derivation (h : s.UnitClosed t value) (classified : t.Classified heads)
    {symbols : List Symbol} {trees : List (Tree Symbol)} {used : List (Rule W)}
    (hd : Derives t.Lexical t.Branching symbols trees used) :
    ∃ before rules, Derives s.Lexical s.Phrasal symbols before rules ∧
      before.map Tree.collapse = trees ∧ Rule.product value rules = Rule.product value used := by
  induction hd with
  | nil => exact ⟨[], [], .nil, rfl, rfl⟩
  | @word r a symbols trees used licence right _ ih =>
    obtain ⟨before, rules, hbefore, collapsed, product⟩ := ih
    have other : r.kind ≠ .unit := by rw [licence.2]; exact RuleKind.noConfusion
    obtain ⟨q, hq, rightQ, kindQ⟩ := h.before r licence.1 other
    have lexical : s.Lexical q := ⟨hq.target.1, kindQ.trans licence.2⟩
    obtain ⟨e, used', he, -, collapsedE, productE⟩ :=
      hq.exists_derivation (.single_word lexical (rightQ.trans right)) rfl
    refine ⟨e :: before, used' ++ rules, he.append hbefore, ?_, ?_⟩
    · rw [List.map_cons, collapsedE, collapsed]
      rfl
    · rw [Rule.product_append, productE, Rule.product_nil, mul_one, product, Rule.product_cons]
  | @node r children below symbols trees used licence hright _ ihRight ih =>
    obtain ⟨before, rules, hbefore, collapsed, product⟩ := ih
    obtain ⟨inside, rulesIn, hinside, collapsedIn, productIn⟩ := ihRight
    obtain ⟨notWord, other⟩ : Rule.kindAmong heads r.right ≠ .terminal ∧
        Rule.kindAmong heads r.right ≠ .unit := Rule.kindAmong_of_two_le licence.2
    rw [← classified r licence.1] at notWord other
    obtain ⟨q, hq, rightQ, kindQ⟩ := h.before r licence.1 other
    have phrasal : s.Phrasal q := ⟨hq.target.1, kindQ ▸ notWord⟩
    have two : 2 ≤ inside.length := by
      rw [hinside.length_eq]
      exact licence.2
    have some_child : inside ≠ [] := List.length_pos_iff.mp (by omega)
    obtain ⟨e, used', he, -, collapsedE, productE⟩ :=
      hq.exists_derivation (.single_node phrasal (rightQ ▸ hinside))
        (Tree.isLeaf_node q.left some_child)
    refine ⟨e :: before, used' ++ rules, he.append hbefore, ?_, ?_⟩
    · rw [List.map_cons, collapsedE, collapsed, Tree.collapse_of_two_le q.left two, collapsedIn]
      rfl
    · rw [Rule.product_append, productE, product, Rule.product_cons, Rule.product_append,
        productIn, mul_assoc]

/-- A comparison of values that multiplication respects. -/
structure Comparison (le : M → M → Prop) : Prop where
  /-- The empty product compares with itself. -/
  one : le 1 1
  /-- Products of what compares compare. -/
  mul {a b c d : M} (first : le a b) (second : le c d) : le (a * c) (b * d)
  /-- What compares with something that compares with a third value compares with that value. -/
  trans {a b c : M} (first : le a b) (second : le b c) : le a c

/-- Anything compares when nothing is asked for. -/
theorem comparison_trivial : Comparison fun _ _ : M => True :=
  ⟨trivial, fun _ _ => trivial, fun _ _ => trivial⟩

/-- The value of each chain of unit rules compares with that of a rule for its ends. -/
structure Dominates (s t : Store W) (value : W → M) (le : M → M → Prop) : Prop where
  /-- The values of the rules before compare with themselves. -/
  self : ∀ r ∈ s.rules, le (value r.weight) (value r.weight)
  /-- Each chain has a rule for its ends that it compares with. -/
  chain : ∀ a r m, s.Unfolds value a r m →
    ∃ q ∈ t.rules, q.left = a ∧ q.right = r.right ∧ q.kind = r.kind ∧ le m (value q.weight)

/-- Without a comparison the unit closure is all that is asked for. -/
theorem UnitClosed.dominates (h : s.UnitClosed t value) :
    s.Dominates t value fun _ _ => True := by
  refine ⟨fun _ _ => trivial, fun a r m hr => ?_⟩
  obtain ⟨q, stored, left, right, kind⟩ := h.after a r m hr
  exact ⟨q, stored, left, right, kind, trivial⟩

section Comparing

variable {le : M → M → Prop}

/-- The products of derivations by the unit closure compare with themselves. -/
theorem Dominates.product_self (h : s.Dominates t value le) (cmp : Comparison le)
    (closed : s.UnitClosed t value) (classified : t.Classified heads) {used : List (Rule W)}
    (licensed : ∀ r ∈ used, t.Lexical r ∨ t.Branching r) :
    le (Rule.product value used) (Rule.product value used) := by
  induction used with
  | nil => exact cmp.one
  | cons r used ih =>
    have other : r ∈ t.rules ∧ r.kind ≠ .unit := by
      rcases licensed r List.mem_cons_self with word | branching
      · exact ⟨word.1, by rw [word.2]; exact RuleKind.noConfusion⟩
      · exact ⟨branching.1, classified r branching.1 ▸ (Rule.kindAmong_of_two_le branching.2).2⟩
    obtain ⟨q, unfolds, -, -⟩ := closed.before r other.1 other.2
    rw [Rule.product_cons]
    exact cmp.mul (unfolds.admits_value (fun m => le m m) h.self cmp.mul)
      (ih fun q hq => licensed q (List.mem_cons_of_mem r hq))

/-- What the right symbol of a unit rule has a rule for in the unit closure, the left symbol has a
rule for, and the values of both rules together compare with its value. -/
theorem Dominates.exists_rule (h : s.Dominates t value le) (closed : s.UnitClosed t value)
    {u q : Rule W} (hu : u ∈ s.rules) (kind : u.kind = .unit) (right : u.right = [q.left])
    (hq : q ∈ t.rules) (other : q.kind ≠ .unit) :
    ∃ p ∈ t.rules, p.left = u.left ∧ p.right = q.right ∧ p.kind = q.kind ∧
      le (value u.weight * value q.weight) (value p.weight) := by
  obtain ⟨o, ho, rightO, kindO⟩ := closed.before q hq other
  obtain ⟨p, hp, leftP, rightP, kindP, leP⟩ := h.chain u.left o _ (.unit hu kind right ho)
  exact ⟨p, hp, leftP, rightP.trans rightO, kindP.trans kindO, leP⟩

/-- A unit rule before a derivation of its right symbol by the unit closure gives one of its left
symbol with the same children: the rule at the top gives way to one for both. -/
theorem Dominates.derives_unit (h : s.Dominates t value le) (cmp : Comparison le)
    (closed : s.UnitClosed t value) (classified : t.Classified heads) {u : Rule W} {b : Symbol}
    (hu : u ∈ s.rules) (kind : u.kind = .unit) (right : u.right = [b]) {e : Tree Symbol}
    {inside : List (Rule W)} (hd : Derives t.Lexical t.Branching [b] [e] inside) {m : M}
    (below : le m (Rule.product value inside)) :
    ∃ rules, Derives t.Lexical t.Branching [u.left] [.node u.left e.children] rules ∧
      le (value u.weight * m) (Rule.product value rules) := by
  have replaced : ∀ {p q : Rule W} {more : List (Rule W)}, le m (Rule.product value (q :: more)) →
      le (Rule.product value more) (Rule.product value more) →
      le (value u.weight * value q.weight) (value p.weight) →
      le (value u.weight * m) (Rule.product value (p :: more)) := by
    intro p q more belowQ selfMore leP
    rw [Rule.product_cons] at belowQ ⊢
    have first := cmp.mul (h.self u hu) belowQ
    have second := cmp.mul leP selfMore
    rw [mul_assoc] at second
    exact cmp.trans first second
  cases hd with
  | @word q a _ _ more licence rightQ rest =>
    cases rest
    have other : q.kind ≠ .unit := by rw [licence.2]; exact RuleKind.noConfusion
    obtain ⟨p, hp, leftP, rightP, kindP, leP⟩ := h.exists_rule closed hu kind right licence.1 other
    refine ⟨[p], ?_, replaced below cmp.one leP⟩
    rw [← leftP]
    exact .single_word ⟨hp, kindP.trans licence.2⟩ (rightP.trans rightQ)
  | @node q children used _ _ more licence hright rest =>
    cases rest
    have other : q.kind ≠ .unit := by
      rw [classified q licence.1]
      exact (Rule.kindAmong_of_two_le licence.2).2
    obtain ⟨p, hp, leftP, rightP, kindP, leP⟩ := h.exists_rule closed hu kind right licence.1 other
    have selfQ := h.product_self cmp closed classified hright.licensed
    rw [List.append_nil] at below
    refine ⟨p :: used, ?_, replaced below selfQ leP⟩
    rw [← leftP]
    exact .single_node ⟨hp, rightP ▸ licence.2⟩ (rightP ▸ hright)

/-- Collapsing a derivation gives one by the unit closure, and the products compare. -/
theorem Dominates.derives_collapse (h : s.Dominates t value le) (cmp : Comparison le)
    (closed : s.UnitClosed t value) (classified : s.Classified heads)
    (classifiedT : t.Classified heads) (filled : s.Filled) {symbols : List Symbol}
    {trees : List (Tree Symbol)} {used : List (Rule W)}
    (hd : Derives s.Lexical s.Phrasal symbols trees used) :
    ∃ rules, Derives t.Lexical t.Branching symbols (trees.map Tree.collapse) rules ∧
      le (Rule.product value used) (Rule.product value rules) := by
  induction hd with
  | nil => exact ⟨[], .nil, cmp.one⟩
  | @word r a symbols trees used licence right _ ih =>
    obtain ⟨rules, hrules, product⟩ := ih
    have other : r.kind ≠ .unit := by rw [licence.2]; exact RuleKind.noConfusion
    obtain ⟨q, hq, leftQ, rightQ, kindQ, leQ⟩ := h.chain r.left r _ (.rule licence.1 other)
    refine ⟨q :: rules, ?_, ?_⟩
    · rw [List.map_cons, ← leftQ]
      exact .word ⟨hq, kindQ.trans licence.2⟩ (rightQ.trans right) hrules
    · rw [Rule.product_cons, Rule.product_cons]
      exact cmp.mul leQ product
  | @node r children below symbols trees used licence hright _ ihRight ih =>
    obtain ⟨rules, hrules, product⟩ := ih
    obtain ⟨inside, hinside, productIn⟩ := ihRight
    by_cases unit : r.kind = .unit
    -- a unit node takes over the children of the collapsed tree below it
    · obtain ⟨b, right⟩ := Rule.exists_of_kindAmong_unit ((classified r licence.1).symm.trans unit)
      rw [right] at hright hinside
      obtain ⟨c, rfl⟩ := List.length_eq_one_iff.mp hright.length_eq
      have innerC : c.isLeaf = false :=
        hright.not_isLeaf (fun q hq => filled q hq.1) c (List.mem_singleton_self c)
      obtain ⟨above, habove, productAbove⟩ :=
        h.derives_unit cmp closed classifiedT licence.1 unit right hinside productIn
      refine ⟨above ++ rules, ?_, ?_⟩
      · rw [List.map_cons, Tree.collapse_single r.left innerC]
        exact habove.append hrules
      · rw [Rule.product_cons, Rule.product_append, Rule.product_append, ← mul_assoc]
        exact cmp.mul productAbove product
    · have two := Rule.two_le_length_of_kindAmong (classified r licence.1 ▸ licence.2)
        (classified r licence.1 ▸ unit)
      obtain ⟨q, hq, leftQ, rightQ, kindQ, leQ⟩ := h.chain r.left r _ (.rule licence.1 unit)
      refine ⟨q :: (inside ++ rules), ?_, ?_⟩
      · rw [List.map_cons, Tree.collapse_of_two_le r.left (by rw [hright.length_eq]; exact two),
          ← leftQ]
        exact .node ⟨hq, rightQ ▸ two⟩ (rightQ ▸ hinside) hrules
      · rw [Rule.product_cons, Rule.product_append, Rule.product_cons, Rule.product_append]
        exact cmp.mul leQ (cmp.mul productIn product)

end Comparing

end Store

end Constituency
