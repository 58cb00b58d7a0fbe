import Constituency.Proofs.Tree.Relabelling
import Mathlib.Data.List.Nodup

/-!
# Tables as they are built

A table starts as a root alone or as the nodes of a tree, and is changed by adding
children, relabelling nodes, splicing helpers out, linking parents and restoring
words. A child may be added anywhere, also to a node that was spliced out or to
the number that it gets itself; the shape of the table then grows by one leaf or
not at all. So every table that is built is proper, which is all that a traversal
of it needs.
-/

namespace Constituency

namespace Tree

variable {α : Type} [DecidableEq α]

mutual

/-- Gives every node with a label a new last child. -/
def addLeaf (parent new : α) : Tree α → Tree α
  | .node a cs => .node a (addLeafAll parent new cs ++ if a = parent then [leaf new] else [])

/-- Gives every node with a label, in the trees of a list, a new last child. -/
def addLeafAll (parent new : α) : List (Tree α) → List (Tree α)
  | [] => []
  | c :: cs => c.addLeaf parent new :: addLeafAll parent new cs

end

/-- The companion of `addLeaf` changes the trees one by one. -/
theorem addLeafAll_eq_map (parent new : α) (cs : List (Tree α)) :
    addLeafAll parent new cs = cs.map (addLeaf parent new) := by
  induction cs with
  | nil => rfl
  | cons c cs ih => rw [addLeafAll, ih, List.map_cons]

mutual

/-- The new label occurs once more for each node that gets a child. -/
theorem count_labels_addLeaf (parent new a : α) (t : Tree α) :
    (t.addLeaf parent new).labels.count a =
      t.labels.count a + if a = new then t.labels.count parent else 0 := by
  cases t with
  | node b cs =>
    have below := count_labelsAll_addLeafAll parent new a cs
    have child : (labelsAll (if b = parent then [leaf new] else [])).count a =
        if b = parent ∧ new = a then 1 else 0 := by
      by_cases here : b = parent <;>
        simp [here, labelsAll, subtreesAll, subtrees, label, List.count_singleton]
    rw [addLeaf, labels_node, labels_node, labelsAll_append, List.count_cons, List.count_cons,
      List.count_cons, List.count_append, below, child]
    by_cases here : b = parent <;> by_cases added : new = a <;> grind

/-- The new label occurs once more for each node of a list of trees that gets a child. -/
theorem count_labelsAll_addLeafAll (parent new a : α) (cs : List (Tree α)) :
    (labelsAll (addLeafAll parent new cs)).count a =
      (labelsAll cs).count a + if a = new then (labelsAll cs).count parent else 0 := by
  cases cs with
  | nil => simp [addLeafAll, labelsAll, subtreesAll]
  | cons c cs =>
    rw [addLeafAll, labelsAll_cons, labelsAll_cons, List.count_append, List.count_append,
      List.count_append, count_labels_addLeaf parent new a c,
      count_labelsAll_addLeafAll parent new a cs]
    split <;> omega

end

end Tree

namespace NodeTable

/-- The tables that come from a root or a tree by the operations on tables. -/
inductive Built : NodeTable → Prop
  /-- A root alone. -/
  | singleton (s : Symbol) : Built (singleton s)
  /-- The nodes of a tree that was read, or of a candidate. -/
  | ofTree (u : Tree Symbol) : Built (ofTree u)
  /-- A child is added. -/
  | addChild {t u : NodeTable} (before : Built t) {parent i : Nat} {s : Symbol}
      (done : t.addChild parent s = .ok (u, i)) : Built u
  /-- A node gets a new label. -/
  | relabelNode {t u : NodeTable} (before : Built t) {i : Nat} {s : Symbol}
      (done : t.relabelNode i s = .ok u) : Built u
  /-- Helpers are spliced out. -/
  | spliceHelpers {t : NodeTable} (before : Built t) (isHelper : Symbol → Bool) :
      Built (t.spliceHelpers isHelper)
  /-- Parents are linked. -/
  | linkParents {t : NodeTable} (before : Built t) : Built t.linkParents
  /-- The words of a sentence are restored. -/
  | restoreWords {t : NodeTable} (before : Built t) (sentence : List String) :
      Built (t.restoreWords sentence)

/-! ## Adding a child -/

/-- A number that no node has lists no children. -/
theorem children_of_size_le {t : NodeTable} {i : Nat} (h : t.size ≤ i) : t.children i = [] := by
  rw [children, Array.getElem?_eq_none h]

section AddChild

variable {t u : NodeTable} {parent i : Nat} {s : Symbol} (done : t.addChild parent s = .ok (u, i))
include done

/-- Adding a child changes the children of its parent only. -/
theorem children_addChild (j : Nat) :
    u.children j = if j = parent then t.children j ++ [t.size] else t.children j := by
  rw [addChild] at done
  split at done
  · next inside =>
    cases done
    rw [children, getElem?_mapNodes, children]
    dsimp only
    rw [Array.getElem?_push]
    cases node : t.nodes[j]? with
    | some n =>
      have old : j < t.size := (Array.getElem?_eq_some_iff.mp node).1
      rw [if_neg (show ¬j = t.nodes.size from Nat.ne_of_lt old), Option.map_some]
      dsimp only
      split <;> rfl
    | none =>
      have none_old : t.size ≤ j := Array.getElem?_eq_none_iff.mp node
      by_cases last : j = t.nodes.size
      · rw [if_pos last, Option.map_some]
        dsimp only
        split <;> rfl
      · rw [if_neg last, Option.map_none, if_neg]
        have : j ≠ t.size := last
        omega
  · cases done

/-- The shape grows by a leaf wherever the parent stands. -/
theorem shapeFrom_addChild {j : Nat} (hj : j < t.size) :
    u.shapeFrom j = (t.shapeFrom j).addLeaf parent t.size := by
  have children := children_addChild done
  have new : u.shapeFrom t.size = Tree.leaf t.size := by
    have none_below : u.below t.size = [] := by
      rw [below, children, children_of_size_le (Nat.le_refl _)]
      split <;> simp
    rw [shapeFrom_eq, none_below, List.map_nil]
  have below : u.below j = t.below j ++ if j = parent then [t.size] else [] := by
    rw [NodeTable.below, children, NodeTable.below]
    split
    · rw [List.filter_append]
      simp [hj]
    · rw [List.append_nil]
  have inside : ∀ c ∈ t.below j, u.shapeFrom c = (t.shapeFrom c).addLeaf parent t.size :=
    fun c hc => shapeFrom_addChild (lt_of_mem_below hc).2
  rw [shapeFrom_eq, below, List.map_append, List.map_congr_left inside, shapeFrom_eq t,
    Tree.addLeaf, Tree.addLeafAll_eq_map, List.map_map]
  split
  · rw [List.map_singleton, new]
    rfl
  · rfl
termination_by t.size - j
decreasing_by have := lt_of_mem_below hc; omega

/-- The new node comes below the root as often as its parent was. -/
theorem count_preorder_addChild (j : Nat) :
    u.preorder.count j =
      t.preorder.count j + if j = t.size then t.preorder.count parent else 0 := by
  rw [preorder_eq_labels, preorder_eq_labels, shape,
    shapeFrom_addChild done (show root < t.size from t.nodes_pos), Tree.count_labels_addLeaf]
  rfl

/-- Only the new node comes below the root, and only where its parent was. -/
theorem mem_of_mem_preorder_addChild {j : Nat} (hj : j ∈ u.preorder) :
    j ∈ t.preorder ∨ j = t.size ∧ parent ∈ t.preorder := by
  by_cases old : j ∈ t.preorder
  · exact .inl old
  · have here := List.count_pos_iff.mpr hj
    rw [count_preorder_addChild done, List.count_eq_zero_of_not_mem old, Nat.zero_add] at here
    split at here
    · next last => exact .inr ⟨last, List.count_pos_iff.mp here⟩
    · cases here

/-- A proper table stays proper when a child is added. -/
theorem Proper.addChild (h : t.Proper) : u.Proper := by
  have once := List.nodup_iff_count_le_one.mp h.nodup
  have new : t.preorder.count t.size = 0 :=
    List.count_eq_zero_of_not_mem fun old => Nat.lt_irrefl _ (t.lt_size_of_mem_preorder old)
  constructor
  · rw [List.nodup_iff_count_le_one]
    intro j
    rw [count_preorder_addChild done]
    split
    · next here =>
      rw [here, new, Nat.zero_add]
      exact once parent
    · exact once j
  · intro j hj c hc
    rw [children_addChild done] at hc
    rcases mem_of_mem_preorder_addChild done hj with old | ⟨rfl, old⟩
    · have inside := t.lt_size_of_mem_preorder old
      split at hc
      · rcases List.mem_append.mp hc with hc | hc
        · exact h.later j old c hc
        · rw [List.mem_singleton] at hc
          omega
      · exact h.later j old c hc
    · have inside := t.lt_size_of_mem_preorder old
      rw [if_neg (by omega), children_of_size_le (Nat.le_refl _)] at hc
      cases hc

end AddChild

/-! ## Proper tables -/

/-- Every table that is built is proper. -/
theorem Built.proper {t : NodeTable} (h : t.Built) : t.Proper := by
  induction h with
  | singleton s => exact proper_ofTree (.leaf s)
  | ofTree u => exact proper_ofTree u
  | addChild _ done ih => exact ih.addChild done
  | relabelNode _ done ih =>
    rw [NodeTable.relabelNode] at done
    split at done
    · cases done
      exact ih.of_children (children_relabel _ _)
    · cases done
  | spliceHelpers _ isHelper ih => exact ih.spliceHelpers isHelper
  | linkParents _ ih => exact ih.of_children (children_linkParents _)
  | restoreWords _ sentence ih => exact ih.of_children (children_restoreWords _ sentence)

end NodeTable

end Constituency
