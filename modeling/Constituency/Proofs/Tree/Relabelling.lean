import Constituency.Proofs.Tree.Table

/-!
# Relabelling leaves

Giving the leaves of a table new labels, one after the other, changes no other
node. So the words that were restored in a tree can be taken back: with the labels
from before on its leaves, the table stands for the tree from before.
-/

namespace Constituency.NodeTable

/-- Gives the leaves the labels of a list, from left to right, as far as both go. -/
def relabelLeaves (t : NodeTable) (labels : List Symbol) : Except Fault NodeTable :=
  (t.leaves.zip labels).foldlM (fun t leaf => t.relabelNode leaf.1 leaf.2) t

/-! ## Single nodes -/

/-- Relabelling keeps the number of nodes. -/
theorem size_relabel (t : NodeTable) (f : Nat → Symbol → Symbol) : (t.relabel f).size = t.size :=
  Array.size_mapIdx

/-- Relabelling keeps the children. -/
theorem children_relabel (t : NodeTable) (f : Nat → Symbol → Symbol) (i : Nat) :
    (t.relabel f).children i = t.children i := by
  rw [NodeTable.children, NodeTable.children, relabel, getElem?_mapNodes]
  cases t.nodes[i]? <;> rfl

/-- Every node gets the label that is computed for it. -/
theorem symbol_relabel (t : NodeTable) (f : Nat → Symbol → Symbol) {i : Nat} (hi : i < t.size) :
    (t.relabel f).symbol i = f i (t.symbol i) := by
  have hn : t.nodes[i]? = some t.nodes[i] := Array.getElem?_eq_getElem hi
  rw [NodeTable.symbol, NodeTable.symbol, relabel, getElem?_mapNodes, hn]
  rfl

/-- Nodes can be relabelled one after the other. Those that are have their new labels, and the
others keep theirs. -/
theorem exists_relabelNodes (t : NodeTable) (f : Nat → Symbol) (is : List Nat)
    (inside : ∀ i ∈ is, i < t.size) :
    ∃ u, (is.map fun i => (i, f i)).foldlM (fun t node => t.relabelNode node.1 node.2) t = .ok u ∧
      u.size = t.size ∧ (∀ i, u.children i = t.children i) ∧
      ∀ i < t.size, u.symbol i = if i ∈ is then f i else t.symbol i := by
  induction is generalizing t with
  | nil => exact ⟨t, rfl, rfl, fun _ => rfl, fun _ _ => (if_neg List.not_mem_nil).symm⟩
  | cons i is ih =>
    generalize hnext : (t.relabel fun j old => if j = i then f i else old) = next
    have size : next.size = t.size := by rw [← hnext, size_relabel]
    have first : t.relabelNode i (f i) = .ok next := by
      rw [relabelNode, if_pos (inside i List.mem_cons_self), hnext]
    obtain ⟨u, run, sizeU, children, symbol⟩ :=
      ih next fun j hj => size.symm ▸ inside j (List.mem_cons_of_mem i hj)
    refine ⟨u, ?_, sizeU.trans size, fun j => ?_, fun j hj => ?_⟩
    · rw [List.map_cons, List.foldlM_cons, first]
      exact run
    · rw [children, ← hnext, children_relabel]
    · rw [symbol j (size.symm ▸ hj), ← hnext, symbol_relabel t _ hj]
      by_cases later : j ∈ is
      · rw [if_pos later, if_pos (List.mem_cons_of_mem i later)]
      · rw [if_neg later]
        by_cases here : j = i
        · rw [if_pos here, if_pos (List.mem_cons.mpr (.inl here)), here]
        · rw [if_neg here, if_neg (by simp [here, later])]

/-! ## Words that were restored -/

/-- Restoring words keeps the leaves. -/
theorem leaves_restoreWords (t : NodeTable) (sentence : List String) :
    (t.restoreWords sentence).leaves = t.leaves := by
  rw [leaves, leaves, preorder_congr (t.children_restoreWords sentence)]
  refine List.filter_congr fun i _ => ?_
  rw [isLeaf, isLeaf, children_restoreWords]

/-- With the words from before on its leaves, a table in which words were restored stands for the
tree from before. -/
theorem exists_relabelLeaves_restoreWords (t : NodeTable) (sentence : List String) :
    ∃ u, (t.restoreWords sentence).relabelLeaves t.words = .ok u ∧ u.toTree = t.toTree := by
  have size : (t.restoreWords sentence).size = t.size := size_relabel t _
  have leaf : ∀ i ∈ t.leaves, i < (t.restoreWords sentence).size := fun i hi =>
    size.symm ▸ t.lt_size_of_mem_preorder (List.mem_filter.mp hi).1
  have zipped : (t.restoreWords sentence).leaves.zip t.words =
      t.leaves.map fun i => (i, t.symbol i) := by
    rw [leaves_restoreWords, words, ← List.zip_map', List.map_id']
  obtain ⟨u, run, -, children, symbol⟩ :=
    exists_relabelNodes (t.restoreWords sentence) t.symbol t.leaves leaf
  refine ⟨u, by rw [relabelLeaves, zipped, run], ?_⟩
  have same : ∀ i, u.children i = t.children i := fun i =>
    (children i).trans (t.children_restoreWords sentence i)
  rw [toTree, toTree, shape, shape, shapeFrom_congr same]
  refine Tree.map_congr fun i hi => ?_
  have inside : i < t.size := t.lt_size_of_mem_preorder (by rwa [preorder_eq_labels])
  rw [symbol i (size.symm ▸ inside)]
  split
  · rfl
  · next inner =>
    rw [symbol_restoreWords t sentence inside,
      t.getElem?_wordsByLeaf_of_not_mem sentence inner, restoreWord_none]

end Constituency.NodeTable
