import Constituency.Parser
import Constituency.Proofs.Tree.Building
import Mathlib.Data.List.Pairwise

/-!
# Links to parents

In a proper table every node below the root, other than the root, is listed by one
node below the root, and once. So linking parents fills in all links, and a link
that was filled in earlier is written over. A node that was spliced out may still
list children that now hang elsewhere; it is not below the root, so its list does
not count. The tables that the parsers give keep their links while words are
restored.
-/

namespace Constituency

namespace Tree

variable {α : Type}

mutual

/-- The nodes of a tree list the nodes below its root, each once. -/
theorem perm_flatMap_children (t : Tree α) :
    (t.subtrees.flatMap fun u => u.children.map label).Perm (labelsAll t.children) := by
  cases t with
  | node a cs =>
    rw [subtrees, List.flatMap_cons]
    exact perm_map_append_flatMap cs

/-- The roots of trees and what the nodes of the trees list are the nodes of the trees. -/
theorem perm_map_append_flatMap (cs : List (Tree α)) :
    (cs.map label ++ (subtreesAll cs).flatMap fun u => u.children.map label).Perm
      (labelsAll cs) := by
  match cs with
  | [] => exact .refl _
  | .node a ds :: cs =>
    have first := perm_flatMap_children (.node a ds)
    have rest := perm_map_append_flatMap cs
    rw [List.map_cons, subtreesAll, List.flatMap_append, labelsAll_cons, labels_node,
      List.cons_append, List.cons_append]
    exact .cons a (List.perm_append_comm_assoc _ _ _ |>.trans (first.append rest))

end

end Tree

namespace NodeTable

/-! ## Parents by lists of children -/

/-- A node below the root lists a node as a child. -/
def IsParent (t : NodeTable) (p c : Nat) : Prop :=
  p ∈ t.preorder ∧ c ∈ t.children p

/-- Tables with the same children have the same parents. -/
theorem isParent_congr {t u : NodeTable} (same : ∀ i, u.children i = t.children i) {p c : Nat} :
    u.IsParent p c ↔ t.IsParent p c := by
  rw [IsParent, IsParent, preorder_congr same, same]

/-- In a proper table the root and what the nodes below the root list are the nodes below the
root. -/
theorem Proper.perm_children {t : NodeTable} (h : t.Proper) :
    (root :: t.preorder.flatMap t.children).Perm t.preorder := by
  have shape : t.shape.labels = root :: Tree.labelsAll t.shape.children := by
    rw [NodeTable.shape, shapeFrom_eq, Tree.labels_node, Tree.children]
  have listed : t.preorder.flatMap t.children =
      t.shape.subtrees.flatMap fun u => u.children.map Tree.label := by
    rw [preorder_eq_labels, Tree.labels, List.flatMap_map]
    refine List.flatMap_congr fun u hu => ?_
    have later := h.later u.label (label_mem_preorder hu)
    rw [← below_eq_children later, eq_shapeFrom_of_mem_subtrees t root hu, label_shapeFrom,
      shapeFrom_eq, Tree.children, List.map_map]
    exact (List.map_id'' (fun c => t.label_shapeFrom c) _).symm
  rw [listed, preorder_eq_labels, shape]
  exact .cons root (Tree.perm_flatMap_children t.shape)

section Proper

variable {t : NodeTable} (h : t.Proper)
include h

/-- In a proper table no node below the root lists the root. -/
theorem Proper.root_not_mem_children : root ∉ t.preorder.flatMap t.children :=
  (List.nodup_cons.mp (h.perm_children.nodup_iff.mpr h.nodup)).1

/-- In a proper table the nodes below the root list no node twice. -/
theorem Proper.nodup_children : (t.preorder.flatMap t.children).Nodup :=
  (List.nodup_cons.mp (h.perm_children.nodup_iff.mpr h.nodup)).2

/-- In a proper table a child is below the root and is not the root. -/
theorem Proper.mem_of_isParent {p c : Nat} (parent : t.IsParent p c) :
    c ∈ t.preorder ∧ c ≠ root := by
  have listed : c ∈ t.preorder.flatMap t.children := List.mem_flatMap.mpr ⟨p, parent⟩
  refine ⟨h.perm_children.subset (List.mem_cons_of_mem root listed), ?_⟩
  rintro rfl
  exact h.root_not_mem_children listed

/-- In a proper table every node below the root, other than the root, has a parent. -/
theorem Proper.exists_isParent {c : Nat} (hc : c ∈ t.preorder) (below : c ≠ root) :
    ∃ p, t.IsParent p c := by
  have listed := h.perm_children.symm.subset hc
  rw [List.mem_cons, or_iff_right below] at listed
  exact List.mem_flatMap.mp listed

/-- In a proper table a node has one parent. -/
theorem Proper.isParent_unique {p q c : Nat} (hp : t.IsParent p c) (hq : t.IsParent q c) :
    p = q := by
  have apart := (List.nodup_flatMap.mp h.nodup_children).2
  have symmetric : Std.Symm (Function.onFun List.Disjoint t.children) :=
    ⟨fun _ _ disjoint => List.disjoint_symm disjoint⟩
  by_contra distinct
  exact apart.forall hp.1 hq.1 distinct hp.2 hq.2

/-- In a proper table a parent lists its child once. -/
theorem Proper.count_children {p c : Nat} (parent : t.IsParent p c) :
    (t.children p).count c = 1 := by
  have once := (List.nodup_flatMap.mp h.nodup_children).1 p parent.1
  exact List.count_eq_one_of_mem once parent.2

end Proper

/-! ## Linking parents -/

/-- The link of a node to its parent. -/
def parent (t : NodeTable) (i : Nat) : Option Nat :=
  t.nodes[i]?.bind TableNode.parent

/-- A table is linked when the root has no parent and every other node below the root is linked to
the one node below the root that lists it. -/
structure Linked (t : NodeTable) : Prop where
  /-- The root has no parent. -/
  root : t.parent NodeTable.root = none
  /-- A node below the root is linked to the only node that lists it, which lists it once. -/
  child : ∀ c ∈ t.preorder, c ≠ NodeTable.root → ∃ p, t.parent c = some p ∧ t.IsParent p c ∧
    (t.children p).count c = 1 ∧ ∀ q, t.IsParent q c → q = p

/-- A table with the children and the links of a linked one is linked. -/
theorem Linked.of_children {t u : NodeTable} (h : t.Linked)
    (children : ∀ i, u.children i = t.children i) (parent : ∀ i, u.parent i = t.parent i) :
    u.Linked := by
  refine ⟨(parent _).trans h.root, fun c hc below => ?_⟩
  rw [preorder_congr children] at hc
  obtain ⟨p, link, listed, once, alone⟩ := h.child c hc below
  exact ⟨p, (parent c).trans link, (isParent_congr children).mpr listed, by rw [children, once],
    fun q hq => alone q ((isParent_congr children).mp hq)⟩

/-- Linking parents takes the link of the root away. -/
theorem parent_linkParents_root (t : NodeTable) : t.linkParents.parent root = none := by
  rw [parent, linkParents, getElem?_mapNodes]
  cases t.nodes[root]? with
  | none => rfl
  | some n => rfl

/-- In a proper table linking parents links a child to its parent, whatever it was linked to. -/
theorem Proper.parent_linkParents {t : NodeTable} (h : t.Proper) {p c : Nat}
    (parent : t.IsParent p c) : t.linkParents.parent c = some p := by
  obtain ⟨reached, below⟩ := h.mem_of_isParent parent
  have found : (Std.TreeMap.ofList
      (t.preorder.flatMap fun i => (t.children i).map fun c => (c, i)))[c]? = some p := by
    refine getElem?_ofList_of_nodup ?_
      (List.mem_flatMap.mpr ⟨p, parent.1, List.mem_map_of_mem parent.2⟩)
    rw [List.map_flatMap]
    simp only [List.map_map, Function.comp_def, List.map_id']
    exact h.nodup_children
  have inside : c < t.nodes.size := t.lt_size_of_mem_preorder reached
  have node := Array.getElem?_eq_getElem inside
  rw [NodeTable.parent, linkParents, getElem?_mapNodes, node, Option.map_some, Option.bind_some,
    if_neg below, found]

/-- Linking the parents of a proper table makes it linked. -/
theorem Proper.linked {t : NodeTable} (h : t.Proper) : t.linkParents.Linked := by
  have same := t.children_linkParents
  have after := h.of_children same
  refine ⟨t.parent_linkParents_root, fun c hc below => ?_⟩
  obtain ⟨p, parent⟩ := after.exists_isParent hc below
  exact ⟨p, h.parent_linkParents ((isParent_congr same).mp parent), parent,
    after.count_children parent, fun q hq => after.isParent_unique hq parent⟩

/-- Restoring words keeps the links. -/
theorem parent_restoreWords (t : NodeTable) (sentence : List String) (i : Nat) :
    (t.restoreWords sentence).parent i = t.parent i := by
  rw [parent, parent, restoreWords, relabel, getElem?_mapNodes]
  cases t.nodes[i]? <;> rfl

end NodeTable

namespace Grammar

/-- The tree that is shown for a candidate is linked. -/
theorem linked_finish {W S : Type} (g : Grammar W) (words : List String) (c : Candidate S) :
    (g.finish words c).Linked := by
  have built : ((NodeTable.ofTree c.toTree).spliceHelpers g.isHelper).Built :=
    .spliceHelpers (.ofTree c.toTree) g.isHelper
  exact built.proper.linked.of_children (NodeTable.children_restoreWords _ words)
    (NodeTable.parent_restoreWords _ words)

end Grammar

/-- Links to parents are exact: for every table that is built, once its parents are linked, and for
every table that a parser gives. -/
theorem linked_of_built_or_parsed {W S : Type} [Score S] [WeightScore W S] :
    (∀ t : NodeTable, t.Built → t.linkParents.Linked) ∧
      ∀ (g : Grammar W) (start : Symbol) (words : List String),
        (∀ t ∈ g.parse (S := S) start words, t.Linked) ∧
          ∀ result ∈ g.parseBest (S := S) start words, result.1.Linked := by
  refine ⟨fun t h => h.proper.linked, fun g start words => ⟨fun t ht => ?_, fun result hr => ?_⟩⟩
  · obtain ⟨c, -, rfl⟩ := List.mem_map.mp ht
    exact g.linked_finish words c
  · obtain ⟨c, -, rfl⟩ := List.mem_map.mp hr
    exact g.linked_finish words c

/-- A tree with nested helpers, with a helper for its root and with leaves that have their names. -/
def nestedHelpers : Tree Symbol :=
  .node ⟨"X0"⟩ [
    .node ⟨"X1"⟩ [.node ⟨"X0"⟩ [.leaf ⟨"a"⟩, .leaf ⟨"b"⟩], .leaf ⟨"X1"⟩],
    .leaf ⟨"X0"⟩,
    .node ⟨"C"⟩ [.leaf ⟨"c"⟩]]

/-- The table of that tree without its helpers, with the links from before. -/
def nestedSpliced : NodeTable :=
  (NodeTable.ofTree nestedHelpers).linkParents.spliceHelpers [⟨"X0"⟩, ⟨"X1"⟩].contains

/-- A node stays linked to the helper that it hung from, and the helper still lists it; linking
parents again links it to the root. -/
theorem linked_nestedSpliced :
    nestedSpliced.linkParents.Linked ∧ nestedSpliced.children 2 = [3, 4] ∧
      nestedSpliced.parent 3 = some 2 ∧ nestedSpliced.linkParents.parent 3 = some 0 := by
  have built : nestedSpliced.Built := .spliceHelpers (.linkParents (.ofTree nestedHelpers)) _
  have linked := (linked_of_built_or_parsed (W := Unit) (S := Float)).1 nestedSpliced built
  exact ⟨linked, by cbv, by cbv, by cbv⟩

end Constituency
