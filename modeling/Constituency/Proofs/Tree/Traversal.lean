import Constituency.Proofs.Tree.Leaves
import Constituency.Proofs.Tree.Planting
import Mathlib.Logic.Relation

/-!
# Traversing tables

The nodes of a table are visited with a stack: the node on top is taken off, and its
children are pushed, the last one first, so that the first one is visited next. On a
table that was built the loop ends, and the order is that of the recursion on the
tree of the numbers, which visits a node before its children and these from left to
right. Nodes that were spliced out, and children that were added to them, have
children of their own and are never pushed.
-/

namespace Constituency.NodeTable

/-! ## The loop over a stack -/

/-- The loop over a stack, whose top is its last element, and the order of the visits. -/
inductive Walks (t : NodeTable) : List Nat → List Nat → Prop
  /-- The loop ends when the stack is empty. -/
  | done : Walks t [] []
  /-- The top is taken off and visited, and its children are pushed from the last one on. -/
  | step {stack order : List Nat} {i : Nat}
      (rest : Walks t (stack ++ (t.children i).reverse) order) : Walks t (stack ++ [i]) (i :: order)

section Proper

variable {t : NodeTable} (h : t.Proper)
include h

/-- In a proper table children of nodes below the root are below the root. -/
theorem Proper.mem_of_mem_children {i c : Nat} (hi : i ∈ t.preorder) (hc : c ∈ t.children i) :
    c ∈ t.preorder :=
  (h.mem_of_isParent ⟨hi, hc⟩).1

/-- In a proper table the loop visits the nodes of the shapes on the stack, from the top on. -/
theorem Proper.eq_visit_of_walks {stack order : List Nat} (walk : t.Walks stack order)
    (inside : ∀ i ∈ stack, i ∈ t.preorder) : order = t.visit stack.reverse := by
  induction walk with
  | done => rw [List.reverse_nil, visit]
  | @step stack order i rest ih =>
    have top : i ∈ t.preorder := inside i (by simp)
    have pushed : ∀ j ∈ stack ++ (t.children i).reverse, j ∈ t.preorder := by
      intro j hj
      rcases List.mem_append.mp hj with hj | hj
      · exact inside j (List.mem_append_left _ hj)
      · exact h.mem_of_mem_children top (List.mem_reverse.mp hj)
    rw [List.reverse_append, List.reverse_singleton, List.singleton_append, visit, ih pushed,
      List.reverse_append, List.reverse_reverse, below_eq_children (h.later i top)]

/-- In a proper table the loop ends, whatever is on the stack. -/
theorem Proper.walks_visit {stack : List Nat} (inside : ∀ i ∈ stack, i ∈ t.preorder) :
    t.Walks stack.reverse (t.visit stack) := by
  fun_induction visit t stack with
  | case1 => exact .done
  | case2 i rest ih =>
    have top := inside i List.mem_cons_self
    rw [below_eq_children (h.later i top)] at ih ⊢
    have pushed : ∀ j ∈ t.children i ++ rest, j ∈ t.preorder := by
      intro j hj
      rcases List.mem_append.mp hj with hj | hj
      · exact h.mem_of_mem_children top hj
      · exact inside j (List.mem_cons_of_mem _ hj)
    have next := ih pushed
    rw [List.reverse_append] at next
    rw [List.reverse_cons]
    exact .step next

/-- In a proper table the loop from the root has one outcome. -/
theorem Proper.walks_iff (order : List Nat) : t.Walks [root] order ↔ order = t.preorder := by
  have inside : ∀ i ∈ [root], i ∈ t.preorder := by
    intro i hi
    rw [List.mem_singleton.mp hi]
    exact t.root_mem_preorder
  constructor
  · exact fun walk => h.eq_visit_of_walks walk inside
  · rintro rfl
    exact h.walks_visit inside

/-! ## Reachable nodes -/

/-- In a proper table the nodes below the root are those that are reached over children. -/
theorem Proper.mem_preorder_iff (i : Nat) :
    i ∈ t.preorder ↔ Relation.ReflTransGen (fun p c => c ∈ t.children p) root i := by
  constructor
  · intro hi
    induction i using Nat.strongRecOn with
    | _ i ih =>
      by_cases top : i = root
      · rw [top]
      · obtain ⟨p, hp, hc⟩ := h.exists_isParent hi top
        exact (ih p (h.later p hp i hc) hp).tail hc
  · intro path
    induction path with
    | refl => exact t.root_mem_preorder
    | tail _ hc ih => exact h.mem_of_mem_children ih hc

end Proper

/-! ## The recursion -/

/-- A tree of numbers that starts at the root and has the children that the table lists. -/
def Unfolds (t : NodeTable) (u : Tree Nat) : Prop :=
  u.label = root ∧ ∀ v ∈ u.subtrees, v.children.map Tree.label = t.children v.label

/-- In a proper table a tree of numbers with the listed children is the shape from its root. -/
theorem Proper.eq_shapeFrom {t : NodeTable} (h : t.Proper) {u : Tree Nat}
    (top : u.label ∈ t.preorder)
    (listed : ∀ v ∈ u.subtrees, v.children.map Tree.label = t.children v.label) :
    u = t.shapeFrom u.label := by
  have here := listed u u.self_mem_subtrees
  induction u using Tree.leafOrNode with
  | leaf i =>
    rw [Tree.label, shapeFrom_eq, below_eq_children (h.later i top)]
    exact congrArg (fun cs => Tree.node i (cs.map t.shapeFrom)) here
  | node i cs some_child ih =>
    have shapes : ∀ c ∈ cs, c = t.shapeFrom c.label := by
      intro c hc
      have child : c.label ∈ t.children i := here ▸ List.mem_map_of_mem hc
      have below : ∀ v ∈ c.subtrees, v.children.map Tree.label = t.children v.label :=
        fun v hv => listed v (Tree.mem_subtrees.mpr (.inr ⟨c, hc, hv⟩))
      exact ih c hc (h.mem_of_mem_children top child) below (below c c.self_mem_subtrees)
    rw [Tree.label, shapeFrom_eq, below_eq_children (h.later i top)]
    calc Tree.node i cs = .node i (cs.map fun c => t.shapeFrom c.label) :=
          congrArg (Tree.node i) ((List.map_id cs).symm.trans (List.map_congr_left shapes))
      _ = .node i ((cs.map Tree.label).map t.shapeFrom) := by rw [List.map_map]; rfl
      _ = .node i ((t.children i).map t.shapeFrom) :=
          congrArg (fun cs => Tree.node i (cs.map t.shapeFrom)) here

/-- In a proper table the shape is the one tree of numbers with the listed children. -/
theorem Proper.unfolds_iff {t : NodeTable} (h : t.Proper) (u : Tree Nat) :
    t.Unfolds u ↔ u = t.shape := by
  constructor
  · rintro ⟨top, listed⟩
    rw [h.eq_shapeFrom (top ▸ t.root_mem_preorder) listed, top, NodeTable.shape]
  · rintro rfl
    refine ⟨t.label_shapeFrom root, fun v hv => ?_⟩
    rw [← below_eq_children (h.later _ (label_mem_preorder hv)),
      eq_shapeFrom_of_mem_subtrees t root hv, label_shapeFrom, shapeFrom_eq, Tree.children,
      List.map_map]
    exact List.map_id'' (fun c => t.label_shapeFrom c) _

/-! ## Faithful traversal -/

/-- The order in which the nodes of a table are visited is that of the tree it stands for. -/
structure Traversed (t : NodeTable) : Prop where
  /-- The loop from the root ends, and only in this order. -/
  walks : ∀ order, t.Walks [root] order ↔ order = t.preorder
  /-- Every node is visited once at most. -/
  nodup : t.preorder.Nodup
  /-- The nodes that are reached from the root over children are visited, and no others. -/
  reached : ∀ i, i ∈ t.preorder ↔ Relation.ReflTransGen (fun p c => c ∈ t.children p) root i
  /-- One tree of numbers has the listed children; it lists the same nodes, a node before its
  children and these from left to right, and has the same leaves from left to right. -/
  recursion : ∃ u, (∀ v, t.Unfolds v ↔ v = u) ∧ t.preorder = u.labels ∧ t.leaves = u.words
  /-- The words are those of the tree of the labels. -/
  words : t.words = t.toTree.words

/-- The nodes of a tree that is built node by node are numbered in the order of the recursion on
the tree. Whatever is done to a table later, its nodes are visited in the order of the tree that it
stands for then. -/
theorem traversed_of_planted_or_built :
    (∀ u : Tree Symbol, ∃ t, planted u = .ok t ∧ t = ofTree u ∧ t.toTree = u ∧
      t.preorder = List.range t.size ∧ t.preorder.map t.symbol = u.labels) ∧
    ∀ t : NodeTable, t.Built → t.Traversed := by
  refine ⟨fun u => ⟨ofTree u, planted_eq_ofTree u, rfl, toTree_ofTree u, ?_, ?_⟩, fun t built => ?_⟩
  · rw [preorder_ofTree, NodeTable.size, ofTree, List.size_toArray, length_layout,
      List.range_eq_range']
    rfl
  · conv_rhs => rw [← toTree_ofTree u]
    rw [preorder_eq_labels, toTree, Tree.labels, Tree.labels, Tree.subtrees_map, List.map_map,
      List.map_map]
    exact List.map_congr_left fun v _ => (Tree.label_map _ v).symm
  · have h := built.proper
    exact {
      walks := h.walks_iff
      nodup := h.nodup
      reached := h.mem_preorder_iff
      recursion := ⟨t.shape, h.unfolds_iff, t.preorder_eq_labels, h.leaves_eq⟩
      words := h.words_eq }

/-- A table with helpers spliced out, to which a node and a helper that was spliced out get one
more child each. -/
def regrown : Except Fault NodeTable := do
  let (t, _) ← nestedSpliced.addChild 2 ⟨"d"⟩
  let (t, _) ← t.addChild 4 ⟨"e"⟩
  return t

/-- The new child of the helper is not visited, and that of the node is visited after it. -/
theorem traversed_regrown : ∃ t, regrown = .ok t ∧ t.Built ∧ t.Traversed ∧
    t.children 2 = [3, 4, 9] ∧ t.preorder = [0, 3, 4, 10, 5, 6, 7, 8] ∧
    t.leaves = [3, 10, 5, 6, 8] := by
  have built : nestedSpliced.Built := .spliceHelpers (.linkParents (.ofTree nestedHelpers)) _
  have size : nestedSpliced.size = 9 := by cbv
  obtain ⟨t, first, grown⟩ :=
    nestedSpliced.exists_addChild (show 2 < nestedSpliced.size by rw [size]; decide) ⟨"d"⟩
  have size' : t.size = 10 := by rw [grown.size, size]; rfl
  obtain ⟨u, second, -⟩ := t.exists_addChild (show 4 < t.size by rw [size']; decide) ⟨"e"⟩
  have done : regrown = .ok u := by
    rw [regrown, first]
    dsimp only [bind, Except.bind]
    rw [second]
    rfl
  have views : regrown.map (fun t => (t.children 2, t.preorder, t.leaves)) =
      .ok ([3, 4, 9], [0, 3, 4, 10, 5, 6, 7, 8], [3, 10, 5, 6, 8]) := by cbv
  rw [done, Except.map, Except.ok.injEq, Prod.mk.injEq, Prod.mk.injEq] at views
  have builtU : u.Built := .addChild (.addChild built first) second
  exact ⟨u, done, builtU, traversed_of_planted_or_built.2 u builtU, views⟩

end Constituency.NodeTable
