import Constituency.Proofs.Tree.SplicedOut
import Mathlib.Data.List.Basic

/-!
# Tables built node by node

A tree that was read, and one that was found in a chart, becomes a table by adding
its nodes one after the other: each node as the last child of its parent, and what
hangs from it before its next sibling. A node gets the number of nodes that are there
already, so the numbers follow the order of the visit. What comes of it is the table
that lists the nodes of the tree at once.
-/

namespace Constituency.NodeTable

/-! ## Adding nodes one by one -/

mutual

/-- Adds the nodes of a tree below a node: the root of the tree, then what hangs from it. -/
def plant (t : NodeTable) (parent : Nat) : Tree Symbol → Except Fault NodeTable
  | .node a cs => do
    let (t, i) ← t.addChild parent a
    t.plantAll i cs

/-- Adds the nodes of trees below a node, tree by tree. -/
def plantAll (t : NodeTable) (parent : Nat) : List (Tree Symbol) → Except Fault NodeTable
  | [] => .ok t
  | c :: cs => do
    let t ← t.plant parent c
    t.plantAll parent cs

end

/-- The table of a tree, built from a root alone. -/
def planted : Tree Symbol → Except Fault NodeTable
  | .node a cs => (singleton a).plantAll root cs

/-! ## What is added -/

/-- A node with further children behind its own. -/
def adopt (new : List Nat) (n : TableNode) : TableNode :=
  { n with children := n.children ++ new }

/-- Without further children a node stays. -/
theorem adopt_nil : adopt [] = id := by
  funext n
  rw [adopt, List.append_nil]
  rfl

/-- Further children come in the order in which they are added. -/
theorem adopt_comp_adopt (first second : List Nat) :
    adopt second ∘ adopt first = adopt (first ++ second) := by
  funext n
  rw [Function.comp_apply, adopt, adopt, adopt, List.append_assoc]

/-- A change at a place of a list does not reach what stands behind the list. -/
theorem modify_append_of_lt {α : Type} (f : α → α) {xs : List α} (ys : List α) {i : Nat}
    (h : i < xs.length) : (xs ++ ys).modify i f = xs.modify i f ++ ys := by
  induction xs generalizing i with
  | nil => exact absurd h (Nat.not_lt_zero i)
  | cons x xs ih =>
    cases i with
    | zero => rfl
    | succ i =>
      rw [List.cons_append, List.modify_succ_cons, ih (Nat.lt_of_succ_lt_succ h),
        List.modify_succ_cons, List.cons_append]

/-- A change at the place behind a list reaches the first of what stands there. -/
theorem modify_append_length {α : Type} (f : α → α) {xs : List α} {i : Nat} (h : i = xs.length)
    (y : α) (ys : List α) : (xs ++ y :: ys).modify i f = xs ++ f y :: ys := by
  induction xs generalizing i with
  | nil =>
    rw [h]
    rfl
  | cons x xs ih =>
    rw [h, List.cons_append, List.length_cons, List.modify_succ_cons, ih rfl, List.cons_append]

/-- The nodes after a run of additions: those that were there, one of them with further children,
and the new ones. -/
def Grown (t : NodeTable) (parent : Nat) (children : List Nat) (nodes : List TableNode)
    (u : NodeTable) : Prop :=
  u.nodes.toList = t.nodes.toList.modify parent (adopt children) ++ nodes

/-- The new nodes count. -/
theorem Grown.size {t u : NodeTable} {parent : Nat} {children : List Nat} {nodes : List TableNode}
    (h : t.Grown parent children nodes u) : u.size = t.size + nodes.length := by
  have length := congrArg List.length h
  rwa [List.length_append, List.length_modify, Array.length_toList, Array.length_toList] at length

/-- A child is added as a last node without children. -/
theorem exists_addChild (t : NodeTable) {parent : Nat} (h : parent < t.size) (s : Symbol) :
    ∃ u, t.addChild parent s = .ok (u, t.size) ∧ t.Grown parent [t.size] [⟨s, [], none⟩] u := by
  refine ⟨_, dif_pos (Nat.le_of_lt h), ?_⟩
  rw [Grown, mapNodes, Array.toList_mapIdx, Array.toList_push]
  apply List.ext_getElem?
  intro j
  rw [← modify_append_of_lt _ _ h, List.getElem?_mapIdx, List.getElem?_modify]
  refine congrArg (Option.map · _) (funext fun n => ?_)
  by_cases here : j = parent
  · rw [if_pos here, if_pos here.symm, adopt]
  · rw [if_neg here, if_neg (Ne.symm here)]

mutual

/-- Adding the nodes of a tree one by one lays the tree out behind the nodes that are there. -/
theorem exists_plant (t : NodeTable) {parent : Nat} (h : parent < t.size) (c : Tree Symbol) :
    ∃ u, t.plant parent c = .ok u ∧ t.Grown parent [t.size] (layout t.size c) u := by
  match c with
  | .node a cs =>
    obtain ⟨t', added, root⟩ := t.exists_addChild h a
    have size : t'.size = t.size + 1 := root.size
    obtain ⟨u, grown, nodes⟩ := t'.exists_plantAll (show t.size < t'.size by omega) cs
    refine ⟨u, ?_, ?_⟩
    · rw [plant, added]
      exact grown
    -- the root of the tree stands last when its children are added
    · have last : t.size = (t.nodes.toList.modify parent (adopt [t.size])).length := by
        rw [List.length_modify, Array.length_toList]
        rfl
      rw [Grown, nodes, root, size, modify_append_length _ last, layout, adopt, List.nil_append,
        List.append_assoc, List.singleton_append]

/-- Adding the nodes of trees one by one lays the trees out one behind the other. -/
theorem exists_plantAll (t : NodeTable) {parent : Nat} (h : parent < t.size)
    (cs : List (Tree Symbol)) :
    ∃ u, t.plantAll parent cs = .ok u ∧
      t.Grown parent (startsFrom t.size cs) (layoutAll t.size cs) u := by
  match cs with
  | [] =>
    refine ⟨t, by rw [plantAll], ?_⟩
    rw [Grown, startsFrom, adopt_nil, List.modify_id, layoutAll, List.append_nil]
  | c :: cs =>
    obtain ⟨t', first, nodes⟩ := t.exists_plant h c
    have size : t'.size = t.size + c.size := by rw [nodes.size, length_layout]
    obtain ⟨u, rest, nodes'⟩ := t'.exists_plantAll (show parent < t'.size by omega) cs
    refine ⟨u, ?_, ?_⟩
    · rw [plantAll, first]
      exact rest
    · have inside : parent < (t.nodes.toList.modify parent (adopt [t.size])).length := by
        rw [List.length_modify, Array.length_toList]
        exact h
      rw [Grown, nodes', nodes, modify_append_of_lt _ _ inside, List.modify_modify_eq,
        adopt_comp_adopt, size, startsFrom, layoutAll, List.append_assoc, List.singleton_append]

end

/-- Building the table of a tree node by node gives the table that lists its nodes in preorder. -/
theorem planted_eq_ofTree (u : Tree Symbol) : planted u = .ok (ofTree u) := by
  cases u with
  | node a cs =>
    obtain ⟨t, grown, nodes⟩ := (singleton a).exists_plantAll (show root < 1 from Nat.one_pos) cs
    rw [planted, grown]
    congr 1
    apply eq_of_nodes
    apply Array.toList_inj.mp
    rw [nodes, ofTree]
    rfl

end Constituency.NodeTable
