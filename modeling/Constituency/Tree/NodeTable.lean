import Constituency.Fault
import Constituency.Tree.LocalRule
import Std.Data.TreeMap
import Std.Data.TreeSet

/-!
# Trees with numbered nodes

A node table keeps a tree as numbered nodes, so that single nodes can be named
and changed. Node zero is the root, and a node lists the numbers of its
children. Below the root a child has a greater number than its parent, so
following children ends. Links to parents are a second layer that is filled in
on demand, once the shape of the tree is final. Nodes that do not hang below the
root keep their numbers and are otherwise without effect; one of them may even
hang from itself, when a child is added to the very number that it gets.

`toTree` is the tree that a table stands for.
-/

namespace Constituency

/-- One node of a table. -/
structure TableNode where
  /-- The label. -/
  symbol : Symbol
  /-- The numbers of the children, from left to right. -/
  children : List Nat
  /-- The number of the parent, where the links are filled in. -/
  parent : Option Nat
  deriving Repr, DecidableEq

/-- A tree with numbered nodes. -/
structure NodeTable where
  /-- The nodes by number. -/
  nodes : Array TableNode
  /-- There is a root. -/
  nodes_pos : 0 < nodes.size
  /-- Children are nodes, and none comes before its parent. -/
  child_bounds : ∀ (i : Nat) (h : i < nodes.size), ∀ c ∈ nodes[i].children, i ≤ c ∧ c < nodes.size

namespace NodeTable

/-- The number of the root. -/
def root : Nat := 0

/-- The number of nodes. -/
def size (t : NodeTable) : Nat :=
  t.nodes.size

/-- The node with a number. -/
def node (t : NodeTable) (i : Nat) : Except Fault TableNode :=
  match t.nodes[i]? with
  | some n => .ok n
  | none => .error .noSuchNode

/-- The label of a node. -/
def symbol (t : NodeTable) (i : Nat) : Symbol :=
  match t.nodes[i]? with
  | some n => n.symbol
  | none => ⟨""⟩

/-- The children of a node. -/
def children (t : NodeTable) (i : Nat) : List Nat :=
  match t.nodes[i]? with
  | some n => n.children
  | none => []

/-- Whether a node has no children. -/
def isLeaf (t : NodeTable) (i : Nat) : Bool :=
  (t.children i).isEmpty

/-- A child is a node and does not come before its parent. -/
theorem bounds_of_mem_children {t : NodeTable} {i c : Nat} (h : c ∈ t.children i) :
    i ≤ c ∧ c < t.size := by
  unfold children at h
  split at h
  · next n hn =>
    obtain ⟨hi, rfl⟩ := Array.getElem?_eq_some_iff.1 hn
    exact t.child_bounds i hi c h
  · simp at h

/-! ## The tree of a table -/

/-- The children that come after the node: all of them, unless the node hangs from itself. -/
def below (t : NodeTable) (i : Nat) : List Nat :=
  (t.children i).filter fun c => decide (i < c)

/-- A child below a node is a node with a greater number. -/
theorem lt_of_mem_below {t : NodeTable} {i c : Nat} (h : c ∈ t.below i) : i < c ∧ c < t.size := by
  obtain ⟨hc, hlt⟩ := List.mem_filter.1 h
  exact ⟨of_decide_eq_true hlt, (bounds_of_mem_children hc).2⟩

/-- The numbers of a node and of all nodes below it, as a tree. -/
def shapeFrom (t : NodeTable) (i : Nat) : Tree Nat :=
  .node i ((t.below i).attach.map fun c => t.shapeFrom c.1)
termination_by t.size - i
decreasing_by have := lt_of_mem_below c.2; omega

/-- The numbers of the nodes that hang below the root, as a tree. -/
def shape (t : NodeTable) : Tree Nat :=
  t.shapeFrom root

/-- The tree that the table stands for. -/
def toTree (t : NodeTable) : Tree Symbol :=
  t.shape.map t.symbol

/-- A node stands over the shapes of the children below it. -/
theorem shapeFrom_eq (t : NodeTable) (i : Nat) :
    t.shapeFrom i = .node i ((t.below i).map t.shapeFrom) := by
  rw [shapeFrom]
  simp only [List.map_subtype, List.unattach_attach]

/-- A shape has one node more than the shapes below its root. -/
theorem size_shapeFrom (t : NodeTable) (i : Nat) :
    (t.shapeFrom i).size = 1 + Tree.sizeAll ((t.below i).map t.shapeFrom) := by
  rw [shapeFrom_eq, Tree.size]

/-- The nodes of the subtrees on a stack: a node is visited and its children take its place. -/
def visit (t : NodeTable) : List Nat → List Nat
  | [] => []
  | i :: rest => i :: t.visit (t.below i ++ rest)
termination_by stack => Tree.sizeAll (stack.map t.shapeFrom)
decreasing_by
  rw [List.map_append, Tree.sizeAll_append, List.map_cons, Tree.sizeAll, size_shapeFrom]
  omega

/-- The numbers of the nodes below the root: parents before children, children from left to
right. -/
def preorder (t : NodeTable) : List Nat :=
  t.visit [root]

/-- The numbers of the leaves, from left to right. -/
def leaves (t : NodeTable) : List Nat :=
  t.preorder.filter t.isLeaf

/-- The labels of the leaves, from left to right. -/
def words (t : NodeTable) : List Symbol :=
  t.leaves.map t.symbol

/-- The nodes below the root with their numbers, in preorder. -/
def rows (t : NodeTable) : List (Nat × TableNode) :=
  t.preorder.filterMap (fun i => t.nodes[i]?.map (fun n => (i, n)))

/-- The sides of the rule at a node. -/
def localSides? (t : NodeTable) (trim : Bool) (i : Nat) : Option (Symbol × List Symbol) :=
  Constituency.localSides? trim (t.symbol i) ((t.children i).map t.symbol)

/-- The rule at a node, with a given weight. -/
def localRule? {W : Type} (t : NodeTable) (trim : Bool) (weight : W) (i : Nat) : Option (Rule W) :=
  (t.localSides? trim i).bind fun sides => Rule.ofSides? sides.1 sides.2 weight

/-! ## Making tables -/

/-- A table with a root and nothing else. -/
def singleton (s : Symbol) : NodeTable where
  nodes := #[⟨s, [], none⟩]
  nodes_pos := Nat.one_pos
  child_bounds := by simp

/-- The numbers of trees laid out one behind the other. -/
def startsFrom (first : Nat) : List (Tree Symbol) → List Nat
  | [] => []
  | c :: cs => first :: startsFrom (first + c.size) cs

mutual

/-- The nodes of a tree in preorder, numbered from `first` on. -/
def layout (first : Nat) : Tree Symbol → List TableNode
  | .node a cs => ⟨a, startsFrom (first + 1) cs, none⟩ :: layoutAll (first + 1) cs

/-- The nodes of trees laid out one behind the other. -/
def layoutAll (first : Nat) : List (Tree Symbol) → List TableNode
  | [] => []
  | c :: cs => layout first c ++ layoutAll (first + c.size) cs

end

mutual

/-- A tree is laid out as one table node for each of its nodes. -/
theorem length_layout (first : Nat) (t : Tree Symbol) : (layout first t).length = t.size := by
  cases t with
  | node a cs => rw [layout, List.length_cons, length_layoutAll, Tree.size, Nat.add_comm]

/-- Trees are laid out as one table node for each of their nodes. -/
theorem length_layoutAll (first : Nat) (cs : List (Tree Symbol)) :
    (layoutAll first cs).length = Tree.sizeAll cs := by
  cases cs with
  | nil => rfl
  | cons c cs => rw [layoutAll, List.length_append, length_layout, length_layoutAll, Tree.sizeAll]

end

/-- Trees laid out from `first` on start among the numbers of their nodes. -/
theorem mem_startsFrom {first n : Nat} {cs : List (Tree Symbol)} (h : n ∈ startsFrom first cs) :
    first ≤ n ∧ n < first + Tree.sizeAll cs := by
  induction cs generalizing first with
  | nil => simp [startsFrom] at h
  | cons c cs ih =>
    have hc := c.size_pos
    rw [startsFrom, List.mem_cons] at h
    rw [Tree.sizeAll]
    rcases h with rfl | h
    · omega
    · have := ih h
      omega

mutual

/-- In the layout of a tree the children of a node come after it and are nodes of the tree. -/
theorem bounds_layout (first : Nat) (t : Tree Symbol) (i : Nat) (n : TableNode)
    (hn : (layout first t)[i]? = some n) (c : Nat) (hc : c ∈ n.children) :
    first + i < c ∧ c < first + t.size := by
  cases t with
  | node a cs =>
    rw [layout] at hn
    rw [Tree.size]
    cases i with
    | zero =>
      cases hn
      have := mem_startsFrom hc
      omega
    | succ i =>
      have := bounds_layoutAll (first + 1) cs i n hn c hc
      omega

/-- In the layout of trees the children of a node come after it and are nodes of the trees. -/
theorem bounds_layoutAll (first : Nat) (cs : List (Tree Symbol)) (i : Nat) (n : TableNode)
    (hn : (layoutAll first cs)[i]? = some n) (c : Nat) (hc : c ∈ n.children) :
    first + i < c ∧ c < first + Tree.sizeAll cs := by
  cases cs with
  | nil => simp [layoutAll] at hn
  | cons d ds =>
    rw [layoutAll, List.getElem?_append, length_layout] at hn
    rw [Tree.sizeAll]
    split at hn
    · have := bounds_layout first d i n hn c hc
      omega
    · have := bounds_layoutAll (first + d.size) ds (i - d.size) n hn c hc
      omega

end

/-- The table of a tree: its nodes numbered in preorder, without links to parents. -/
def ofTree (t : Tree Symbol) : NodeTable where
  nodes := (layout root t).toArray
  nodes_pos := by
    rw [List.size_toArray, length_layout]
    exact t.size_pos
  child_bounds i h c hc := by
    rw [List.size_toArray] at h
    rw [List.getElem_toArray] at hc
    have := bounds_layout root t i _ (List.getElem?_eq_getElem h) c hc
    rw [List.size_toArray, length_layout]
    simp only [root] at *
    omega

/-! ## Changing tables -/

/-- Changes every node, with children that are again nodes and do not come before it. -/
def mapNodes (t : NodeTable) (change : Nat → TableNode → TableNode)
    (h : ∀ i n, t.nodes[i]? = some n → ∀ c ∈ (change i n).children, i ≤ c ∧ c < t.size) :
    NodeTable where
  nodes := t.nodes.mapIdx change
  nodes_pos := by
    rw [Array.size_mapIdx]
    exact t.nodes_pos
  child_bounds i hi c hc := by
    rw [Array.size_mapIdx] at hi ⊢
    rw [Array.getElem_mapIdx] at hc
    exact h i _ (Array.getElem?_eq_getElem hi) c hc

/-- The bounds on children, for a node found by its number. -/
theorem bounds_of_getElem? {t : NodeTable} {i : Nat} {n : TableNode} (hn : t.nodes[i]? = some n)
    {c : Nat} (hc : c ∈ n.children) : i ≤ c ∧ c < t.size := by
  obtain ⟨hi, rfl⟩ := Array.getElem?_eq_some_iff.1 hn
  exact t.child_bounds i hi c hc

/-- Gives every node the label that `f` computes from its number and its label. -/
def relabel (t : NodeTable) (f : Nat → Symbol → Symbol) : NodeTable :=
  t.mapNodes (fun i n => { n with symbol := f i n.symbol })
    (fun _ _ hn _ hc => bounds_of_getElem? hn hc)

/-- Gives a node a new label. -/
def relabelNode (t : NodeTable) (i : Nat) (s : Symbol) : Except Fault NodeTable :=
  if i < t.size then .ok (t.relabel fun j old => if j = i then s else old)
  else .error .noSuchNode

/-- Adds a new last child to a node; the answer holds its number. The new node is there first, so
its own number passes for a parent too. -/
def addChild (t : NodeTable) (parent : Nat) (s : Symbol) : Except Fault (NodeTable × Nat) :=
  if h : parent ≤ t.size then
    let extended : NodeTable :=
      { nodes := t.nodes.push ⟨s, [], none⟩
        nodes_pos := by rw [Array.size_push]; omega
        child_bounds := by
          intro i hi c hc
          rw [Array.size_push]
          rw [Array.getElem_push] at hc
          split at hc
          · next hlt =>
            have := t.child_bounds i hlt c hc
            omega
          · simp at hc }
    have hsize : extended.size = t.size + 1 := Array.size_push _
    .ok (extended.mapNodes
      (fun i n => if i = parent then { n with children := n.children ++ [t.size] } else n)
      (by
        intro i n hn c hc
        split at hc
        · next heq =>
          rcases List.mem_append.1 hc with hc | hc
          · exact bounds_of_getElem? hn hc
          · rw [List.mem_singleton] at hc
            omega
        · exact bounds_of_getElem? hn hc), t.size)
  else .error .noSuchNode

/-- Links every node below the root to its parent; the root has none. -/
def linkParents (t : NodeTable) : NodeTable :=
  let parents : Std.TreeMap Nat Nat :=
    .ofList (t.preorder.flatMap fun i => (t.children i).map fun c => (c, i))
  t.mapNodes
    (fun i n =>
      if i = root then { n with parent := none }
      else
        match parents[i]? with
        | some p => { n with parent := some p }
        | none => n)
    (by
      intro i n hn c hc
      apply bounds_of_getElem? hn
      split at hc
      · exact hc
      · split at hc <;> exact hc)

/-- The children of a node with every helper that has children replaced by what replaces its
own. -/
def splicedChildren (t : NodeTable) (isHelper : Symbol → Bool) (i : Nat) : List Nat :=
  (t.below i).attach.flatMap fun c =>
    if isHelper (t.symbol c.1) then
      match t.splicedChildren isHelper c.1 with
      | [] => [c.1]
      | below => below
    else [c.1]
termination_by t.size - i
decreasing_by have := lt_of_mem_below c.2; omega

/-- What replaces the children of a node are nodes that do not come before it. -/
theorem bounds_of_mem_splicedChildren (t : NodeTable) (isHelper : Symbol → Bool) (i : Nat) :
    ∀ c ∈ t.splicedChildren isHelper i, i ≤ c ∧ c < t.size := by
  intro d hd
  rw [splicedChildren, List.mem_flatMap] at hd
  obtain ⟨c, -, hd⟩ := hd
  have hc := lt_of_mem_below c.2
  split at hd
  · split at hd
    · rw [List.mem_singleton] at hd
      omega
    · have := bounds_of_mem_splicedChildren t isHelper c.1 d hd
      omega
  · rw [List.mem_singleton] at hd
    omega
termination_by t.size - i

/-- Takes every helper that has children out of the tree below the root; its children stand in
its place. -/
def spliceHelpers (t : NodeTable) (isHelper : Symbol → Bool) : NodeTable :=
  let reached : Std.TreeSet Nat := .ofList t.preorder
  t.mapNodes
    (fun i n =>
      if reached.contains i then { n with children := t.splicedChildren isHelper i } else n)
    (by
      intro i n hn c hc
      split at hc
      · exact bounds_of_mem_splicedChildren t isHelper i c hc
      · exact bounds_of_getElem? hn hc)

/-- Puts the given words on the leaves that stand for a number or for a rare word; leaves and
words correspond by position. -/
def restoreWords (t : NodeTable) (sentence : List String) : NodeTable :=
  let byLeaf : Std.TreeMap Nat String := .ofList (t.leaves.zip sentence)
  t.relabel fun i s =>
    if s == .number || s == .rare then
      match byLeaf[i]? with
      | some word => ⟨word⟩
      | none => s
    else s

end NodeTable

end Constituency
