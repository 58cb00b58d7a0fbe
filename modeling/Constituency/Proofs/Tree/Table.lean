import Constituency.Proofs.Tree.Reshaping
import Constituency.Tree.NodeTable
import Mathlib.Data.List.Basic

/-!
# The tree behind a table

The table of a tree stands for that tree, and each change that the parser makes
to a table is a change of the tree it stands for: splicing helpers out is
`Tree.splice`, links to parents change nothing, and restoring words is
`Tree.restoreWords`. The invariant is that the numbers below the root occur once
each and grow from parent to child; `Proper` states it.
-/

namespace Constituency

namespace Tree

variable {α β : Type}

/-- The labels of a list of trees, tree by tree. -/
def labelsAll (cs : List (Tree α)) : List α :=
  (subtreesAll cs).map label

/-- The labels of a node are its own and those below. -/
theorem labels_node (a : α) (cs : List (Tree α)) : (node a cs).labels = a :: labelsAll cs := by
  rw [labels, subtrees, List.map_cons, label, labelsAll]

/-- The labels of a list of trees stand tree by tree. -/
theorem labelsAll_cons (c : Tree α) (cs : List (Tree α)) :
    labelsAll (c :: cs) = c.labels ++ labelsAll cs := by
  rw [labelsAll, subtreesAll, List.map_append, ← labels, ← labelsAll]

/-- The labels of two lists of trees stand list by list. -/
theorem labelsAll_append (cs ds : List (Tree α)) :
    labelsAll (cs ++ ds) = labelsAll cs ++ labelsAll ds := by
  induction cs with
  | nil => rfl
  | cons c cs ih => rw [List.cons_append, labelsAll_cons, labelsAll_cons, ih, List.append_assoc]

/-- The labels of a list of trees are those of its members. -/
theorem mem_labelsAll {a : α} {cs : List (Tree α)} :
    a ∈ labelsAll cs ↔ ∃ c ∈ cs, a ∈ c.labels := by
  induction cs with
  | nil => simp [labelsAll, subtreesAll]
  | cons c cs ih => simp [labelsAll_cons, ih]

mutual

/-- The subtrees of a subtree are subtrees. -/
theorem subtrees_subset {u t : Tree α} (h : u ∈ t.subtrees) : u.subtrees ⊆ t.subtrees := by
  cases t with
  | node a cs =>
    rw [subtrees, List.mem_cons] at h
    rcases h with rfl | h
    · exact fun _ hv => hv
    · rw [subtrees]
      exact fun v hv => List.mem_cons_of_mem _ (subtreesAll_subset h hv)

/-- The subtrees of a subtree of a list are subtrees of the list. -/
theorem subtreesAll_subset {u : Tree α} {cs : List (Tree α)} (h : u ∈ subtreesAll cs) :
    u.subtrees ⊆ subtreesAll cs := by
  cases cs with
  | nil => cases h
  | cons c cs =>
    rw [subtreesAll, List.mem_append] at h
    rw [subtreesAll]
    rcases h with h | h
    · exact fun v hv => List.mem_append_left _ (subtrees_subset h hv)
    · exact fun v hv => List.mem_append_right _ (subtreesAll_subset h hv)

end

mutual

/-- The words are the labels of the subtrees that are leaves. -/
theorem words_eq_leaves (t : Tree α) : t.words = (t.subtrees.filter isLeaf).map label := by
  match t with
  | .node a [] => rfl
  | .node a (c :: cs) =>
    rw [words, subtrees, List.filter_cons_of_neg (by simp [isLeaf, children]), subtreesAll,
      List.filter_append, List.map_append, words_eq_leaves c, wordsAll_eq_leaves cs]

/-- The words of a list of trees are the labels of the subtrees that are leaves. -/
theorem wordsAll_eq_leaves (cs : List (Tree α)) :
    wordsAll cs = ((subtreesAll cs).filter isLeaf).map label := by
  match cs with
  | [] => rfl
  | c :: cs =>
    rw [wordsAll, subtreesAll, List.filter_append, List.map_append, words_eq_leaves c,
      wordsAll_eq_leaves cs]

end

mutual

/-- What stands in the place of a tree has the labels of its leaves and of what is not marked. -/
theorem labelsAll_replaced (marked : α → Bool) (t : Tree α) :
    labelsAll (t.replaced marked) =
      (t.subtrees.filter fun u => u.isLeaf || !marked u.label).map label := by
  cases t with
  | node a cs =>
    have below := labelsAll_spliceAll marked cs
    rw [replaced, subtrees, List.filter_cons, isLeaf, children, label]
    cases cs.isEmpty <;> cases marked a <;>
      simp [below, labelsAll_cons, labels_node, label,
        show labelsAll ([] : List (Tree α)) = [] from rfl]

/-- A spliced list has the labels of its leaves and of what is not marked. -/
theorem labelsAll_spliceAll (marked : α → Bool) (cs : List (Tree α)) :
    labelsAll (spliceAll marked cs) =
      ((subtreesAll cs).filter fun u => u.isLeaf || !marked u.label).map label := by
  cases cs with
  | nil => rfl
  | cons c cs =>
    rw [spliceAll, subtreesAll, labelsAll_append, List.filter_append, List.map_append,
      labelsAll_replaced marked c, labelsAll_spliceAll marked cs]

end

/-- A spliced tree has some of the labels, in order. -/
theorem labels_splice_sublist (marked : α → Bool) (t : Tree α) :
    (t.splice marked).labels.Sublist t.labels := by
  cases t with
  | node a cs =>
    rw [splice, labels_node, labels_node, labelsAll_spliceAll]
    exact (List.filter_sublist.map label).cons_cons a

mutual

/-- Splicing and relabelling may change places. -/
theorem mapAll_replaced (f : α → β) (marked : β → Bool) (t : Tree α) :
    mapAll f (t.replaced fun a => marked (f a)) = (t.map f).replaced marked := by
  cases t with
  | node a cs =>
    have below := mapAll_spliceAll f marked cs
    have empty : (mapAll f cs).isEmpty = cs.isEmpty := by cases cs <;> rfl
    rw [replaced, map, replaced, empty]
    split
    · exact below
    · rw [mapAll, mapAll, map, below]

/-- Splicing and relabelling a list may change places. -/
theorem mapAll_spliceAll (f : α → β) (marked : β → Bool) (cs : List (Tree α)) :
    mapAll f (spliceAll (fun a => marked (f a)) cs) = spliceAll marked (mapAll f cs) := by
  cases cs with
  | nil => rfl
  | cons c cs =>
    rw [spliceAll, mapAll_eq_map, List.map_append, ← mapAll_eq_map, ← mapAll_eq_map,
      mapAll_replaced f marked c, mapAll_spliceAll f marked cs, mapAll, spliceAll]

end

/-- Splicing commutes with relabelling. -/
theorem map_splice (f : α → β) (marked : β → Bool) (t : Tree α) :
    (t.splice fun a => marked (f a)).map f = (t.map f).splice marked := by
  cases t with
  | node a cs => rw [splice, map, map, splice, mapAll_spliceAll]

/-- Relabelling relabels the root. -/
theorem label_map (f : α → β) (t : Tree α) : (t.map f).label = f t.label := by
  cases t with
  | node a cs => rfl

/-- Relabelling keeps leaves and inner nodes. -/
theorem isLeaf_map (f : α → β) (t : Tree α) : (t.map f).isLeaf = t.isLeaf := by
  match t with
  | .node a [] => rfl
  | .node a (c :: cs) => rfl

mutual

/-- Relabelling relabels the words. -/
theorem words_map (f : α → β) (t : Tree α) : (t.map f).words = t.words.map f := by
  match t with
  | .node a [] => rfl
  | .node a (c :: cs) =>
    rw [map, mapAll, words, words, List.map_append, words_map f c, wordsAll_mapAll f cs]

/-- Relabelling a list relabels the words. -/
theorem wordsAll_mapAll (f : α → β) (cs : List (Tree α)) :
    wordsAll (mapAll f cs) = (wordsAll cs).map f := by
  match cs with
  | [] => rfl
  | c :: cs => rw [mapAll, wordsAll, wordsAll, List.map_append, words_map f c, wordsAll_mapAll f cs]

end

mutual

/-- Relabelling looks at the labels of the tree only. -/
theorem map_congr {f g : α → β} {t : Tree α} (h : ∀ a ∈ t.labels, f a = g a) :
    t.map f = t.map g := by
  cases t with
  | node a cs =>
    rw [labels_node] at h
    rw [map, map, h a List.mem_cons_self,
      mapAll_congr fun b hb => h b (List.mem_cons_of_mem a hb)]

/-- Relabelling a list looks at the labels of its trees only. -/
theorem mapAll_congr {f g : α → β} {cs : List (Tree α)} (h : ∀ a ∈ labelsAll cs, f a = g a) :
    mapAll f cs = mapAll g cs := by
  cases cs with
  | nil => rfl
  | cons c cs =>
    rw [labelsAll_cons] at h
    rw [mapAll, mapAll, map_congr fun a ha => h a (List.mem_append_left _ ha),
      mapAll_congr fun a ha => h a (List.mem_append_right _ ha)]

end

mutual

/-- A tree whose leaves are relabelled by the words at their places, and whose inner nodes keep
their labels, is restored. -/
theorem map_restoreWord (f : α → Symbol) (word? : α → Option String) (sentence : List String)
    (t : Tree α) (leaves : ∀ (k : Nat) a, t.words[k]? = some a → word? a = sentence[k]?)
    (inner : ∀ u ∈ t.subtrees, u.isLeaf = false → word? u.label = none) :
    t.map (fun a => restoreWord (f a) (word? a)) = (t.map f).restoreWords sentence := by
  match t with
  | .node a [] =>
    have here := leaves 0 a rfl
    rw [map, map, mapAll, mapAll, restoreWords, here, List.head?_eq_getElem?]
  | .node a (c :: cs) =>
    have here : word? a = none :=
      inner (.node a (c :: cs)) (by rw [subtrees]; exact List.mem_cons_self) rfl
    have below := mapAll_restoreWord f word? sentence (c :: cs)
      (fun k b hk => leaves k b (by rwa [words_node (List.cons_ne_nil c cs)]))
      (fun u hu => inner u (by rw [subtrees]; exact List.mem_cons_of_mem _ hu))
    rw [mapAll, mapAll, restoreWordsAll] at below
    rw [map, map, mapAll, mapAll, restoreWords, here, restoreWord_none, below]

/-- Trees whose leaves are relabelled by the words at their places are restored. -/
theorem mapAll_restoreWord (f : α → Symbol) (word? : α → Option String) (sentence : List String)
    (cs : List (Tree α))
    (leaves : ∀ (k : Nat) a, (wordsAll cs)[k]? = some a → word? a = sentence[k]?)
    (inner : ∀ u ∈ subtreesAll cs, u.isLeaf = false → word? u.label = none) :
    mapAll (fun a => restoreWord (f a) (word? a)) cs =
      restoreWordsAll sentence (mapAll f cs) := by
  match cs with
  | [] => rfl
  | c :: cs =>
    rw [subtreesAll] at inner
    rw [wordsAll] at leaves
    have first := map_restoreWord f word? sentence c
      (fun k b hk => leaves k b (by
        rw [List.getElem?_append_left (List.getElem?_eq_some_iff.mp hk).1, hk]))
      (fun u hu => inner u (List.mem_append_left _ hu))
    have rest := mapAll_restoreWord f word? (sentence.drop c.words.length) cs
      (fun k b hk => by
        rw [List.getElem?_drop]
        exact leaves _ b (by
          rw [List.getElem?_append_right (Nat.le_add_right _ _), Nat.add_sub_cancel_left, hk]))
      (fun u hu => inner u (List.mem_append_right _ hu))
    rw [mapAll, mapAll, restoreWordsAll, first, rest, words_map, List.length_map]

end

end Tree

namespace NodeTable

/-! ## Numbered trees -/

mutual

/-- The numbers of the nodes of a tree that is laid out from `first` on. -/
def numbered (first : Nat) : Tree Symbol → Tree Nat
  | .node _ cs => .node first (numberedAll (first + 1) cs)

/-- The numbers of the nodes of trees that are laid out one behind the other. -/
def numberedAll (first : Nat) : List (Tree Symbol) → List (Tree Nat)
  | [] => []
  | c :: cs => numbered first c :: numberedAll (first + c.size) cs

end

mutual

/-- A tree laid out from `first` on takes the numbers from there on. -/
theorem labels_numbered (first : Nat) (t : Tree Symbol) :
    (numbered first t).labels = List.range' first t.size := by
  cases t with
  | node a cs =>
    rw [numbered, Tree.labels_node, labelsAll_numberedAll, Tree.size, Nat.add_comm 1,
      List.range'_succ]

/-- Trees laid out from `first` on take the numbers from there on. -/
theorem labelsAll_numberedAll (first : Nat) (cs : List (Tree Symbol)) :
    Tree.labelsAll (numberedAll first cs) = List.range' first (Tree.sizeAll cs) := by
  cases cs with
  | nil => rfl
  | cons c cs =>
    rw [numberedAll, Tree.labelsAll_cons, labels_numbered, labelsAll_numberedAll, Tree.sizeAll,
      List.range'_append_1]

end

/-- A table holds a list of nodes from number `first` on. -/
def Holds (t : NodeTable) (first : Nat) (nodes : List TableNode) : Prop :=
  ∀ (k : Nat) n, nodes[k]? = some n → t.nodes[first + k]? = some n

/-- The later part of a list that is held is held behind the earlier one. -/
theorem Holds.behind {t : NodeTable} {first : Nat} {front back : List TableNode}
    (h : t.Holds first (front ++ back)) : t.Holds (first + front.length) back := by
  intro k n hk
  have := h (front.length + k) n (by
    rw [List.getElem?_append_right (Nat.le_add_right _ _), Nat.add_sub_cancel_left, hk])
  rwa [Nat.add_assoc]

/-- The earlier part of a list that is held is held. -/
theorem Holds.front {t : NodeTable} {first : Nat} {front back : List TableNode}
    (h : t.Holds first (front ++ back)) : t.Holds first front := by
  intro k n hk
  refine h k n ?_
  rw [List.getElem?_append_left (List.getElem?_eq_some_iff.mp hk).1, hk]

mutual

/-- Where a table holds the layout of a tree, its shape is the numbering of that tree and its
labels are those of the tree. -/
theorem shapeFrom_of_holds {t : NodeTable} {first : Nat} {u : Tree Symbol}
    (h : t.Holds first (layout first u)) :
    t.shapeFrom first = numbered first u ∧ (numbered first u).map t.symbol = u := by
  cases u with
  | node a cs =>
    rw [layout] at h
    have root : t.nodes[first]? = some ⟨a, startsFrom (first + 1) cs, none⟩ := h 0 _ rfl
    have whole : t.Holds first
        ([⟨a, startsFrom (first + 1) cs, none⟩] ++ layoutAll (first + 1) cs) := h
    have behind : t.Holds (first + 1) (layoutAll (first + 1) cs) := whole.behind
    obtain ⟨shape, labels⟩ := shapesFrom_of_holds behind
    have children : t.children first = startsFrom (first + 1) cs := by
      rw [NodeTable.children, root]
    have symbol : t.symbol first = a := by rw [NodeTable.symbol, root]
    have below : t.below first = startsFrom (first + 1) cs := by
      rw [NodeTable.below, children, List.filter_eq_self]
      intro c hc
      have := mem_startsFrom hc
      exact decide_eq_true (by omega)
    constructor
    · rw [shapeFrom_eq, below, shape, numbered]
    · rw [numbered, Tree.map, labels, symbol]

/-- Where a table holds the layout of trees, its shapes are the numberings of those trees. -/
theorem shapesFrom_of_holds {t : NodeTable} {first : Nat} {cs : List (Tree Symbol)}
    (h : t.Holds first (layoutAll first cs)) :
    (startsFrom first cs).map t.shapeFrom = numberedAll first cs ∧
      Tree.mapAll t.symbol (numberedAll first cs) = cs := by
  cases cs with
  | nil => exact ⟨rfl, rfl⟩
  | cons c cs =>
    rw [layoutAll] at h
    have behind := h.behind
    rw [length_layout] at behind
    obtain ⟨shape, labels⟩ := shapeFrom_of_holds h.front
    obtain ⟨shapes, labelsRest⟩ := shapesFrom_of_holds behind
    constructor
    · rw [startsFrom, List.map_cons, shape, shapes, numberedAll]
    · rw [numberedAll, Tree.mapAll, labels, labelsRest]

end

/-- The table of a tree holds its layout. -/
theorem holds_ofTree (u : Tree Symbol) : (ofTree u).Holds root (layout root u) := by
  intro k n hk
  rw [ofTree, show root + k = k from Nat.zero_add k, List.getElem?_toArray]
  exact hk

/-- The table of a tree stands for that tree. -/
theorem toTree_ofTree (u : Tree Symbol) : (ofTree u).toTree = u := by
  obtain ⟨shape, labels⟩ := shapeFrom_of_holds (holds_ofTree u)
  rw [toTree, NodeTable.shape, shape, labels]

/-! ## Numbers below the root -/

/-- Visiting a stack lists the labels of its shapes. -/
theorem visit_eq_labelsAll (t : NodeTable) (stack : List Nat) :
    t.visit stack = Tree.labelsAll (stack.map t.shapeFrom) := by
  fun_induction visit t stack with
  | case1 => rfl
  | case2 i rest ih =>
    rw [ih, List.map_append, Tree.labelsAll_append, List.map_cons, Tree.labelsAll_cons,
      shapeFrom_eq, Tree.labels_node, List.cons_append]

/-- The numbers below the root are the labels of the shape. -/
theorem preorder_eq_labels (t : NodeTable) : t.preorder = t.shape.labels := by
  rw [preorder, visit_eq_labelsAll, List.map_cons, List.map_nil, Tree.labelsAll_cons, shape,
    show Tree.labelsAll ([] : List (Tree Nat)) = [] from rfl, List.append_nil]

/-- A table is proper when every number below the root occurs once and is less than the numbers of
its children. -/
structure Proper (t : NodeTable) : Prop where
  /-- Every number occurs once. -/
  nodup : t.preorder.Nodup
  /-- Children come later. -/
  later : ∀ i ∈ t.preorder, ∀ c ∈ t.children i, i < c

/-- The children below a node are its children, where they come later. -/
theorem below_eq_children {t : NodeTable} {i : Nat} (h : ∀ c ∈ t.children i, i < c) :
    t.below i = t.children i := by
  rw [below, List.filter_eq_self]
  exact fun c hc => decide_eq_true (h c hc)

/-- Every subtree of a shape is the shape from its own number. -/
theorem eq_shapeFrom_of_mem_subtrees (t : NodeTable) (i : Nat) {u : Tree Nat}
    (hu : u ∈ (t.shapeFrom i).subtrees) : u = t.shapeFrom u.label := by
  rw [shapeFrom_eq, Tree.subtrees, List.mem_cons, Tree.mem_subtreesAll] at hu
  rcases hu with rfl | ⟨v, hv, hu⟩
  · rw [Tree.label, shapeFrom_eq]
  · obtain ⟨c, hc, rfl⟩ := List.mem_map.mp hv
    exact eq_shapeFrom_of_mem_subtrees t c hu
termination_by t.size - i
decreasing_by have := lt_of_mem_below hc; omega

/-- A shape has the number that it starts from at its root. -/
theorem label_shapeFrom (t : NodeTable) (i : Nat) : (t.shapeFrom i).label = i := by
  rw [shapeFrom_eq, Tree.label]

/-- The number at the root of a subtree of the shape is below the root. -/
theorem label_mem_preorder {t : NodeTable} {u : Tree Nat} (hu : u ∈ t.shape.subtrees) :
    u.label ∈ t.preorder := by
  rw [preorder_eq_labels]
  exact List.mem_map_of_mem hu

/-- The numbers below a node below the root are below the root. -/
theorem labels_shapeFrom_subset {t : NodeTable} {i : Nat} (hi : i ∈ t.preorder) :
    (t.shapeFrom i).labels ⊆ t.preorder := by
  rw [preorder_eq_labels] at hi ⊢
  obtain ⟨u, hu, rfl⟩ := List.mem_map.mp hi
  rw [← eq_shapeFrom_of_mem_subtrees t root hu]
  exact List.map_subset _ (Tree.subtrees_subset hu)

/-- A child below a node below the root is below the root. -/
theorem mem_preorder_of_mem_below {t : NodeTable} {i c : Nat} (hi : i ∈ t.preorder)
    (hc : c ∈ t.below i) : c ∈ t.preorder := by
  apply labels_shapeFrom_subset hi
  rw [shapeFrom_eq, Tree.labels_node]
  refine List.mem_cons_of_mem i ?_
  rw [Tree.mem_labelsAll]
  exact ⟨t.shapeFrom c, List.mem_map_of_mem hc, by
    rw [shapeFrom_eq, Tree.labels_node]; exact List.mem_cons_self⟩

/-- The numbers below the root are numbers of nodes. -/
theorem lt_size_of_mem_preorder {t : NodeTable} {i : Nat} (hi : i ∈ t.preorder) : i < t.size := by
  have inside : ∀ j, j < t.size → ∀ k ∈ (t.shapeFrom j).labels, k < t.size := by
    intro j hj
    induction hd : t.size - j using Nat.strongRecOn generalizing j with
    | _ d ih =>
      intro k hk
      rw [shapeFrom_eq, Tree.labels_node, List.mem_cons, Tree.mem_labelsAll] at hk
      rcases hk with rfl | ⟨u, hu, hk⟩
      · exact hj
      · obtain ⟨c, hc, rfl⟩ := List.mem_map.mp hu
        have bounds := lt_of_mem_below hc
        exact ih (t.size - c) (by omega) c bounds.2 rfl k hk
  rw [preorder_eq_labels] at hi
  exact inside root t.nodes_pos i hi

/-- The root is below the root. -/
theorem root_mem_preorder (t : NodeTable) : root ∈ t.preorder := by
  rw [preorder_eq_labels, shape, shapeFrom_eq, Tree.labels_node]
  exact List.mem_cons_self

/-- In a proper table a node is a leaf exactly when its shape is. -/
theorem Proper.isLeaf_eq {t : NodeTable} (h : t.Proper) {i : Nat} (hi : i ∈ t.preorder) :
    t.isLeaf i = (t.shapeFrom i).isLeaf := by
  rw [shapeFrom_eq, Tree.isLeaf, Tree.children, isLeaf, below_eq_children (h.later i hi),
    List.isEmpty_map]

/-- In a proper table a subtree of the shape is a leaf exactly when the node at its root is. -/
theorem Proper.isLeaf_label {t : NodeTable} (h : t.Proper) {u : Tree Nat}
    (hu : u ∈ t.shape.subtrees) : t.isLeaf u.label = u.isLeaf := by
  rw [h.isLeaf_eq (label_mem_preorder hu), ← eq_shapeFrom_of_mem_subtrees t root hu]

/-- In a proper table the leaves are the words of the shape. -/
theorem Proper.leaves_eq {t : NodeTable} (h : t.Proper) : t.leaves = t.shape.words := by
  rw [leaves, preorder_eq_labels, Tree.words_eq_leaves, Tree.labels, List.filter_map]
  congr 1
  exact List.filter_congr fun u hu => h.isLeaf_label hu

/-- In a proper table the words are those of the tree. -/
theorem Proper.words_eq {t : NodeTable} (h : t.Proper) : t.words = t.toTree.words := by
  rw [words, h.leaves_eq, toTree, Tree.words_map]

/-- The label of the root is that of the tree. -/
theorem symbol_root (t : NodeTable) : t.symbol root = t.toTree.label := by
  rw [toTree, shape, shapeFrom_eq]
  rfl

/-- The nodes of a tree laid out stand in the order of their numbers. -/
theorem preorder_ofTree (u : Tree Symbol) : (ofTree u).preorder = List.range' root u.size := by
  rw [preorder_eq_labels, shape, (shapeFrom_of_holds (holds_ofTree u)).1, labels_numbered]

/-- The numbers of a tree laid out are proper. -/
theorem proper_ofTree (u : Tree Symbol) : (ofTree u).Proper := by
  constructor
  · rw [preorder_ofTree]
    exact List.nodup_range'
  · intro i _ c hc
    rw [NodeTable.children] at hc
    split at hc
    · next n hn =>
      rw [ofTree, List.getElem?_toArray] at hn
      have := bounds_layout root u i n hn c hc
      rw [root] at this
      omega
    · cases hc

/-! ## Changing nodes -/

/-- A change of every node shows at each number. -/
theorem getElem?_mapNodes (t : NodeTable) (change : Nat → TableNode → TableNode)
    (h : ∀ i n, t.nodes[i]? = some n → ∀ c ∈ (change i n).children, i ≤ c ∧ c < t.size) (i : Nat) :
    (t.mapNodes change h).nodes[i]? = t.nodes[i]?.map (change i) := by
  rw [mapNodes, Array.getElem?_mapIdx]

/-- Tables with the same nodes up to labels and parents have the same shape. -/
theorem shapeFrom_congr {t u : NodeTable} (h : ∀ i, u.children i = t.children i) (i : Nat) :
    u.shapeFrom i = t.shapeFrom i := by
  have same : u.below i = t.below i := by rw [below, below, h]
  rw [shapeFrom_eq, shapeFrom_eq, same]
  congr 1
  exact List.map_congr_left fun c hc => shapeFrom_congr h c
termination_by t.size - i
decreasing_by have := lt_of_mem_below hc; omega

/-- Tables with the same children have the same numbers below the root, in order. -/
theorem preorder_congr {t u : NodeTable} (same : ∀ i, u.children i = t.children i) :
    u.preorder = t.preorder := by
  rw [preorder_eq_labels, preorder_eq_labels, shape, shape, shapeFrom_congr same]

/-- A proper table stays proper when its children stay. -/
theorem Proper.of_children {t u : NodeTable} (h : t.Proper)
    (same : ∀ i, u.children i = t.children i) : u.Proper := by
  have order := preorder_congr same
  constructor
  · rw [order]
    exact h.nodup
  · rw [order]
    intro i hi c hc
    rw [same] at hc
    exact h.later i hi c hc

/-- Linking parents keeps the children. -/
theorem children_linkParents (t : NodeTable) (i : Nat) :
    t.linkParents.children i = t.children i := by
  rw [NodeTable.children, NodeTable.children, linkParents, getElem?_mapNodes]
  cases t.nodes[i]? with
  | none => rfl
  | some n =>
    rw [Option.map_some]
    dsimp only
    split
    · rfl
    · split <;> rfl

/-- Linking parents keeps the labels. -/
theorem symbol_linkParents (t : NodeTable) (i : Nat) : t.linkParents.symbol i = t.symbol i := by
  rw [NodeTable.symbol, NodeTable.symbol, linkParents, getElem?_mapNodes]
  cases t.nodes[i]? with
  | none => rfl
  | some n =>
    rw [Option.map_some]
    dsimp only
    split
    · rfl
    · split <;> rfl

/-- Linking parents keeps the tree. -/
theorem toTree_linkParents (t : NodeTable) : t.linkParents.toTree = t.toTree := by
  rw [toTree, toTree, shape, shape, shapeFrom_congr t.children_linkParents,
    funext t.symbol_linkParents]

/-! ## Splicing helpers out -/

section Splicing

variable (t : NodeTable) (isHelper : Symbol → Bool)

/-- Splicing keeps the labels. -/
theorem symbol_spliceHelpers (i : Nat) : (t.spliceHelpers isHelper).symbol i = t.symbol i := by
  rw [NodeTable.symbol, NodeTable.symbol, spliceHelpers, getElem?_mapNodes]
  cases t.nodes[i]? with
  | none => rfl
  | some n =>
    rw [Option.map_some]
    dsimp only
    split <;> rfl

/-- The children after splicing, child by child. -/
theorem splicedChildren_eq (i : Nat) :
    t.splicedChildren isHelper i = (t.below i).flatMap fun c =>
      if isHelper (t.symbol c) && !(t.splicedChildren isHelper c).isEmpty
      then t.splicedChildren isHelper c else [c] := by
  rw [splicedChildren]
  refine (List.flatMap_subtype fun c _ => ?_).trans (congrArg (List.flatMap _) List.unattach_attach)
  cases isHelper (t.symbol c) with
  | false => rfl
  | true => cases t.splicedChildren isHelper c <;> rfl

/-- What replaces the children of a node comes after it. -/
theorem lt_of_mem_splicedChildren {i c : Nat} (h : c ∈ t.splicedChildren isHelper i) : i < c := by
  rw [splicedChildren_eq, List.mem_flatMap] at h
  obtain ⟨d, hd, hc⟩ := h
  have hlt := (lt_of_mem_below hd).1
  split at hc
  · have := (bounds_of_mem_splicedChildren t isHelper d c hc).1
    omega
  · rw [List.mem_singleton] at hc
    omega

/-- Below the root every node has its spliced children. -/
theorem children_spliceHelpers {i : Nat} (hi : i ∈ t.preorder) :
    (t.spliceHelpers isHelper).children i = t.splicedChildren isHelper i := by
  have reached : (Std.TreeSet.ofList t.preorder).contains i = true := by
    rw [Std.TreeSet.contains_ofList, List.contains_iff_mem]
    exact hi
  rw [NodeTable.children, spliceHelpers, getElem?_mapNodes]
  cases hn : t.nodes[i]? with
  | none =>
    have none_below : t.below i = [] := by rw [below, NodeTable.children, hn]; rfl
    rw [splicedChildren_eq, none_below]
    rfl
  | some n =>
    rw [Option.map_some]
    dsimp only
    rw [if_pos reached]

/-- Below the root, the spliced children have the spliced shapes. -/
theorem shapes_spliceHelpers {i : Nat} (hi : i ∈ t.preorder) :
    (t.splicedChildren isHelper i).map (t.spliceHelpers isHelper).shapeFrom =
      Tree.spliceAll (fun j => isHelper (t.symbol j)) ((t.below i).map t.shapeFrom) := by
  rw [splicedChildren_eq, List.map_flatMap, Tree.spliceAll_eq_flatMap, List.flatMap_map]
  refine List.flatMap_congr fun c hc => ?_
  have mem := mem_preorder_of_mem_below hi hc
  have inside := shapes_spliceHelpers mem
  have below : (t.spliceHelpers isHelper).below c = t.splicedChildren isHelper c := by
    rw [below_eq_children, children_spliceHelpers t isHelper mem]
    rw [children_spliceHelpers t isHelper mem]
    exact fun d hd => t.lt_of_mem_splicedChildren isHelper hd
  have empty : (t.splicedChildren isHelper c).isEmpty = ((t.below c).map t.shapeFrom).isEmpty := by
    rw [← Tree.isEmpty_spliceAll (fun j => isHelper (t.symbol j)), ← inside, List.isEmpty_map]
  rw [shapeFrom_eq t c, Tree.replaced, empty]
  split
  · exact inside
  · rw [List.map_singleton, shapeFrom_eq, below, inside]
termination_by t.size - i
decreasing_by have := lt_of_mem_below hc; omega

/-- Splicing helpers out of a table splices them out of its shape. -/
theorem shape_spliceHelpers :
    (t.spliceHelpers isHelper).shape = t.shape.splice fun j => isHelper (t.symbol j) := by
  have mem := t.root_mem_preorder
  have below : (t.spliceHelpers isHelper).below root = t.splicedChildren isHelper root := by
    rw [below_eq_children, children_spliceHelpers t isHelper mem]
    rw [children_spliceHelpers t isHelper mem]
    exact fun d hd => t.lt_of_mem_splicedChildren isHelper hd
  rw [shape, shape, shapeFrom_eq, below, shapes_spliceHelpers t isHelper mem, shapeFrom_eq t root,
    Tree.splice]

/-- Splicing helpers out of a table splices them out of its tree. -/
theorem toTree_spliceHelpers : (t.spliceHelpers isHelper).toTree = t.toTree.splice isHelper := by
  rw [toTree, toTree, shape_spliceHelpers, ← Tree.map_splice,
    funext (t.symbol_spliceHelpers isHelper)]

/-- A proper table stays proper when helpers are spliced out. -/
theorem Proper.spliceHelpers {t : NodeTable} (h : t.Proper) :
    (t.spliceHelpers isHelper).Proper := by
  have sub : (t.spliceHelpers isHelper).preorder.Sublist t.preorder := by
    rw [preorder_eq_labels, preorder_eq_labels, shape_spliceHelpers]
    exact Tree.labels_splice_sublist _ _
  constructor
  · exact h.nodup.sublist sub
  · intro i hi c hc
    rw [children_spliceHelpers t isHelper (sub.subset hi)] at hc
    exact t.lt_of_mem_splicedChildren isHelper hc

end Splicing

section Linked

variable (isHelper : Symbol → Bool) (u : Tree Symbol)

/-- The table of a tree stays proper when helpers are spliced out and parents are linked. -/
theorem proper_linked_ofTree : ((ofTree u).spliceHelpers isHelper).linkParents.Proper :=
  ((proper_ofTree u).spliceHelpers isHelper).of_children (children_linkParents _)

/-- The table of a tree, with helpers spliced out and parents linked, stands for the spliced
tree. -/
theorem toTree_linked_ofTree :
    ((ofTree u).spliceHelpers isHelper).linkParents.toTree = u.splice isHelper := by
  rw [toTree_linkParents, toTree_spliceHelpers, toTree_ofTree]

end Linked

/-! ## Restoring words -/

/-- Restoring words keeps the children. -/
theorem children_restoreWords (t : NodeTable) (sentence : List String) (i : Nat) :
    (t.restoreWords sentence).children i = t.children i := by
  rw [NodeTable.children, NodeTable.children, restoreWords, relabel, getElem?_mapNodes]
  cases t.nodes[i]? <;> rfl

/-- The word that a sentence has for each leaf, by the number of the leaf. -/
def wordsByLeaf (t : NodeTable) (sentence : List String) : Std.TreeMap Nat String :=
  .ofList (t.leaves.zip sentence)

/-- Restoring words restores the label of every node that the words know. -/
theorem symbol_restoreWords (t : NodeTable) (sentence : List String) {i : Nat} (hi : i < t.size) :
    (t.restoreWords sentence).symbol i =
      restoreWord (t.symbol i) (t.wordsByLeaf sentence)[i]? := by
  have hn : t.nodes[i]? = some t.nodes[i] := Array.getElem?_eq_getElem hi
  rw [NodeTable.symbol, NodeTable.symbol, restoreWords, relabel, getElem?_mapNodes, hn,
    Option.map_some]
  dsimp only
  rw [restoreWord, ← wordsByLeaf]
  split
  · cases (t.wordsByLeaf sentence)[i]? <;> rfl
  · rfl

/-- In a map from a list without repeated keys every pair is found. -/
theorem getElem?_ofList_of_nodup {β : Type} {pairs : List (Nat × β)}
    (nodup : (pairs.map Prod.fst).Nodup) {k : Nat} {v : β} (h : (k, v) ∈ pairs) :
    (Std.TreeMap.ofList pairs)[k]? = some v := by
  rw [List.nodup_iff_pairwise_ne, List.pairwise_map] at nodup
  exact Std.TreeMap.getElem?_ofList_of_mem (Std.ReflCmp.compare_self (a := k))
    (nodup.imp fun apart same => apart (Std.LawfulEqCmp.eq_of_compare same)) h

/-- In a map from a list nothing is found for a key that the list does not have. -/
theorem getElem?_ofList_of_not_mem {β : Type} {pairs : List (Nat × β)} {k : Nat}
    (h : ∀ v, (k, v) ∉ pairs) : (Std.TreeMap.ofList pairs)[k]? = none := by
  apply Std.TreeMap.getElem?_ofList_of_contains_eq_false
  rw [Bool.eq_false_iff]
  intro hc
  obtain ⟨⟨_, v⟩, hmem, rfl⟩ := List.mem_map.mp (List.contains_iff_mem.mp hc)
  exact h v hmem

/-- Leaves and words correspond by position. -/
theorem Proper.getElem?_wordsByLeaf {t : NodeTable} (h : t.Proper) (sentence : List String)
    {k i : Nat} (hk : t.shape.words[k]? = some i) :
    (t.wordsByLeaf sentence)[i]? = sentence[k]? := by
  have nodup : t.leaves.Nodup := h.nodup.filter _
  rw [← h.leaves_eq] at hk
  rw [wordsByLeaf]
  cases hw : sentence[k]? with
  | some w =>
    have pair : (i, w) ∈ t.leaves.zip sentence :=
      List.mem_of_getElem? (List.getElem?_zip_eq_some.mpr ⟨hk, hw⟩)
    refine getElem?_ofList_of_nodup ?_ pair
    rw [List.zip_eq_zip_take_min, List.map_fst_zip (by simp)]
    exact nodup.sublist (List.take_sublist _ _)
  | none =>
    refine getElem?_ofList_of_not_mem fun w pair => ?_
    obtain ⟨m, hm⟩ := List.getElem?_of_mem pair
    obtain ⟨at_m, word⟩ := List.getElem?_zip_eq_some.mp hm
    have inside := (List.getElem?_eq_some_iff.mp at_m).1
    have same : m = k := (List.getElem?_inj inside nodup).mp (at_m.trans hk.symm)
    rw [same, hw] at word
    cases word

/-- There is no word for an inner node. -/
theorem getElem?_wordsByLeaf_of_not_mem (t : NodeTable) (sentence : List String) {i : Nat}
    (inner : i ∉ t.leaves) : (t.wordsByLeaf sentence)[i]? = none :=
  getElem?_ofList_of_not_mem fun _ pair => inner (List.of_mem_zip pair).1

/-- Restoring words in a proper table restores them in its tree. -/
theorem Proper.toTree_restoreWords {t : NodeTable} (h : t.Proper) (sentence : List String) :
    (t.restoreWords sentence).toTree = t.toTree.restoreWords sentence := by
  have labels : t.shape.map (t.restoreWords sentence).symbol =
      t.shape.map fun i => restoreWord (t.symbol i) (t.wordsByLeaf sentence)[i]? := by
    refine Tree.map_congr fun i hi => t.symbol_restoreWords sentence ?_
    rw [← preorder_eq_labels] at hi
    exact t.lt_size_of_mem_preorder hi
  rw [toTree, toTree, shape, shapeFrom_congr (t.children_restoreWords sentence), ← shape, labels]
  apply Tree.map_restoreWord
  · exact fun k i hk => h.getElem?_wordsByLeaf sentence hk
  · intro u hu inner
    refine t.getElem?_wordsByLeaf_of_not_mem sentence fun hleaf => ?_
    have leaf := (List.mem_filter.mp hleaf).2
    rw [h.isLeaf_label hu, inner] at leaf
    cases leaf

end NodeTable

end Constituency
