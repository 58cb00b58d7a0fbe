import Constituency.Proofs.Tree.Reshaping
import Mathlib.Data.List.Basic

/-!
# Relabelling leaves and inner nodes

Training relabels leaves, trimming relabels inner nodes. Relabelling leaves goes
through to the words, to the subtrees and through collapsing, and it is undone by
restoring the words whenever each word comes back from its new label.
-/

namespace Constituency.Tree

variable {α : Type}

mutual

/-- Relabels the inner nodes. -/
def mapInner (f : α → α) : Tree α → Tree α
  | .node a [] => .node a []
  | .node a (c :: cs) => .node (f a) (c.mapInner f :: mapInnerAll f cs)

/-- Relabels the inner nodes of a list of trees. -/
def mapInnerAll (f : α → α) : List (Tree α) → List (Tree α)
  | [] => []
  | c :: cs => c.mapInner f :: mapInnerAll f cs

end

/-- The labels of the inner nodes, parents before children. -/
def innerLabels (t : Tree α) : List α :=
  (t.subtrees.filter (!·.isLeaf)).map label

/-! ## Nodes -/

/-- The companion of `mapLeaves` relabels the trees one by one. -/
theorem mapLeavesAll_eq_map (f : α → α) (cs : List (Tree α)) :
    mapLeavesAll f cs = cs.map (mapLeaves f) := by
  induction cs with
  | nil => rfl
  | cons c cs ih => rw [mapLeavesAll, ih, List.map_cons]

/-- The companion of `mapInner` relabels the trees one by one. -/
theorem mapInnerAll_eq_map (f : α → α) (cs : List (Tree α)) :
    mapInnerAll f cs = cs.map (mapInner f) := by
  induction cs with
  | nil => rfl
  | cons c cs ih => rw [mapInnerAll, ih, List.map_cons]

/-- An inner node keeps its label when leaves are relabelled. -/
theorem mapLeaves_node (f : α → α) (a : α) {cs : List (Tree α)} (h : cs ≠ []) :
    (node a cs).mapLeaves f = node a (cs.map (mapLeaves f)) := by
  cases cs with
  | nil => exact absurd rfl h
  | cons c cs => rw [mapLeaves, mapLeavesAll_eq_map, List.map_cons]

/-- An inner node gets a new label when inner nodes are relabelled. -/
theorem mapInner_node (f : α → α) (a : α) {cs : List (Tree α)} (h : cs ≠ []) :
    (node a cs).mapInner f = node (f a) (cs.map (mapInner f)) := by
  cases cs with
  | nil => exact absurd rfl h
  | cons c cs => rw [mapInner, mapInnerAll_eq_map, List.map_cons]

/-- Relabelling leaves makes no inner node a leaf and no leaf an inner node. -/
theorem isLeaf_mapLeaves (f : α → α) (t : Tree α) : (t.mapLeaves f).isLeaf = t.isLeaf := by
  obtain ⟨a, cs⟩ := t
  cases cs <;> rfl

/-- An inner node has children. -/
theorem exists_node_of_not_isLeaf {t : Tree α} (inner : t.isLeaf = false) :
    ∃ a cs, cs ≠ [] ∧ t = node a cs := by
  match t with
  | .node a [] => cases inner
  | .node a (c :: cs) => exact ⟨a, c :: cs, List.cons_ne_nil c cs, rfl⟩

/-- A leaf is its label. -/
theorem eq_leaf_of_isLeaf {t : Tree α} (h : t.isLeaf = true) : t = leaf t.label := by
  match t with
  | .node a [] => rfl
  | .node a (c :: cs) => cases h

mutual

/-- What holds of leaves, and of a node over trees that it holds of, holds of every tree. -/
@[elab_as_elim]
theorem leafOrNode {motive : Tree α → Prop} (leaf : ∀ a, motive (leaf a))
    (node : ∀ a cs, cs ≠ [] → (∀ c ∈ cs, motive c) → motive (node a cs)) (t : Tree α) :
    motive t := by
  match t with
  | .node a cs =>
    have below := leafOrNodeAll leaf node cs
    cases cs with
    | nil => exact leaf a
    | cons c cs => exact node a (c :: cs) (List.cons_ne_nil c cs) below

/-- What holds of leaves, and of a node over trees that it holds of, holds of listed trees. -/
theorem leafOrNodeAll {motive : Tree α → Prop} (leaf : ∀ a, motive (Tree.leaf a))
    (node : ∀ a cs, cs ≠ [] → (∀ c ∈ cs, motive c) → motive (Tree.node a cs))
    (cs : List (Tree α)) : ∀ c ∈ cs, motive c := by
  match cs with
  | [] => exact fun c hc => nomatch hc
  | d :: cs =>
    intro c hc
    rcases List.mem_cons.mp hc with same | hc
    · exact same ▸ leafOrNode leaf node d
    · exact leafOrNodeAll leaf node cs c hc

end

/-! ## Words and subtrees -/

/-- The words of the trees of a list stand tree by tree. -/
theorem wordsAll_eq_flatMap (cs : List (Tree α)) : wordsAll cs = cs.flatMap words := by
  induction cs with
  | nil => rfl
  | cons c cs ih => rw [wordsAll, ih, List.flatMap_cons]

/-- The words of an inner node are those of its children. -/
theorem words_node_eq_flatMap (a : α) {cs : List (Tree α)} (h : cs ≠ []) :
    (node a cs).words = cs.flatMap words := by
  rw [words_node h, wordsAll_eq_flatMap]

/-- Relabelling leaves relabels the words. -/
theorem words_mapLeaves (f : α → α) (t : Tree α) : (t.mapLeaves f).words = t.words.map f := by
  induction t using leafOrNode with
  | leaf a => rfl
  | node a cs some_child ih =>
    have some_relabelled : cs.map (mapLeaves f) ≠ [] := by simpa using some_child
    rw [mapLeaves_node f a some_child, words_node_eq_flatMap a some_relabelled,
      words_node_eq_flatMap a some_child, List.flatMap_map, List.map_flatMap]
    exact List.flatMap_congr ih

/-- Relabelling leaves twice is relabelling them once. -/
theorem mapLeaves_mapLeaves (f g : α → α) (t : Tree α) :
    (t.mapLeaves f).mapLeaves g = t.mapLeaves fun a => g (f a) := by
  induction t using leafOrNode with
  | leaf a => rfl
  | node a cs some_child ih =>
    have some_relabelled : cs.map (mapLeaves f) ≠ [] := by simpa using some_child
    rw [mapLeaves_node f a some_child, mapLeaves_node g a some_relabelled,
      mapLeaves_node _ a some_child, List.map_map]
    exact congrArg (node a) (List.map_congr_left ih)

/-- The leaves are relabelled alike exactly when the words are. -/
theorem mapLeaves_inj {f g : α → α} {t : Tree α} :
    t.mapLeaves f = t.mapLeaves g ↔ ∀ w ∈ t.words, f w = g w := by
  constructor
  · intro same
    have words := congrArg Tree.words same
    rw [words_mapLeaves, words_mapLeaves] at words
    exact List.map_inj_left.mp words
  · intro same
    induction t using leafOrNode with
    | leaf a => exact congrArg leaf (same a (List.mem_singleton_self a))
    | node a cs some_child ih =>
      rw [mapLeaves_node f a some_child, mapLeaves_node g a some_child]
      refine congrArg (node a) (List.map_congr_left fun c hc => ih c hc fun w hw => same w ?_)
      rw [words_node_eq_flatMap a some_child]
      exact List.mem_flatMap.mpr ⟨c, hc, hw⟩

/-- Relabelling inner nodes keeps the words. -/
theorem words_mapInner (f : α → α) (t : Tree α) : (t.mapInner f).words = t.words := by
  induction t using leafOrNode with
  | leaf a => rfl
  | node a cs some_child ih =>
    have some_relabelled : cs.map (mapInner f) ≠ [] := by simpa using some_child
    rw [mapInner_node f a some_child, words_node_eq_flatMap _ some_relabelled,
      words_node_eq_flatMap a some_child, List.flatMap_map]
    exact List.flatMap_congr ih

/-- The subtrees of a tree are the tree and those of its children. -/
theorem mem_subtrees {u : Tree α} {a : α} {cs : List (Tree α)} :
    u ∈ (node a cs).subtrees ↔ u = node a cs ∨ ∃ c ∈ cs, u ∈ c.subtrees := by
  rw [subtrees, List.mem_cons, mem_subtreesAll]

/-- A tree is one of its subtrees. -/
theorem self_mem_subtrees (t : Tree α) : t ∈ t.subtrees := by
  cases t with
  | node a cs => exact mem_subtrees.mpr (Or.inl rfl)

/-- The children of a subtree are subtrees. -/
theorem child_mem_subtrees {t u c : Tree α} (hu : u ∈ t.subtrees) (hc : c ∈ u.children) :
    c ∈ t.subtrees := by
  induction t using leafOrNode with
  | leaf a =>
    rcases mem_subtrees.mp hu with rfl | ⟨d, hd, -⟩
    · cases hc
    · cases hd
  | node a cs some_child ih =>
    rcases mem_subtrees.mp hu with rfl | ⟨d, hd, hu⟩
    · exact mem_subtrees.mpr (Or.inr ⟨c, hc, c.self_mem_subtrees⟩)
    · exact mem_subtrees.mpr (Or.inr ⟨d, hd, ih d hd hu⟩)

/-- A leaf below a tree is one of its words. -/
theorem mem_words_of_leaf_mem_subtrees {t : Tree α} {a : α} (h : leaf a ∈ t.subtrees) :
    a ∈ t.words := by
  induction t using leafOrNode with
  | leaf b =>
    rcases mem_subtrees.mp h with same | ⟨c, hc, -⟩
    · cases same
      exact List.mem_singleton_self a
    · cases hc
  | node b cs some_child ih =>
    rw [words_node_eq_flatMap b some_child, List.mem_flatMap]
    rcases mem_subtrees.mp h with same | ⟨c, hc, h⟩
    · cases same
      exact absurd rfl some_child
    · exact ⟨c, hc, ih c hc h⟩

/-- The label of an inner subtree is an inner label. -/
theorem label_mem_innerLabels {t u : Tree α} (hu : u ∈ t.subtrees) (inner : u.isLeaf = false) :
    u.label ∈ t.innerLabels :=
  List.mem_map_of_mem (List.mem_filter.mpr ⟨hu, by rw [inner]; rfl⟩)

/-- The subtrees of the trees of a list stand tree by tree. -/
theorem subtreesAll_eq_flatMap (cs : List (Tree α)) : subtreesAll cs = cs.flatMap subtrees := by
  induction cs with
  | nil => rfl
  | cons c cs ih => rw [subtreesAll, ih, List.flatMap_cons]

mutual

/-- There is one subtree for each node. -/
theorem length_subtrees (t : Tree α) : t.subtrees.length = t.size := by
  match t with
  | .node a cs =>
    rw [subtrees, size, List.length_cons, length_subtreesAll cs, Nat.add_comm]

/-- There is one subtree for each node of a list of trees. -/
theorem length_subtreesAll (cs : List (Tree α)) : (subtreesAll cs).length = sizeAll cs := by
  match cs with
  | [] => rfl
  | c :: cs =>
    rw [subtreesAll, sizeAll, List.length_append, length_subtrees c, length_subtreesAll cs]

end

/-- The subtrees are relabelled, in their order. -/
theorem subtrees_map {β : Type} (f : α → β) (t : Tree α) :
    (t.map f).subtrees = t.subtrees.map (map f) := by
  induction t using leafOrNode with
  | leaf a => rfl
  | node a cs some_child ih =>
    rw [map, mapAll_eq_map, subtrees, subtrees, List.map_cons, map, mapAll_eq_map,
      subtreesAll_eq_flatMap, subtreesAll_eq_flatMap, List.flatMap_map, List.map_flatMap,
      List.flatMap_congr ih]

/-- The subtrees have their leaves relabelled, in their order. -/
theorem subtrees_mapLeaves (f : α → α) (t : Tree α) :
    (t.mapLeaves f).subtrees = t.subtrees.map (mapLeaves f) := by
  induction t using leafOrNode with
  | leaf a => rfl
  | node a cs some_child ih =>
    rw [mapLeaves_node f a some_child, subtrees, subtrees, List.map_cons,
      mapLeaves_node f a some_child, subtreesAll_eq_flatMap, subtreesAll_eq_flatMap,
      List.flatMap_map, List.map_flatMap, List.flatMap_congr ih]

/-- The subtrees have their leaves relabelled. -/
theorem mem_subtrees_mapLeaves {f : α → α} {t v : Tree α} :
    v ∈ (t.mapLeaves f).subtrees ↔ ∃ u ∈ t.subtrees, v = u.mapLeaves f := by
  rw [subtrees_mapLeaves, List.mem_map]
  simp only [eq_comm]

/-! ## Collapsing and restoring -/

/-- Collapsing does not look at the labels of leaves. -/
theorem collapse_mapLeaves (f : α → α) (t : Tree α) :
    (t.mapLeaves f).collapse = t.collapse.mapLeaves f := by
  induction t using leafOrNode with
  | leaf a => rfl
  | node a cs some_child ih =>
    rw [mapLeaves_node f a some_child]
    match cs, ih with
    | [], _ => exact absurd rfl some_child
    | [c], ih =>
      cases leaf : c.isLeaf with
      | true =>
        rw [eq_leaf_of_isLeaf leaf]
        rfl
      | false =>
        have inner : c.collapse.isLeaf = false := by rw [isLeaf_collapse, leaf]
        obtain ⟨b, ds, some_below, same⟩ := exists_node_of_not_isLeaf inner
        rw [List.map_singleton, collapse_single a (by rw [isLeaf_mapLeaves, leaf]),
          collapse_single a leaf, ih c (List.mem_singleton_self c), same,
          mapLeaves_node f b some_below]
        exact (mapLeaves_node f a some_below).symm
    | c :: d :: cs, ih =>
      rw [collapse_of_two_le a (by simp), collapse_of_two_le a (by simp),
        mapLeaves_node f a (by simp), List.map_map, List.map_map]
      exact congrArg _ (List.map_congr_left fun e he => ih e he)

mutual

/-- Restoring the words undoes relabelling the leaves, when every word comes back from its new
label. -/
theorem restoreWords_mapLeaves {f : Symbol → Symbol} {t : Tree Symbol} (back : List String)
    (restores : ∀ w ∈ t.words, restoreWord (f w) (some w.name) = w) :
    (t.mapLeaves f).restoreWords (t.words.map Symbol.name ++ back) = t := by
  match t with
  | .node a [] =>
    rw [mapLeaves, restoreWords, words, List.map_singleton, List.singleton_append,
      List.head?_cons, restores a (List.mem_singleton_self a)]
  | .node a (c :: cs) =>
    have first := restoreWords_mapLeaves ((wordsAll cs).map Symbol.name ++ back)
      fun w hw => restores w (List.mem_append_left _ hw)
    have rest := restoreWordsAll_mapLeavesAll back
      fun w hw => restores w (List.mem_append_right _ hw)
    have length : (c.mapLeaves f).words.length = (c.words.map Symbol.name).length := by
      rw [words_mapLeaves, List.length_map, List.length_map]
    rw [mapLeaves, restoreWords, words, List.map_append, List.append_assoc, first, length,
      List.drop_left, rest]

/-- Restoring the words undoes relabelling the leaves of a list of trees. -/
theorem restoreWordsAll_mapLeavesAll {f : Symbol → Symbol} {cs : List (Tree Symbol)}
    (back : List String) (restores : ∀ w ∈ wordsAll cs, restoreWord (f w) (some w.name) = w) :
    restoreWordsAll ((wordsAll cs).map Symbol.name ++ back) (mapLeavesAll f cs) = cs := by
  match cs with
  | [] => rfl
  | c :: cs =>
    have first := restoreWords_mapLeaves ((wordsAll cs).map Symbol.name ++ back)
      fun w hw => restores w (List.mem_append_left _ hw)
    have rest := restoreWordsAll_mapLeavesAll back
      fun w hw => restores w (List.mem_append_right _ hw)
    have length : (c.mapLeaves f).words.length = (c.words.map Symbol.name).length := by
      rw [words_mapLeaves, List.length_map, List.length_map]
    rw [mapLeavesAll, restoreWordsAll, wordsAll, List.map_append, List.append_assoc, first, length,
      List.drop_left, rest]

end

end Constituency.Tree
