import Constituency.Tree.Basic

/-!
# Reshaping trees

Three changes take a derivation to the tree that is shown. Collapsing merges
every chain of nodes with a single inner child into its topmost node. Splicing
takes marked inner nodes out below the root, so that their children stand in
their place. Restoring puts the words of a sentence on leaves that stand for a
number or a rare word. The first two keep the words of a tree, and the third
keeps trees with equal words apart.
-/

namespace Constituency

/-- A label that stands for a number or a rare word gives way to the word at its place. -/
def restoreWord (s : Symbol) (word? : Option String) : Symbol :=
  if s == .number || s == .rare then (word?.map Symbol.mk).getD s else s

/-- Where there is no word, a label stays. -/
theorem restoreWord_none (s : Symbol) : restoreWord s none = s := by
  rw [restoreWord]
  split <;> rfl

namespace Tree

variable {α : Type}

mutual

/-- Merges every chain of nodes with a single inner child into its topmost node. -/
def collapse : Tree α → Tree α
  | .node a [] => .node a []
  | .node a [c] => if c.isLeaf then .node a [c] else .node a c.collapse.children
  | .node a (c :: d :: cs) => .node a (c.collapse :: d.collapse :: collapseAll cs)

/-- Collapses the trees of a list. -/
def collapseAll : List (Tree α) → List (Tree α)
  | [] => []
  | c :: cs => c.collapse :: collapseAll cs

end

mutual

/-- What stands in the place of a tree below the root when marked nodes are spliced out. -/
def replaced (marked : α → Bool) : Tree α → List (Tree α)
  | .node a cs =>
    if marked a && !cs.isEmpty then spliceAll marked cs else [.node a (spliceAll marked cs)]

/-- Splices marked nodes out of the trees of a list, roots included. -/
def spliceAll (marked : α → Bool) : List (Tree α) → List (Tree α)
  | [] => []
  | c :: cs => c.replaced marked ++ spliceAll marked cs

end

/-- Splices marked inner nodes out below the root; their children stand in their place. -/
def splice (marked : α → Bool) : Tree α → Tree α
  | .node a cs => .node a (spliceAll marked cs)

mutual

/-- Puts the words of a sentence on the leaves that stand for a number or a rare word. -/
def restoreWords (sentence : List String) : Tree Symbol → Tree Symbol
  | .node a [] => .node (restoreWord a sentence.head?) []
  | .node a (c :: cs) =>
    .node a (c.restoreWords sentence :: restoreWordsAll (sentence.drop c.words.length) cs)

/-- Puts the words of a sentence on the leaves of a list of trees. -/
def restoreWordsAll (sentence : List String) : List (Tree Symbol) → List (Tree Symbol)
  | [] => []
  | c :: cs => c.restoreWords sentence :: restoreWordsAll (sentence.drop c.words.length) cs

end

/-! ## Subtrees and words -/

/-- The subtrees of a list of trees are those of its members. -/
theorem mem_subtreesAll {u : Tree α} {cs : List (Tree α)} :
    u ∈ subtreesAll cs ↔ ∃ c ∈ cs, u ∈ c.subtrees := by
  induction cs with
  | nil => simp [subtreesAll]
  | cons c cs ih => simp [subtreesAll, ih]

/-- The words of two lists of trees stand list by list. -/
theorem wordsAll_append (cs ds : List (Tree α)) :
    wordsAll (cs ++ ds) = wordsAll cs ++ wordsAll ds := by
  induction cs with
  | nil => rfl
  | cons c cs ih => rw [List.cons_append, wordsAll, ih, wordsAll, List.append_assoc]

/-- The words of an inner node are those of its children. -/
theorem words_node {cs : List (Tree α)} (h : cs ≠ []) (a : α) :
    (node a cs).words = wordsAll cs := by
  cases cs with
  | nil => exact absurd rfl h
  | cons c cs => rw [words, wordsAll]

/-- A node over some children is no leaf. -/
theorem isLeaf_node (a : α) {cs : List (Tree α)} (h : cs ≠ []) : (node a cs).isLeaf = false := by
  cases cs with
  | nil => exact absurd rfl h
  | cons c cs => rfl

/-! ## Collapsing -/

/-- The companion of `collapse` collapses the trees one by one. -/
theorem collapseAll_eq_map (cs : List (Tree α)) : collapseAll cs = cs.map collapse := by
  induction cs with
  | nil => rfl
  | cons c cs ih => rw [collapseAll, ih, List.map_cons]

/-- Collapsing keeps the label of the root. -/
theorem label_collapse (t : Tree α) : t.collapse.label = t.label := by
  match t with
  | .node a [] => rfl
  | .node a [c] => rw [collapse]; split <;> rfl
  | .node a (c :: d :: cs) => rfl

/-- A tree is its label over its children. -/
theorem node_label_children (t : Tree α) : node t.label t.children = t := by
  cases t with
  | node a cs => rfl

/-- A node over a single inner child takes over what is left of the children of that child. -/
theorem collapse_single (a : α) {c : Tree α} (h : c.isLeaf = false) :
    (node a [c]).collapse = node a c.collapse.children := by
  rw [collapse, h, if_neg Bool.false_ne_true]

/-- A node over two children or more keeps them apart. -/
theorem collapse_of_two_le (a : α) {cs : List (Tree α)} (h : 2 ≤ cs.length) :
    (node a cs).collapse = node a (cs.map collapse) := by
  match cs with
  | [] => simp at h
  | [c] => simp at h
  | c :: d :: cs => rw [collapse, collapseAll_eq_map, List.map_cons, List.map_cons]

/-- Collapsing makes no inner node a leaf and no leaf an inner node. -/
theorem isLeaf_collapse (t : Tree α) : t.collapse.isLeaf = t.isLeaf := by
  match t with
  | .node a [] => rfl
  | .node a [c] =>
    rw [collapse]
    split
    · rfl
    · next hc =>
      have inner := isLeaf_collapse c
      rw [Bool.not_eq_true] at hc
      rw [hc] at inner
      exact inner
  | .node a (c :: d :: cs) => rfl

mutual

/-- Collapsing keeps the words. -/
theorem words_collapse (t : Tree α) : t.collapse.words = t.words := by
  match t with
  | .node a [] => rfl
  | .node a [c] =>
    rw [collapse]
    split
    · rfl
    · next hc =>
      have inner : c.collapse.isLeaf = false := by
        rw [isLeaf_collapse]
        exact Bool.eq_false_iff.mpr hc
      have some_child : c.collapse.children ≠ [] := by
        rw [isLeaf] at inner
        exact fun h => by simp [h] at inner
      have below : wordsAll c.collapse.children = c.collapse.words := by
        rw [← words_node some_child c.collapse.label, node_label_children]
      rw [words_node some_child, below, words_collapse c, words, wordsAll, List.append_nil]
  | .node a (c :: d :: cs) =>
    rw [collapse, words, wordsAll, words_collapse c, words_collapse d, wordsAll_collapseAll cs,
      words, wordsAll]

/-- Collapsing the trees of a list keeps the words. -/
theorem wordsAll_collapseAll (cs : List (Tree α)) : wordsAll (collapseAll cs) = wordsAll cs := by
  match cs with
  | [] => rfl
  | c :: cs => rw [collapseAll, wordsAll, wordsAll, words_collapse c, wordsAll_collapseAll cs]

end

/-! ## Splicing -/

/-- Two lists are spliced one by one. -/
theorem spliceAll_append (marked : α → Bool) (cs ds : List (Tree α)) :
    spliceAll marked (cs ++ ds) = spliceAll marked cs ++ spliceAll marked ds := by
  induction cs with
  | nil => rfl
  | cons c cs ih => rw [List.cons_append, spliceAll, ih, spliceAll, List.append_assoc]

/-- A list is spliced tree by tree. -/
theorem spliceAll_eq_flatMap (marked : α → Bool) (cs : List (Tree α)) :
    spliceAll marked cs = cs.flatMap (replaced marked) := by
  induction cs with
  | nil => rfl
  | cons c cs ih => rw [spliceAll, ih, List.flatMap_cons]

mutual

/-- Something stands in the place of every tree. -/
theorem replaced_ne_nil (marked : α → Bool) (t : Tree α) : t.replaced marked ≠ [] := by
  match t with
  | .node a [] => simp [replaced]
  | .node a (c :: cs) =>
    rw [replaced]
    split
    · exact spliceAll_ne_nil marked (List.cons_ne_nil c cs)
    · exact List.cons_ne_nil _ _

/-- Splicing a list leaves a tree if there was one. -/
theorem spliceAll_ne_nil (marked : α → Bool) {cs : List (Tree α)} (h : cs ≠ []) :
    spliceAll marked cs ≠ [] := by
  match cs with
  | [] => exact absurd rfl h
  | c :: cs =>
    rw [spliceAll]
    exact List.append_ne_nil_of_left_ne_nil (replaced_ne_nil marked c) _

end

/-- A list is empty after splicing exactly when it was before. -/
theorem isEmpty_spliceAll (marked : α → Bool) (cs : List (Tree α)) :
    (spliceAll marked cs).isEmpty = cs.isEmpty := by
  cases cs with
  | nil => rfl
  | cons c cs =>
    have h := spliceAll_ne_nil marked (List.cons_ne_nil c cs)
    rw [List.isEmpty_cons]
    exact Bool.eq_false_iff.mpr fun hempty => h (List.isEmpty_iff.mp hempty)

/-- A tree whose root is not marked stays, spliced below the root. -/
theorem replaced_of_not_marked {marked : α → Bool} {t : Tree α} (h : marked t.label = false) :
    t.replaced marked = [t.splice marked] := by
  cases t with
  | node a cs =>
    have ha : marked a = false := h
    rw [replaced, ha, Bool.false_and, if_neg Bool.false_ne_true, splice]

/-- Splicing leaves no marked inner node below what stands for a marked inner node. -/
theorem replaced_of_marked {marked : α → Bool} {a : α} {cs : List (Tree α)} (ha : marked a = true)
    (h : cs ≠ []) : (node a cs).replaced marked = spliceAll marked cs := by
  have some_child : (!cs.isEmpty) = true := by
    rw [Bool.not_eq_true', Bool.eq_false_iff]
    exact fun hempty => h (List.isEmpty_iff.mp hempty)
  rw [replaced, ha, some_child, Bool.and_self, if_pos rfl]

/-- Splicing a list keeps an unmarked node, spliced below. -/
theorem spliceAll_cons_of_not_marked {marked : α → Bool} {a : α} (ha : marked a = false)
    (cs rest : List (Tree α)) :
    spliceAll marked (node a cs :: rest) =
      node a (spliceAll marked cs) :: spliceAll marked rest := by
  rw [spliceAll, replaced_of_not_marked (t := node a cs) ha, splice, List.singleton_append]

/-- Splicing a list puts the children of a marked node in its place. -/
theorem spliceAll_cons_of_marked {marked : α → Bool} {a : α} (ha : marked a = true)
    {cs : List (Tree α)} (h : cs ≠ []) (rest : List (Tree α)) :
    spliceAll marked (node a cs :: rest) = spliceAll marked cs ++ spliceAll marked rest := by
  rw [spliceAll, replaced_of_marked ha h]

/-- A leaf is never spliced out. -/
theorem spliceAll_leaf (marked : α → Bool) (a : α) : spliceAll marked [leaf a] = [leaf a] := by
  simp [spliceAll, replaced]

/-- Splicing a single tree whose root is not marked. -/
theorem spliceAll_singleton {marked : α → Bool} {t : Tree α} (h : marked t.label = false) :
    spliceAll marked [t] = [t.splice marked] := by
  rw [spliceAll, spliceAll, List.append_nil, replaced_of_not_marked h]

mutual

/-- What stands in the place of a tree has its words. -/
theorem wordsAll_replaced (marked : α → Bool) (t : Tree α) :
    wordsAll (t.replaced marked) = t.words := by
  match t with
  | .node a [] => simp [replaced, spliceAll, wordsAll]
  | .node a (c :: cs) =>
    have below := wordsAll_spliceAll marked (c :: cs)
    rw [replaced, words_node (List.cons_ne_nil c cs)]
    split
    · exact below
    · rw [wordsAll, wordsAll, List.append_nil,
        words_node (spliceAll_ne_nil marked (List.cons_ne_nil c cs)), below]

/-- Splicing the trees of a list keeps the words. -/
theorem wordsAll_spliceAll (marked : α → Bool) (cs : List (Tree α)) :
    wordsAll (spliceAll marked cs) = wordsAll cs := by
  match cs with
  | [] => rfl
  | c :: cs =>
    rw [spliceAll, wordsAll_append, wordsAll_replaced marked c, wordsAll_spliceAll marked cs,
      wordsAll]

end

/-- Splicing keeps the label of the root. -/
theorem label_splice (marked : α → Bool) (t : Tree α) : (t.splice marked).label = t.label := by
  cases t with
  | node a cs => rfl

/-- Splicing makes no leaf of a root that is none, and the other way round. -/
theorem isLeaf_splice (marked : α → Bool) (t : Tree α) : (t.splice marked).isLeaf = t.isLeaf := by
  cases t with
  | node a cs => exact isEmpty_spliceAll marked cs

/-- Splicing keeps the words. -/
theorem words_splice (marked : α → Bool) (t : Tree α) : (t.splice marked).words = t.words := by
  match t with
  | .node a [] => rfl
  | .node a (c :: cs) =>
    rw [splice, words_node (spliceAll_ne_nil marked (List.cons_ne_nil c cs)), wordsAll_spliceAll,
      words_node (List.cons_ne_nil c cs)]

mutual

/-- Splicing twice replaces a tree as splicing once for both marks does. -/
theorem spliceAll_replaced (first second : α → Bool) (t : Tree α) :
    spliceAll first (t.replaced second) = t.replaced fun a => first a || second a := by
  cases t with
  | node a cs =>
    have below := spliceAll_spliceAll first second cs
    have empty := isEmpty_spliceAll second cs
    rw [replaced, replaced]
    cases hsecond : second a with
    | true =>
      cases cs with
      | nil => simp [spliceAll, replaced]
      | cons c cs => simpa using below
    | false =>
      rw [Bool.false_and, if_neg Bool.false_ne_true, spliceAll, spliceAll, List.append_nil,
        replaced,
        empty, below, Bool.or_false]

/-- Splicing twice is splicing once for both marks. -/
theorem spliceAll_spliceAll (first second : α → Bool) (cs : List (Tree α)) :
    spliceAll first (spliceAll second cs) = spliceAll (fun a => first a || second a) cs := by
  cases cs with
  | nil => rfl
  | cons c cs =>
    rw [spliceAll, spliceAll_append, spliceAll_replaced first second c,
      spliceAll_spliceAll first second cs, spliceAll]

end

mutual

/-- Without marks a tree stays. -/
theorem replaced_false (t : Tree α) : t.replaced (fun _ => false) = [t] := by
  cases t with
  | node a cs =>
    rw [replaced, Bool.false_and, if_neg Bool.false_ne_true, spliceAll_false cs]

/-- Without marks a list stays. -/
theorem spliceAll_false (cs : List (Tree α)) : spliceAll (fun _ => false) cs = cs := by
  cases cs with
  | nil => rfl
  | cons c cs => rw [spliceAll, replaced_false c, spliceAll_false cs, List.singleton_append]

end

/-! ## Restoring -/

mutual

/-- Restoring keeps the number of words. -/
theorem length_words_restoreWords (sentence : List String) (t : Tree Symbol) :
    (t.restoreWords sentence).words.length = t.words.length := by
  match t with
  | .node a [] => rfl
  | .node a (c :: cs) =>
    rw [restoreWords, words, words, List.length_append, List.length_append,
      length_words_restoreWords sentence c, length_wordsAll_restoreWordsAll _ cs]

/-- Restoring the trees of a list keeps the number of words. -/
theorem length_wordsAll_restoreWordsAll (sentence : List String) (cs : List (Tree Symbol)) :
    (wordsAll (restoreWordsAll sentence cs)).length = (wordsAll cs).length := by
  match cs with
  | [] => rfl
  | c :: cs =>
    rw [restoreWordsAll, wordsAll, wordsAll, List.length_append, List.length_append,
      length_words_restoreWords sentence c, length_wordsAll_restoreWordsAll _ cs]

end

mutual

/-- Restoring keeps trees with equal words apart. -/
theorem restoreWords_inj {sentence : List String} {t u : Tree Symbol} (hwords : t.words = u.words)
    (h : t.restoreWords sentence = u.restoreWords sentence) : t = u := by
  match t, u with
  | .node a [], .node b [] =>
    rw [words, words] at hwords
    rw [List.cons.inj hwords |>.1]
  | .node a [], .node b (d :: ds) => simp [restoreWords] at h
  | .node a (c :: cs), .node b [] => simp [restoreWords] at h
  | .node a (c :: cs), .node b (d :: ds) =>
    rw [words, words] at hwords
    rw [restoreWords, restoreWords] at h
    obtain ⟨hlabel, below⟩ := Tree.node.inj h
    have hall : c :: cs = d :: ds :=
      restoreWordsAll_inj (by rwa [wordsAll, wordsAll]) (by rwa [restoreWordsAll, restoreWordsAll])
    rw [hlabel, hall]

/-- Restoring keeps lists of trees with equal words apart. -/
theorem restoreWordsAll_inj {sentence : List String} {cs ds : List (Tree Symbol)}
    (hwords : wordsAll cs = wordsAll ds)
    (h : restoreWordsAll sentence cs = restoreWordsAll sentence ds) : cs = ds := by
  match cs, ds with
  | [], [] => rfl
  | [], d :: ds => simp [restoreWordsAll] at h
  | c :: cs, [] => simp [restoreWordsAll] at h
  | c :: cs, d :: ds =>
    rw [restoreWordsAll, restoreWordsAll] at h
    obtain ⟨head, tail⟩ := List.cons.inj h
    have same_length : c.words.length = d.words.length := by
      rw [← length_words_restoreWords sentence c, head, length_words_restoreWords]
    obtain ⟨first, rest⟩ := List.append_inj hwords same_length
    rw [same_length] at tail
    rw [restoreWords_inj first head, restoreWordsAll_inj rest tail]

end

/-- Restoring keeps the label of an inner node. -/
theorem label_restoreWords {sentence : List String} {t : Tree Symbol} (inner : t.isLeaf = false) :
    (t.restoreWords sentence).label = t.label := by
  match t with
  | .node a [] => cases inner
  | .node a (c :: cs) => rfl

mutual

/-- A tree over the symbols of some words gets these words back. -/
theorem words_restoreWords {spell : String → Symbol}
    (restores : ∀ word, restoreWord (spell word) (some word) = ⟨word⟩) {t : Tree Symbol}
    {front : List String} (back : List String) (h : t.words = front.map spell) :
    (t.restoreWords (front ++ back)).words = front.map Symbol.mk := by
  match t with
  | .node a [] =>
    rw [words, eq_comm, List.map_eq_singleton_iff] at h
    obtain ⟨word, rfl, rfl⟩ := h
    rw [restoreWords, words, List.singleton_append, List.head?_cons, restores]
    rfl
  | .node a (c :: cs) =>
    rw [words, eq_comm, List.map_eq_append_iff] at h
    obtain ⟨first, rest, rfl, hfirst, hrest⟩ := h
    have length : c.words.length = first.length := by rw [← hfirst, List.length_map]
    rw [restoreWords, words, List.append_assoc,
      words_restoreWords restores (rest ++ back) hfirst.symm, length, List.drop_left,
      wordsAll_restoreWordsAll restores back hrest.symm, List.map_append]

/-- Trees over the symbols of some words get these words back. -/
theorem wordsAll_restoreWordsAll {spell : String → Symbol}
    (restores : ∀ word, restoreWord (spell word) (some word) = ⟨word⟩) {cs : List (Tree Symbol)}
    {front : List String} (back : List String) (h : wordsAll cs = front.map spell) :
    wordsAll (restoreWordsAll (front ++ back) cs) = front.map Symbol.mk := by
  match cs with
  | [] =>
    rw [wordsAll, eq_comm, List.map_eq_nil_iff] at h
    rw [h]
    rfl
  | c :: cs =>
    rw [wordsAll, eq_comm, List.map_eq_append_iff] at h
    obtain ⟨first, rest, rfl, hfirst, hrest⟩ := h
    have length : c.words.length = first.length := by rw [← hfirst, List.length_map]
    rw [restoreWordsAll, wordsAll, List.append_assoc,
      words_restoreWords restores (rest ++ back) hfirst.symm, length, List.drop_left,
      wordsAll_restoreWordsAll restores back hrest.symm, List.map_append]

end

end Tree

end Constituency
