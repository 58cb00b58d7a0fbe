import Constituency.Proofs.Grammar.Treebank
import Constituency.Proofs.NormalForm.Parses

/-!
# Training trees are recovered

A treebank is well-formed when every word is the only child of its node and words
and categories cannot be mistaken for each other, by their spelling or by name.
Training then replaces exactly the words that parsing replaces, every node of a
normalized tree uses a stored rule of the right kind, and so each training tree,
trimmed and normalized, is a derivation of its own sentence. The grammar in normal
form shows it: collapsed, and with the words of the sentence back in place.
-/

namespace Constituency

/-- A label of an inner node that no spelling makes a word, as it is and when trimmed. -/
structure Symbol.IsCategory (a : Symbol) : Prop where
  /-- The label has a name. -/
  named : a.name ≠ ""
  /-- The trimmed label has a name. -/
  namedBase : a.base.name ≠ ""
  /-- The label is not spelled like a word. -/
  spelled : a.isWordlike = false
  /-- The trimmed label is not spelled like a word. -/
  spelledBase : a.base.isWordlike = false

/-- A label of a leaf that trimming leaves alone and that does not stand for numbers. -/
structure Symbol.IsWord (a : Symbol) : Prop where
  /-- The word has a name. -/
  named : a.name ≠ ""
  /-- The word does not stand for numbers. -/
  notNumber : a ≠ .number
  /-- The word is spelled like one, or there is nothing to trim. -/
  whole : a.isWordlike = true ∨ a.base = a

instance (a : Symbol) : Decidable a.IsCategory :=
  decidable_of_iff (a.name ≠ "" ∧ a.base.name ≠ "" ∧ a.isWordlike = false ∧
      a.base.isWordlike = false)
    ⟨fun h => ⟨h.1, h.2.1, h.2.2.1, h.2.2.2⟩,
      fun h => ⟨h.named, h.namedBase, h.spelled, h.spelledBase⟩⟩

instance (a : Symbol) : Decidable a.IsWord :=
  decidable_of_iff (a.name ≠ "" ∧ a ≠ .number ∧ (a.isWordlike = true ∨ a.base = a))
    ⟨fun h => ⟨h.1, h.2.1, h.2.2⟩, fun h => ⟨h.named, h.notNumber, h.whole⟩⟩

/-- Trees in which every word is the only child of its node and no word is taken for a category,
nor a category for a word. -/
structure WellFormedTrees (trees : List (Tree Symbol)) : Prop where
  /-- The roots are inner nodes. -/
  rooted : ∀ t ∈ trees, t.isLeaf = false
  /-- A leaf is the only child of its parent. -/
  lone : ∀ t ∈ trees, ∀ u ∈ t.subtrees, ∀ c ∈ u.children, c.isLeaf = true → u.children.length = 1
  /-- The labels of inner nodes are categories. -/
  categories : ∀ t ∈ trees, ∀ a ∈ t.innerLabels, a.IsCategory
  /-- The labels of leaves are words. -/
  words : ∀ t ∈ trees, ∀ w ∈ t.words, w.IsWord
  /-- No word is the trimmed label of an inner node. -/
  apart : ∀ t ∈ trees, ∀ w ∈ t.words, ∀ u ∈ trees, ∀ a ∈ u.innerLabels, w ≠ a.base

instance (trees : List (Tree Symbol)) : Decidable (WellFormedTrees trees) :=
  decidable_of_iff ((∀ t ∈ trees, t.isLeaf = false) ∧
      (∀ t ∈ trees, ∀ u ∈ t.subtrees, ∀ c ∈ u.children,
        c.isLeaf = true → u.children.length = 1) ∧
      (∀ t ∈ trees, ∀ a ∈ t.innerLabels, a.IsCategory) ∧
      (∀ t ∈ trees, ∀ w ∈ t.words, w.IsWord) ∧
      ∀ t ∈ trees, ∀ w ∈ t.words, ∀ u ∈ trees, ∀ a ∈ u.innerLabels, w ≠ a.base)
    ⟨fun h => ⟨h.1, h.2.1, h.2.2.1, h.2.2.2.1, h.2.2.2.2⟩,
      fun h => ⟨h.rooted, h.lone, h.categories, h.words, h.apart⟩⟩

namespace Grammar

/-! ## Replaced words -/

section Replaced

variable {W : Type} (g : Grammar W) (rareBelow : Nat)

/-- Training leaves a word as it is, or replaces it by the symbol for numbers or for rare words. -/
theorem trainedSymbol_cases (w : Symbol) :
    g.trainedSymbol rareBelow w = w ∨ g.trainedSymbol rareBelow w = .number ∨
      g.trainedSymbol rareBelow w = .rare := by
  rw [trainedSymbol, replacement?]
  split
  · exact Or.inr (Or.inl rfl)
  · split
    · exact Or.inr (Or.inr rfl)
    · exact Or.inl rfl

/-- A word comes back from the symbol that training gives it. -/
theorem restoreWord_trainedSymbol (w : Symbol) :
    restoreWord (g.trainedSymbol rareBelow w) (some w.name) = w := by
  rcases g.trainedSymbol_cases rareBelow w with same | number | rare
  · rw [same, restoreWord]
    split <;> rfl
  · rw [number]
    rfl
  · rw [rare]
    rfl

/-- The symbol for rare words stays as it is. -/
theorem trainedSymbol_rare : g.trainedSymbol rareBelow .rare = .rare := by
  have notNumeral : isNumeral Symbol.rare.name = false := by decide +kernel
  rw [trainedSymbol, replacement?, notNumeral, if_neg Bool.false_ne_true]
  split <;> rfl

/-- What training makes of a word, other than the symbol for numbers, stays as it is. -/
theorem trainedSymbol_trainedSymbol {w : Symbol}
    (notNumber : g.trainedSymbol rareBelow w ≠ .number) :
    g.trainedSymbol rareBelow (g.trainedSymbol rareBelow w) = g.trainedSymbol rareBelow w := by
  rcases g.trainedSymbol_cases rareBelow w with same | number | rare
  · rw [same, same]
  · exact absurd number notNumber
  · rw [rare, g.trainedSymbol_rare rareBelow]

variable {g rareBelow}

/-- What training makes of a word is spelled like a word unless it is the word itself. -/
theorem trainedSymbol_eq_of_not_isWordlike {w : Symbol}
    (h : (g.trainedSymbol rareBelow w).isWordlike = false) : g.trainedSymbol rareBelow w = w := by
  rcases g.trainedSymbol_cases rareBelow w with same | number | rare
  · exact same
  · rw [number] at h
    exact absurd h (by decide +kernel)
  · rw [rare] at h
    exact absurd h (by decide +kernel)

/-- Nothing is trimmed off the symbol that training gives a word. -/
theorem childLabel_trainedSymbol {w : Symbol} (h : w.IsWord) :
    childLabel true (g.trainedSymbol rareBelow w) = g.trainedSymbol rareBelow w := by
  rw [childLabel]
  cases spelled : (g.trainedSymbol rareBelow w).isWordlike with
  | true => rfl
  | false =>
    have same := trainedSymbol_eq_of_not_isWordlike spelled
    rw [same] at spelled ⊢
    rcases h.whole with wordlike | whole
    · rw [spelled] at wordlike
      cases wordlike
    · exact whole

/-- The symbol that training gives a word has a name. -/
theorem name_trainedSymbol {w : Symbol} (h : w.IsWord) :
    (g.trainedSymbol rareBelow w).name ≠ "" := by
  rcases g.trainedSymbol_cases rareBelow w with same | number | rare
  · rw [same]
    exact h.named
  · rw [number]
    decide
  · rw [rare]
    decide

end Replaced

/-! ## Rules of a well-formed treebank -/

/-- The tree with its inner labels trimmed and its words as training replaces them. -/
def trainedTree {W : Type} (g : Grammar W) (rareBelow : Nat) (t : Tree Symbol) : Tree Symbol :=
  (t.mapInner Symbol.base).mapLeaves (g.trainedSymbol rareBelow)

section Training

variable {trees : List (Tree Symbol)} {rareBelow : Nat} {g : Grammar Unit}

/-- A trained inner node has its label trimmed and its children trained. -/
theorem trainedTree_node (a : Symbol) {cs : List (Tree Symbol)} (some_child : cs ≠ []) :
    g.trainedTree rareBelow (.node a cs) = .node a.base (cs.map (g.trainedTree rareBelow)) := by
  have some_trimmed : cs.map (Tree.mapInner Symbol.base) ≠ [] := by simpa using some_child
  rw [trainedTree, Tree.mapInner_node _ _ some_child, Tree.mapLeaves_node _ _ some_trimmed,
    List.map_map]
  rfl

/-- The label of a child in the rule of its parent is that of the trained child. -/
theorem childLabel_label_mapLeaves (wf : WellFormedTrees trees) {t c : Tree Symbol}
    (ht : t ∈ trees) (hc : c ∈ t.subtrees) :
    childLabel true (c.mapLeaves (g.trainedSymbol rareBelow)).label =
      (g.trainedTree rareBelow c).label := by
  cases leaf : c.isLeaf with
  | true =>
    rw [Tree.eq_leaf_of_isLeaf leaf] at hc ⊢
    exact childLabel_trainedSymbol (wf.words t ht _ (Tree.mem_words_of_leaf_mem_subtrees hc))
  | false =>
    obtain ⟨a, cs, some_child, rfl⟩ := Tree.exists_node_of_not_isLeaf leaf
    have category := wf.categories t ht a (Tree.label_mem_innerLabels hc leaf)
    rw [trainedTree_node a some_child, Tree.mapLeaves_node _ a some_child, Tree.label, Tree.label,
      childLabel, category.spelled]
    rfl

/-- The label of a child has a name in the normalized tree. -/
theorem name_label_mapLeaves (wf : WellFormedTrees trees) {t c : Tree Symbol} (ht : t ∈ trees)
    (hc : c ∈ t.subtrees) : (c.mapLeaves (g.trainedSymbol rareBelow)).label.name ≠ "" := by
  cases leaf : c.isLeaf with
  | true =>
    rw [Tree.eq_leaf_of_isLeaf leaf] at hc ⊢
    exact name_trainedSymbol (wf.words t ht _ (Tree.mem_words_of_leaf_mem_subtrees hc))
  | false =>
    obtain ⟨a, cs, some_child, rfl⟩ := Tree.exists_node_of_not_isLeaf leaf
    rw [Tree.mapLeaves_node _ a some_child]
    exact (wf.categories t ht a (Tree.label_mem_innerLabels hc leaf)).named

/-- No word is the label of a trained inner node. -/
theorem ne_label_trainedTree (wf : WellFormedTrees trees) {t : Tree Symbol} (ht : t ∈ trees)
    {w : Symbol} (hw : w ∈ t.words) {u c : Tree Symbol} (hu : u ∈ trees) (hc : c ∈ u.subtrees)
    (inner : c.isLeaf = false) : w ≠ (g.trainedTree rareBelow c).label := by
  obtain ⟨a, cs, some_child, rfl⟩ := Tree.exists_node_of_not_isLeaf inner
  rw [trainedTree_node a some_child]
  exact wf.apart t ht w hw u hu a (Tree.label_mem_innerLabels hc inner)

variable (rareBelow)

/-- An inner node of a normalized tree uses the rule that the trained node shows. -/
theorem localSides?_mapLeaves (wf : WellFormedTrees trees) {t : Tree Symbol} (ht : t ∈ trees)
    {a : Symbol} {cs : List (Tree Symbol)} (some_child : cs ≠ []) (hu : .node a cs ∈ t.subtrees) :
    ((Tree.node a cs).mapLeaves (g.trainedSymbol rareBelow)).localSides? true =
      some (a.base, (cs.map (g.trainedTree rareBelow)).map Tree.label) := by
  have below : ∀ c ∈ cs, c ∈ t.subtrees := fun c hc => Tree.child_mem_subtrees hu hc
  have named : a.name ≠ "" :=
    (wf.categories t ht a (Tree.label_mem_innerLabels hu (Tree.isLeaf_node a some_child))).named
  rw [Tree.mapLeaves_node _ a some_child, Tree.localSides?, Constituency.localSides?, if_neg]
  · refine congrArg (fun right => some (a.base, right)) ?_
    simp only [Tree.children, List.map_map]
    exact List.map_congr_left fun c hc => childLabel_label_mapLeaves wf ht (below c hc)
  · simp only [Tree.children, Tree.label, List.map_map, Bool.or_eq_true, List.isEmpty_iff,
      List.map_eq_nil_iff, String.isEmpty_iff, List.any_eq_true, List.mem_map, not_or]
    refine ⟨⟨some_child, named⟩, ?_⟩
    rintro ⟨_, ⟨c, hc, rfl⟩, none⟩
    exact name_label_mapLeaves wf ht (below c hc) none

/-- The rules used in the normalized trees are those that trained nodes show. -/
theorem usedIn_trainedTrees (wf : WellFormedTrees trees) {left : Symbol} {right : List Symbol} :
    UsedIn (trainedTrees trees rareBelow) left right ↔
      ∃ t ∈ trees, ∃ a cs, cs ≠ [] ∧ .node a cs ∈ t.subtrees ∧ left = a.base ∧
        right = (cs.map ((ofTrees trees rareBelow).trainedTree rareBelow)).map Tree.label := by
  constructor
  · rintro ⟨_, hn, v, hv, sides⟩
    obtain ⟨t, ht, rfl⟩ := List.mem_map.mp hn
    obtain ⟨⟨a, cs⟩, hu, rfl⟩ := Tree.mem_subtrees_mapLeaves.mp hv
    have some_child : cs ≠ [] := by
      rintro rfl
      cases sides
    have shown := localSides?_mapLeaves (g := ofTrees trees rareBelow) rareBelow wf
      ht some_child hu
    obtain ⟨rfl, rfl⟩ := Prod.mk.inj (Option.some.inj (sides.symm.trans shown))
    exact ⟨t, ht, a, cs, some_child, hu, rfl, rfl⟩
  · rintro ⟨t, ht, a, cs, some_child, hu, rfl, rfl⟩
    exact ⟨_, List.mem_map_of_mem ht, _, Tree.mem_subtrees_mapLeaves.mpr ⟨_, hu, rfl⟩,
      localSides?_mapLeaves rareBelow wf ht some_child hu⟩

/-- In a sentence of a well-formed treebank words have the symbols of training. -/
theorem tokenSymbol_eq_trainedSymbol (wf : WellFormedTrees trees) {t : Tree Symbol}
    (ht : t ∈ trees) {w : Symbol} (hw : w ∈ t.words) :
    (ofTrees trees rareBelow).tokenSymbol w.name =
      (ofTrees trees rareBelow).trainedSymbol rareBelow w := by
  have indexed := (indexed_filled_ofTrees trees rareBelow).1
  rw [tokenSymbol_eq, show (ofTrees trees rareBelow).rareBelow = rareBelow from rfl]
  cases empty : ((ofTrees trees rareBelow).store.wordRules w).isEmpty with
  | true => rfl
  | false =>
    rw [if_neg Bool.false_ne_true]
    -- a rule of its own comes from a leaf, and training makes that leaf the word
    obtain ⟨r, hr⟩ := List.isEmpty_eq_false_iff_exists_mem.mp empty
    obtain ⟨stored, alone, -⟩ := indexed.mem_wordRules.mp hr
    have used := exists_mem_rules_ofTrees.mp ⟨r, stored, rfl, alone⟩
    obtain ⟨u, hu, a, cs, some_child, hnode, -, right⟩ := (usedIn_trainedTrees rareBelow wf).mp used
    rw [List.map_map, eq_comm, List.map_eq_singleton_iff] at right
    obtain ⟨c, rfl, label⟩ := right
    have hc : c ∈ u.subtrees := Tree.child_mem_subtrees hnode (List.mem_singleton_self c)
    cases leaf : c.isLeaf with
    | false => exact absurd label.symm (ne_label_trainedTree wf ht hw hu hc leaf)
    | true =>
      rw [Tree.eq_leaf_of_isLeaf leaf] at label
      have trained : (ofTrees trees rareBelow).trainedSymbol rareBelow c.label = w := label
      have notNumber := (wf.words t ht w hw).notNumber
      rw [← trained] at notNumber ⊢
      exact ((ofTrees trees rareBelow).trainedSymbol_trainedSymbol rareBelow notNumber).symm

/-- A rule over a single leaf is one for the word. -/
theorem kindAmong_word (wf : WellFormedTrees trees) {t : Tree Symbol} (ht : t ∈ trees) {w : Symbol}
    (hw : w ∈ t.words) :
    Rule.kindAmong ((ofTrees trees rareBelow).store.rules.map Rule.left).contains
      [(ofTrees trees rareBelow).trainedSymbol rareBelow w] = .terminal := by
  rw [Rule.kindAmong]
  cases spelled : ((ofTrees trees rareBelow).trainedSymbol rareBelow w).isWordlike with
  | true => rfl
  | false =>
    rw [trainedSymbol_eq_of_not_isWordlike spelled, if_pos]
    rw [Bool.false_or, Bool.not_eq_true', ← Bool.not_eq_true, contains_left_ofTrees]
    rintro ⟨right, used⟩
    obtain ⟨u, hu, a, cs, some_child, hnode, left, -⟩ := (usedIn_trainedTrees rareBelow wf).mp used
    exact wf.apart t ht w hw u hu a
      (Tree.label_mem_innerLabels hnode (Tree.isLeaf_node a some_child)) left

/-- A rule over inner nodes is none for a word. -/
theorem kindAmong_inner (wf : WellFormedTrees trees) {t : Tree Symbol} (ht : t ∈ trees)
    {cs : List (Tree Symbol)} (some_child : cs ≠ [])
    (inner : ∀ c ∈ cs, c ∈ t.subtrees ∧ c.isLeaf = false) :
    Rule.kindAmong ((ofTrees trees rareBelow).store.rules.map Rule.left).contains
      ((cs.map ((ofTrees trees rareBelow).trainedTree rareBelow)).map Tree.label) ≠ .terminal := by
  match cs with
  | [] => exact absurd rfl some_child
  | [c] =>
    obtain ⟨hc, notLeaf⟩ := inner c (List.mem_singleton_self c)
    obtain ⟨a, ds, some_below, rfl⟩ := Tree.exists_node_of_not_isLeaf notLeaf
    have category := wf.categories t ht a (Tree.label_mem_innerLabels hc notLeaf)
    have heads : ((ofTrees trees rareBelow).store.rules.map Rule.left).contains a.base = true :=
      contains_left_ofTrees.mpr
        ⟨_, (usedIn_trainedTrees rareBelow wf).mpr ⟨t, ht, a, ds, some_below, hc, rfl, rfl⟩⟩
    rw [List.map_singleton, trainedTree_node a some_below, List.map_singleton, Tree.label,
      Rule.kindAmong, category.spelledBase, heads]
    exact RuleKind.noConfusion
  | c :: d :: cs => exact (Rule.kindAmong_of_two_le (by simp)).1

/-- Trees that are derived one by one are derived together. -/
theorem exists_derives_map {lexical inner : Rule Unit → Prop} {f : Tree Symbol → Tree Symbol}
    {cs : List (Tree Symbol)}
    (each : ∀ c ∈ cs, ∃ used, Derives lexical inner [(f c).label] [f c] used) :
    ∃ used, Derives lexical inner ((cs.map f).map Tree.label) (cs.map f) used := by
  induction cs with
  | nil => exact ⟨[], .nil⟩
  | cons c cs ih =>
    obtain ⟨first, hfirst⟩ := each c List.mem_cons_self
    obtain ⟨rest, hrest⟩ := ih fun d hd => each d (List.mem_cons_of_mem c hd)
    exact ⟨first ++ rest, hfirst.append hrest⟩

/-- Every trained inner node is derived by the grammar. -/
theorem exists_derives_trainedTree (wf : WellFormedTrees trees) {t u : Tree Symbol} (ht : t ∈ trees)
    (hu : u ∈ t.subtrees) (inner : u.isLeaf = false) :
    ∃ used, Derives (ofTrees trees rareBelow).store.Lexical (ofTrees trees rareBelow).store.Phrasal
      [((ofTrees trees rareBelow).trainedTree rareBelow u).label]
      [(ofTrees trees rareBelow).trainedTree rareBelow u] used := by
  induction u using Tree.leafOrNode with
  | leaf a => cases inner
  | node a cs some_child ih =>
    have below : ∀ c ∈ cs, c ∈ t.subtrees := fun c hc => Tree.child_mem_subtrees hu hc
    obtain ⟨r, hr, left, right⟩ := exists_mem_rules_ofTrees.mpr ((usedIn_trainedTrees
      rareBelow wf).mpr ⟨t, ht, a, cs, some_child, hu, rfl, rfl⟩)
    have kind := classified_ofTrees r hr
    rw [right] at kind
    rw [trainedTree_node a some_child, Tree.label, ← left]
    by_cases word : ∃ c ∈ cs, c.isLeaf = true
    -- a leaf stands alone, so the rule is one for the word
    · obtain ⟨c, hc, leaf⟩ := word
      obtain ⟨d, rfl⟩ := List.length_eq_one_iff.mp (wf.lone t ht _ hu c hc leaf)
      obtain rfl : c = d := List.mem_singleton.mp hc
      have hleaf := below c hc
      rw [Tree.eq_leaf_of_isLeaf leaf] at hleaf kind right ⊢
      have terminal := kindAmong_word rareBelow wf ht
        (Tree.mem_words_of_leaf_mem_subtrees hleaf)
      exact ⟨[r], .single_word ⟨hr, kind.trans terminal⟩ right⟩
    · push Not at word
      have notLeaf : ∀ c ∈ cs, c.isLeaf = false := fun c hc => by simpa using word c hc
      have phrasal := kindAmong_inner rareBelow wf ht some_child
        fun c hc => ⟨below c hc, notLeaf c hc⟩
      obtain ⟨used, hused⟩ := exists_derives_map fun c hc => ih c hc (below c hc) (notLeaf c hc)
      exact ⟨r :: used, .single_node ⟨hr, kind ▸ phrasal⟩ (right ▸ hused)⟩

end Training

/-- Well-formed training trees are recovered. The grammar of a well-formed treebank is converted,
and for each of its trees the parser shows, among the trees for the sentence and the trimmed root
label, this tree with its inner labels trimmed and every chain of single inner children collapsed
to its topmost label. -/
theorem mem_parse_of_wellFormedTrees (trees : List (Tree Symbol)) (wf : WellFormedTrees trees)
    (rareBelow : Nat) :
    ∃ h, (ofTrees trees rareBelow).normalForm = .ok h ∧ ∀ t ∈ trees,
      (t.mapInner Symbol.base).collapse ∈
        (h.parse (S := Float) t.label.base (t.words.map Symbol.name)).map NodeTable.toTree := by
  obtain ⟨indexed, filled⟩ := indexed_filled_ofTrees trees rareBelow
  have unconverted := isHelper_ofTrees trees rareBelow
  obtain ⟨middle, h, new, conv⟩ := exists_converts multiplicative_one indexed filled
    classified_ofTrees
  refine ⟨h, conv.ok, fun t ht => ?_⟩
  obtain ⟨used, derives⟩ := exists_derives_trainedTree rareBelow wf ht
    t.self_mem_subtrees (wf.rooted t ht)
  have root : ((ofTrees trees rareBelow).trainedTree rareBelow t).label = t.label.base := by
    obtain ⟨a, cs, some_child, rfl⟩ := Tree.exists_node_of_not_isLeaf (wf.rooted t ht)
    rw [trainedTree_node a some_child, Tree.label, Tree.label]
  rw [root] at derives
  have plain : h.isHelper t.label.base = false := by
    rw [conv.isHelper_eq unconverted]
    exact conv.fresh _ (conv.mem_symbols_of_derives filled classified_ofTrees derives)
  obtain ⟨c, rules, hc, spliced, -⟩ := conv.exists_chart_of_derivation unconverted filled
    classified_ofTrees Store.comparison_trivial conv.closed.dominates plain derives
  have spells : ((ofTrees trees rareBelow).trainedTree rareBelow t).words =
      (ofTrees trees rareBelow).tokenSymbols (t.words.map Symbol.name) := by
    rw [trainedTree, Tree.words_mapLeaves, Tree.words_mapInner, tokenSymbols, List.map_map]
    exact List.map_congr_left fun w hw => (tokenSymbol_eq_trainedSymbol rareBelow wf ht hw).symm
  have goal := (mem_goalTrees (S := Float) conv.indexed).mpr
    ⟨rules, hc, (conv.words_iff indexed _ spliced).mpr spells⟩
  rw [map_toTree_parse]
  refine List.mem_map.mpr ⟨c, goal, ?_⟩
  have words : (t.mapInner Symbol.base).collapse.words = t.words := by
    rw [Tree.words_collapse, Tree.words_mapInner]
  have restored := Tree.restoreWords_mapLeaves (t := (t.mapInner Symbol.base).collapse) []
    fun w _ => (ofTrees trees rareBelow).restoreWord_trainedSymbol rareBelow w
  rw [words, List.append_nil] at restored
  rw [spliced, trainedTree, Tree.collapse_mapLeaves, restored]

/-- A tree with function tags, a chain of inner nodes, a node with three children, a number and
words that are seen once. -/
def invoice : Tree Symbol :=
  .node ⟨"S-MAIN"⟩ [.node ⟨"NP=2"⟩ [.node ⟨"NNP"⟩ [.leaf ⟨"Kim"⟩]],
    .node ⟨"VBZ"⟩ [.leaf ⟨"owes"⟩], .node ⟨"NP-OBJ"⟩ [.node ⟨"CD"⟩ [.leaf ⟨"40"⟩]]]

/-- The tree is well-formed, and it is shown again without its tags and its chain. -/
theorem mem_parse_of_wellFormedTrees_invoice :
    WellFormedTrees [invoice] ∧ ∃ h, (ofTrees [invoice] 2).normalForm = .ok h ∧
      .node ⟨"S"⟩ [.node ⟨"NP"⟩ [.leaf ⟨"Kim"⟩], .node ⟨"VBZ"⟩ [.leaf ⟨"owes"⟩],
          .node ⟨"NP"⟩ [.leaf ⟨"40"⟩]] ∈
        (h.parse (S := Float) ⟨"S"⟩ ["Kim", "owes", "40"]).map NodeTable.toTree := by
  have wf : WellFormedTrees [invoice] := by decide +kernel
  obtain ⟨h, done, shown⟩ := mem_parse_of_wellFormedTrees [invoice] wf 2
  exact ⟨wf, h, done, shown invoice (List.mem_singleton_self _)⟩

end Grammar

end Constituency
