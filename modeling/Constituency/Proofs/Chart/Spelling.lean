import Constituency.Proofs.Chart.Pruned

/-!
# Parses spell their sentence

A word that is a number or rare is parsed as another symbol, and the tree that
is shown has the word again. The two are linked by the place of the leaf alone,
so nothing in between may drop, add or move a leaf: the chart covers every word
once and in order, the table of a tree has its leaves in the same order, and
splicing takes out inner nodes only. None of this asks anything of the grammar.
-/

namespace Constituency

variable {W S : Type}

namespace Candidate

/-- A cell that keeps the best of each symbol keeps only what it is offered. -/
theorem pruned_subset [Score S] (offered : List (Candidate S)) : pruned offered ⊆ offered := by
  induction offered using List.reverseRecOn with
  | nil => exact List.Subset.refl _
  | append_singleton offered new ih =>
    rw [pruned_concat]
    intro c hc
    rcases mem_keepBetter hc with old | rfl
    · exact List.mem_append_left _ (ih old)
    · exact List.mem_append_right _ (List.mem_singleton_self c)

end Candidate

namespace Store

variable [Score S] [WeightScore W S] {s : Store W}

/-- Whatever cells keep of what they are offered, a candidate is built over the words of its
span. -/
theorem Indexed.exists_builds_of_mem_cell (h : s.Indexed)
    {keep : List (Candidate S) → List (Candidate S)} (kept : ∀ offered, keep offered ⊆ offered)
    {words : List Symbol} {first last : Nat} (ordered : first ≤ last) (inside : last < words.length)
    {c : Candidate S} (hc : c ∈ (s.chart keep words).cell first last) :
    ∃ used, s.Builds c (spanWords words first last) used := by
  induction hn : last - first using Nat.strongRecOn generalizing first last c with
  | _ n ih =>
    rw [cell_chart s keep ordered inside] at hc
    have offered := kept _ hc
    rw [spanCandidates] at offered
    by_cases single : first = last
    · subst single
      rw [if_pos rfl, List.getElem?_eq_getElem inside, Option.map_some, Option.getD_some,
        h.mem_wordCandidates] at offered
      rwa [spanWords_self inside]
    · rw [if_neg single, mem_splitCandidates] at offered
      obtain ⟨k, hk, left, hleft, right, hright, joined⟩ := offered
      obtain ⟨r, stored, sides, rfl⟩ := h.mem_pairCandidates.mp joined
      obtain ⟨usedLeft, builtLeft⟩ := ih k (by omega) (by omega) (by omega) hleft (by omega)
      obtain ⟨usedRight, builtRight⟩ :=
        ih (last - (first + k + 1)) (by omega) (by omega) (by omega) hright rfl
      rw [← spanWords_append words (show first ≤ first + k by omega) (by omega)]
      exact ⟨_, .pair stored sides builtLeft builtRight⟩

end Store

namespace Grammar

/-- A word comes back from its symbol, whether it was replaced or not. -/
theorem restoreWord_tokenSymbol (g : Grammar W) (word : String) :
    restoreWord (g.tokenSymbol word) (some word) = ⟨word⟩ := by
  have kept : restoreWord ⟨word⟩ (some word) = ⟨word⟩ := by
    rw [restoreWord]
    split <;> rfl
  rw [tokenSymbol]
  split
  · rw [replacement?]
    split
    · rfl
    · split
      · rfl
      · exact kept
  · exact kept

/-- The table that is shown for a candidate is proper. -/
theorem proper_finish (g : Grammar W) (words : List String) (c : Candidate S) :
    (g.finish words c).Proper :=
  (NodeTable.proper_linked_ofTree g.isHelper c.toTree).of_children
    (NodeTable.children_restoreWords _ words)

/-- The tree that is shown for a candidate over the symbols of a sentence has the words of the
sentence, and its root has the symbol of the candidate. -/
theorem finish_spells (g : Grammar W) {words : List String} {c : Candidate S}
    (inner : c.isLeaf = false) (spells : c.toTree.words = g.tokenSymbols words) :
    (g.finish words c).words = words.map Symbol.mk ∧
      (g.finish words c).symbol NodeTable.root = c.symbol := by
  constructor
  · have spliced : (c.toTree.splice g.isHelper).words = words.map g.tokenSymbol := by
      rw [Tree.words_splice, spells, tokenSymbols]
    have restored := Tree.words_restoreWords g.restoreWord_tokenSymbol [] spliced
    rw [List.append_nil] at restored
    rw [(g.proper_finish words c).words_eq, toTree_finish, restored]
  · have innerSpliced : (c.toTree.splice g.isHelper).isLeaf = false := by
      rw [Tree.isLeaf_splice, Candidate.toTree, Tree.isLeaf_map, inner]
    rw [NodeTable.symbol_root, toTree_finish, Tree.label_restoreWords innerSpliced,
      Tree.label_splice, Candidate.toTree, Tree.label_map, Candidate.symbol]

variable [Score S] [WeightScore W S]

/-- The candidates for a start symbol are those of the widest span, if there is a word. -/
theorem mem_cell_of_mem_goals {s : Store W}
    {keep : List (Candidate S) → List (Candidate S)} {start : Symbol} {symbols : List Symbol}
    {c : Candidate S} (hc : c ∈ goals start (s.chart keep symbols)) :
    c.symbol = start ∧ symbols ≠ [] ∧ c ∈ (s.chart keep symbols).cell 0 (symbols.length - 1) := by
  rw [goals, Candidate.withSymbol, List.mem_filter, beq_iff_eq] at hc
  obtain ⟨stored, same⟩ := hc
  by_cases empty : symbols = []
  · rw [empty, top?_chart_nil] at stored
    exact absurd stored List.not_mem_nil
  · rw [top?_chart s keep empty, Option.getD_some] at stored
    exact ⟨same, empty, stored⟩

/-- The candidates for a start symbol, whatever cells keep, are inner nodes over the symbols of the
sentence. -/
theorem words_of_mem_goals (g : Grammar W) {keep : List (Candidate S) → List (Candidate S)}
    (kept : ∀ offered, keep offered ⊆ offered) {start : Symbol} {words : List String}
    {c : Candidate S} (hc : c ∈ goals start (g.store.chart keep (g.tokenSymbols words))) :
    c.symbol = start ∧ c.isLeaf = false ∧ c.toTree.words = g.tokenSymbols words := by
  obtain ⟨same, some_word, stored⟩ := mem_cell_of_mem_goals hc
  have pos := List.length_pos_iff.mpr some_word
  have covers := Store.words_of_mem_cell kept (Nat.zero_le _) (by omega) stored
  rw [spanWords_all some_word] at covers
  exact ⟨same, covers⟩

/-- The candidates for a start symbol, whatever cells keep, are built for it over the symbols of the
sentence. -/
theorem builds_of_mem_goals {g : Grammar W} (h : g.store.Indexed)
    {keep : List (Candidate S) → List (Candidate S)} (kept : ∀ offered, keep offered ⊆ offered)
    {start : Symbol} {words : List String} {c : Candidate S}
    (hc : c ∈ goals start (g.store.chart keep (g.tokenSymbols words))) :
    c.symbol = start ∧ ∃ used, g.store.Builds c (g.tokenSymbols words) used := by
  obtain ⟨same, some_word, stored⟩ := mem_cell_of_mem_goals hc
  have pos := List.length_pos_iff.mpr some_word
  have built := h.exists_builds_of_mem_cell kept (Nat.zero_le _) (by omega) stored
  rw [spanWords_all some_word] at built
  exact ⟨same, built⟩

/-- Every tree that either parser shows spells the sentence, word by word and in order, and its root
is the start symbol. -/
theorem parse_spells (g : Grammar W) (start : Symbol) (words : List String) :
    (∀ t ∈ g.parse (S := S) start words,
      t.words = words.map Symbol.mk ∧ t.symbol NodeTable.root = start) ∧
    ∀ result ∈ g.parseBest (S := S) start words,
      result.1.words = words.map Symbol.mk ∧ result.1.symbol NodeTable.root = start := by
  constructor
  · intro t ht
    obtain ⟨c, hc, rfl⟩ := List.mem_map.mp ht
    obtain ⟨rfl, inner, spells⟩ := g.words_of_mem_goals List.Subset.refl hc
    exact g.finish_spells inner spells
  · intro result hresult
    obtain ⟨c, hc, rfl⟩ := List.mem_map.mp hresult
    obtain ⟨rfl, inner, spells⟩ :=
      g.words_of_mem_goals Candidate.pruned_subset (List.mem_filter.mp hc).1
    exact g.finish_spells inner spells

/-- A number comes back, and so does a rare word that is spelled like a helper. -/
example : ((ofRules [⟨⟨"S"⟩, [⟨"C"⟩, ⟨"N"⟩], .binary, ()⟩, ⟨⟨"C"⟩, [.number], .terminal, ()⟩,
      ⟨⟨"N"⟩, [.rare], .terminal, ()⟩] : Grammar Unit).parse ⟨"S"⟩ ["12", "X0"]).map
        NodeTable.words = [[⟨"12"⟩, ⟨"X0"⟩]] := by
  decide +kernel

end Grammar

end Constituency
