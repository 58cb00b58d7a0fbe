import Constituency.Parser
import Constituency.Proofs.Chart.Fill
import Constituency.Proofs.Derivation.Basic
import Constituency.Proofs.Grammar.Reachable
import Constituency.Proofs.Tree.Table
import Mathlib.Data.List.Nodup

/-!
# The exhaustive chart

A cell of the exhaustive chart holds every derivation of its span by rules for
words and rules with two right symbols, each exactly once. `Builds` says which
candidates there are, with their scores and the rules they use; forgetting the
scores gives the derivation trees. The parser shows one tree for each of those
that derive the whole sentence from the start symbol.
-/

namespace Constituency

variable {W S : Type}

/-- The words of a span. -/
def spanWords (words : List Symbol) (first last : Nat) : List Symbol :=
  (words.drop first).take (last + 1 - first)

/-- The words of two neighbouring spans are those of the span of both. -/
theorem spanWords_append (words : List Symbol) {first middle last : Nat} (h : first ≤ middle)
    (h' : middle < last) :
    spanWords words first middle ++ spanWords words (middle + 1) last =
      spanWords words first last := by
  rw [spanWords, spanWords, spanWords,
    show last + 1 - first = (middle + 1 - first) + (last + 1 - (middle + 1)) by omega,
    List.take_add, List.drop_drop, show first + (middle + 1 - first) = middle + 1 by omega]

/-- A span has as many words as its ends tell. -/
theorem length_spanWords {words : List Symbol} {first last : Nat} (h : first ≤ last)
    (inside : last < words.length) : (spanWords words first last).length = last + 1 - first := by
  rw [spanWords, List.length_take, List.length_drop]
  omega

/-- A span of one word has this word. -/
theorem spanWords_self {words : List Symbol} {first : Nat} (inside : first < words.length) :
    spanWords words first first = [words[first]] := by
  rw [spanWords, Nat.add_sub_cancel_left, List.drop_eq_getElem_cons inside, List.take_succ_cons,
    List.take_zero]

/-- The words of the whole sentence are all words. -/
theorem spanWords_all {words : List Symbol} (h : words ≠ []) :
    spanWords words 0 (words.length - 1) = words := by
  have := List.length_pos_iff.mpr h
  rw [spanWords, List.drop_zero, List.take_of_length_le (by omega)]

namespace Store

variable [Score S] [WeightScore W S]

/-- The candidates that the rules of a store build over words, with the rules used, parents before
children. -/
inductive Builds (s : Store W) : Candidate S → List Symbol → List (Rule W) → Prop
  /-- A rule for a word builds its left symbol over the word. -/
  | word {r : Rule W} {a : Symbol} (licence : s.Lexical r) (right : r.right = [a]) :
      Builds s (.node ⟨r.left, WeightScore.ofWeight r.weight⟩ [.leaf ⟨a, Score.zero⟩]) [a] [r]
  /-- A rule with two right symbols builds its left symbol over two candidates. -/
  | pair {r : Rule W} {left right : Candidate S} {front back : List Symbol}
      {first second : List (Rule W)} (stored : r ∈ s.rules)
      (sides : r.right = [left.symbol, right.symbol]) (hleft : Builds s left front first)
      (hright : Builds s right back second) :
      Builds s
        (.node
          ⟨r.left,
            Score.add (Score.add (WeightScore.ofWeight r.weight) left.score) right.score⟩
          [left, right])
        (front ++ back) (r :: (first ++ second))

variable {s : Store W}

/-- Something is built over at least one word. -/
theorem Builds.words_ne_nil {c : Candidate S} {words : List Symbol} {used : List (Rule W)}
    (h : s.Builds c words used) : words ≠ [] := by
  induction h with
  | word => exact List.cons_ne_nil _ _
  | pair _ _ _ _ ih _ => exact List.append_ne_nil_of_left_ne_nil ih _

/-- The tree of a candidate is a derivation by the rules used, over its words. -/
theorem Builds.derives {c : Candidate S} {words : List Symbol} {used : List (Rule W)}
    (h : s.Builds c words used) :
    Derives s.Lexical s.Pairing [c.symbol] [c.toTree] used ∧ c.toTree.words = words := by
  induction h with
  | word licence right => exact ⟨.single_word licence right, rfl⟩
  | @pair r left right front back first second stored sides _ _ ihLeft ihRight =>
    have both := ihLeft.1.append ihRight.1
    constructor
    · refine .single_node ⟨stored, by rw [sides]; rfl⟩ ?_
      rw [sides]
      exact both
    · have below : Tree.wordsAll [left.toTree, right.toTree] = front ++ back := by
        rw [Tree.wordsAll, Tree.wordsAll, Tree.wordsAll, ihLeft.2, ihRight.2, List.append_nil]
      exact (Tree.words_node (List.cons_ne_nil _ _) _).trans below

/-- Every derivation by rules for words and rules with two right symbols is built. -/
theorem exists_builds {x : Symbol} {t : Tree Symbol} {used : List (Rule W)}
    (h : Derives s.Lexical s.Pairing [x] [t] used) :
    ∃ c : Candidate S, s.Builds c t.words used ∧ c.toTree = t ∧ c.symbol = x := by
  match t with
  | .node b children =>
    cases h with
    | word licence right rest =>
      cases rest
      exact ⟨_, .word licence right, rfl, rfl⟩
    | @node r _ below _ _ _ licence right rest =>
      cases rest
      obtain ⟨a, b, sides⟩ := List.length_eq_two.mp licence.2
      rw [sides] at right
      obtain ⟨t, rest, first, second, rfl, rfl, ht, hrest⟩ := right.uncons
      obtain ⟨u, rest, third, fourth, rfl, rfl, hu, hrest⟩ := hrest.uncons
      cases hrest
      obtain ⟨c, hc, rfl, rfl⟩ := exists_builds ht
      obtain ⟨d, hd, rfl, rfl⟩ := exists_builds hu
      have built := Builds.pair licence.1 sides hc hd
      refine ⟨.node ⟨r.left,
        Score.add (Score.add (WeightScore.ofWeight r.weight) c.score) d.score⟩ [c, d], ?_, rfl, rfl⟩
      rw [Tree.words, Tree.wordsAll, Tree.wordsAll, List.append_nil, List.append_nil,
        List.append_nil]
      exact built

/-! ## The cells -/

/-- The candidates of a span depend on the cells inside it only. -/
theorem local_spanCandidates (s : Store W) (keep : List (Candidate S) → List (Candidate S))
    (words : List Symbol) :
    Chart.Local fun cell first last => keep (s.spanCandidates words cell first last) := by
  intro cells cells' span same
  obtain ⟨first, last⟩ := span
  dsimp only
  congr 1
  rw [spanCandidates, spanCandidates]
  split
  · rfl
  · rw [splitCandidates, splitCandidates]
    refine List.flatMap_congr fun k hk => ?_
    rw [List.mem_range] at hk
    have front := same (first, first + k)
      ⟨Nat.le_refl _, by dsimp only; omega, by dsimp only; omega⟩
      (by simp only [ne_eq, Prod.mk.injEq, true_and]; omega)
    have back := same (first + k + 1, last)
      ⟨by dsimp only; omega, by dsimp only; omega, Nat.le_refl _⟩
      (by simp only [ne_eq, Prod.mk.injEq, and_true]; omega)
    rw [front, back]

/-- Each cell of a chart keeps some of the candidates that the finished chart has for its span. -/
theorem cell_chart (s : Store W) (keep : List (Candidate S) → List (Candidate S))
    {words : List Symbol} {first last : Nat} (h : first ≤ last) (inside : last < words.length) :
    (s.chart keep words).cell first last =
      keep (s.spanCandidates words (s.chart keep words).cell first last) :=
  Chart.cell_fill (local_spanCandidates s keep words) h inside

/-- The candidates for a word are those built over it. -/
theorem Indexed.mem_wordCandidates (h : s.Indexed) {word : Symbol} {c : Candidate S} :
    c ∈ s.wordCandidates word ↔ ∃ used, s.Builds c [word] used := by
  rw [wordCandidates, List.mem_map]
  constructor
  · rintro ⟨r, hr, rfl⟩
    obtain ⟨stored, right, kind⟩ := h.mem_wordRules.mp hr
    exact ⟨_, .word ⟨stored, kind⟩ right⟩
  · rintro ⟨used, hc⟩
    generalize hw : [word] = words at hc
    cases hc with
    | @word r a licence right =>
      cases hw
      exact ⟨r, h.mem_wordRules.mpr ⟨licence.1, right, licence.2⟩, rfl⟩
    | @pair _ _ _ front back _ _ _ _ hleft hright =>
      have one := congrArg List.length hw
      have some_front := List.length_pos_iff.mpr hleft.words_ne_nil
      have some_back := List.length_pos_iff.mpr hright.words_ne_nil
      rw [List.length_append, List.length_singleton] at one
      omega

/-- The candidates that join two are those of rules for both. -/
theorem Indexed.mem_pairCandidates (h : s.Indexed) {left right c : Candidate S} :
    c ∈ s.pairCandidates left right ↔ ∃ r ∈ s.rules, r.right = [left.symbol, right.symbol] ∧
      c = .node ⟨r.left,
        Score.add (Score.add (WeightScore.ofWeight r.weight) left.score) right.score⟩
        [left, right] := by
  rw [pairCandidates, List.mem_map]
  constructor
  · rintro ⟨r, hr, rfl⟩
    obtain ⟨stored, sides⟩ := h.mem_withRight.mp hr
    exact ⟨r, stored, sides, rfl⟩
  · rintro ⟨r, stored, sides, rfl⟩
    exact ⟨r, h.mem_withRight.mpr ⟨stored, sides⟩, rfl⟩

/-- The candidates of a span of several words join candidates of two neighbouring spans. -/
theorem mem_splitCandidates {cell : Nat → Nat → List (Candidate S)} {first last : Nat}
    {c : Candidate S} :
    c ∈ s.splitCandidates cell first last ↔ ∃ k, k < last - first ∧
      ∃ left ∈ cell first (first + k), ∃ right ∈ cell (first + k + 1) last,
        c ∈ s.pairCandidates left right := by
  simp only [splitCandidates, List.mem_flatMap, List.mem_range]

/-- Whatever cells keep of what they are offered, a candidate is an inner node over the words of its
span. -/
theorem words_of_mem_cell {s : Store W} {keep : List (Candidate S) → List (Candidate S)}
    (kept : ∀ offered, keep offered ⊆ offered) {words : List Symbol} {first last : Nat}
    (ordered : first ≤ last) (inside : last < words.length) {c : Candidate S}
    (hc : c ∈ (s.chart keep words).cell first last) :
    c.isLeaf = false ∧ c.toTree.words = spanWords words first last := by
  induction hn : last - first using Nat.strongRecOn generalizing first last c with
  | _ n ih =>
    rw [cell_chart s keep ordered inside] at hc
    have offered := kept _ hc
    rw [spanCandidates] at offered
    by_cases single : first = last
    · subst single
      rw [if_pos rfl, List.getElem?_eq_getElem inside, Option.map_some, Option.getD_some,
        wordCandidates, List.mem_map] at offered
      obtain ⟨r, -, rfl⟩ := offered
      exact ⟨rfl, (spanWords_self inside).symm⟩
    · rw [if_neg single, mem_splitCandidates] at offered
      obtain ⟨k, hk, left, hleft, right, hright, joined⟩ := offered
      obtain ⟨r, -, rfl⟩ := List.mem_map.mp joined
      have front := (ih k (by omega) (by omega) (by omega) hleft (by omega)).2
      have back := (ih (last - (first + k + 1)) (by omega) (by omega) (by omega) hright rfl).2
      have below : Tree.wordsAll [left.toTree, right.toTree] = spanWords words first last := by
        rw [Tree.wordsAll, Tree.wordsAll, Tree.wordsAll, List.append_nil, front, back,
          spanWords_append words (by omega) (by omega)]
      exact ⟨rfl, (Tree.words_node (List.cons_ne_nil _ _) _).trans below⟩

/-- The exhaustive chart of a sentence. -/
def allCandidates (s : Store W) (words : List Symbol) : Nat → Nat → List (Candidate S) :=
  (s.chart id words).cell

/-- A cell of the exhaustive chart holds what is built over the words of its span. -/
theorem Indexed.mem_allCandidates (h : s.Indexed) {words : List Symbol} {first last : Nat}
    (ordered : first ≤ last) (inside : last < words.length) {c : Candidate S} :
    c ∈ s.allCandidates words first last ↔
      ∃ used, s.Builds c (spanWords words first last) used := by
  induction hn : last - first using Nat.strongRecOn generalizing first last c with
  | _ n ih =>
    rw [allCandidates, cell_chart s id ordered inside, id, spanCandidates]
    by_cases single : first = last
    · subst single
      rw [if_pos rfl, List.getElem?_eq_getElem inside, Option.map_some, Option.getD_some,
        h.mem_wordCandidates, spanWords_self inside]
    · rw [if_neg single, mem_splitCandidates]
      constructor
      · rintro ⟨k, hk, left, hleft, right, hright, hc⟩
        obtain ⟨r, stored, sides, rfl⟩ := h.mem_pairCandidates.mp hc
        obtain ⟨first', hleft⟩ := (ih k (by omega) (by omega) (by omega) (by omega)).mp hleft
        obtain ⟨second, hright⟩ :=
          (ih (last - (first + k + 1)) (by omega) (by omega) (by omega) rfl).mp hright
        have built := Builds.pair stored sides hleft hright
        rw [spanWords_append words (by omega) (by omega)] at built
        exact ⟨_, built⟩
      · rintro ⟨used, hc⟩
        generalize hw : spanWords words first last = span at hc
        have length := length_spanWords ordered inside
        rw [hw] at length
        cases hc with
        | word => rw [List.length_singleton] at length; omega
        | @pair r left right front back _ _ stored sides hleft hright =>
          have some_front := List.length_pos_iff.mpr hleft.words_ne_nil
          have some_back := List.length_pos_iff.mpr hright.words_ne_nil
          rw [List.length_append] at length
          have parts := hw
          have within : first ≤ first + (front.length - 1) := by omega
          rw [← spanWords_append words within (by omega)]
            at parts
          obtain ⟨hfront, hback⟩ := List.append_inj parts
            (by rw [length_spanWords (by omega) (by omega)]; omega)
          refine ⟨front.length - 1, by omega, left, ?_, right, ?_,
            h.mem_pairCandidates.mpr ⟨r, stored, sides, rfl⟩⟩
          · exact (ih (front.length - 1) (by omega) (by omega) (by omega) (by omega)).mpr
              ⟨_, hfront ▸ hleft⟩
          · exact (ih (last - (first + (front.length - 1) + 1)) (by omega) (by omega) (by omega)
              rfl).mpr ⟨_, hback ▸ hright⟩

/-- The candidates that join two have different trees. -/
theorem Indexed.nodup_pairCandidates (h : s.Indexed) (left right : Candidate S) :
    ((s.pairCandidates left right).map Candidate.toTree).Nodup := by
  have trees : (s.pairCandidates left right).map Candidate.toTree =
      ((s.pairRules left.symbol right.symbol).map Rule.left).map
        fun x => .node x [left.toTree, right.toTree] := by
    rw [pairCandidates, List.map_map, List.map_map]
    rfl
  rw [trees]
  exact List.Nodup.map (fun x y heq => (Tree.node.inj heq).1) (h.nodup_left_withRight _)

/-- The candidates for a word have different trees. -/
theorem Indexed.nodup_wordCandidates (h : s.Indexed) (word : Symbol) :
    ((s.wordCandidates (S := S) word).map Candidate.toTree).Nodup := by
  have trees : (s.wordCandidates (S := S) word).map Candidate.toTree =
      ((s.wordRules word).map Rule.left).map fun x => .node x [.leaf word] := by
    rw [wordCandidates, List.map_map, List.map_map]
    rfl
  rw [trees]
  refine List.Nodup.map (fun x y heq => (Tree.node.inj heq).1) ?_
  exact (h.nodup_left_withRight [word]).sublist (List.filter_sublist.map _)

/-- The candidates that join members of two lists. -/
def joins (s : Store W) (lefts rights : List (Candidate S)) : List (Candidate S) :=
  lefts.flatMap fun left => rights.flatMap fun right => s.pairCandidates left right

/-- The tree of a candidate that joins two has their trees below it. -/
theorem Indexed.exists_of_mem_joins (h : s.Indexed) {lefts rights : List (Candidate S)}
    {t : Tree Symbol} (ht : t ∈ (s.joins lefts rights).map Candidate.toTree) :
    ∃ x, ∃ left ∈ lefts, ∃ right ∈ rights, t = .node x [left.toTree, right.toTree] := by
  obtain ⟨c, hc, rfl⟩ := List.mem_map.mp ht
  obtain ⟨left, hleft, hc⟩ := List.mem_flatMap.mp hc
  obtain ⟨right, hright, hc⟩ := List.mem_flatMap.mp hc
  obtain ⟨r, -, -, rfl⟩ := h.mem_pairCandidates.mp hc
  exact ⟨r.left, left, hleft, right, hright, rfl⟩

/-- Lists without repeated trees are joined without repeated trees. -/
theorem Indexed.nodup_joins (h : s.Indexed) {lefts rights : List (Candidate S)}
    (nodupLeft : (lefts.map Candidate.toTree).Nodup)
    (nodupRight : (rights.map Candidate.toTree).Nodup) :
    ((s.joins lefts rights).map Candidate.toTree).Nodup := by
  have single : ∀ left right : Candidate S, s.joins [left] [right] = s.pairCandidates left right :=
    fun left right => by simp [joins]
  rw [List.nodup_iff_pairwise_ne, List.pairwise_map] at nodupLeft nodupRight
  rw [joins, List.map_flatMap, List.nodup_flatMap]
  constructor
  · intro left _
    rw [List.map_flatMap, List.nodup_flatMap]
    refine ⟨fun right _ => h.nodup_pairCandidates left right, nodupRight.imp ?_⟩
    intro right right' hne t ht ht'
    dsimp only at ht ht'
    rw [← single] at ht ht'
    obtain ⟨x, l, -, r, hr, rfl⟩ := h.exists_of_mem_joins ht
    obtain ⟨x', l', -, r', hr', heq⟩ := h.exists_of_mem_joins ht'
    rw [List.mem_singleton] at hr hr'
    subst hr hr'
    simp only [Tree.node.injEq, List.cons.injEq, and_true] at heq
    exact hne heq.2.2
  · refine nodupLeft.imp ?_
    intro left left' hne t ht ht'
    have alone : ∀ left : Candidate S,
        (rights.flatMap fun right => s.pairCandidates left right) = s.joins [left] rights :=
      fun left => by simp [joins]
    dsimp only at ht ht'
    rw [alone] at ht ht'
    obtain ⟨x, l, hl, r, -, rfl⟩ := h.exists_of_mem_joins ht
    obtain ⟨x', l', hl', r', -, heq⟩ := h.exists_of_mem_joins ht'
    rw [List.mem_singleton] at hl hl'
    subst hl hl'
    simp only [Tree.node.injEq, List.cons.injEq, and_true] at heq
    exact hne heq.2.1

/-- A cell of the exhaustive chart has no tree twice. -/
theorem Indexed.nodup_allCandidates (h : s.Indexed) {words : List Symbol} {first last : Nat}
    (ordered : first ≤ last) (inside : last < words.length) :
    ((s.allCandidates (S := S) words first last).map Candidate.toTree).Nodup := by
  induction hn : last - first using Nat.strongRecOn generalizing first last with
  | _ n ih =>
    rw [allCandidates, cell_chart s id ordered inside, id, spanCandidates]
    by_cases single : first = last
    · subst single
      rw [if_pos rfl, List.getElem?_eq_getElem inside, Option.map_some, Option.getD_some]
      exact h.nodup_wordCandidates _
    · have split : s.splitCandidates (s.chart id words).cell first last =
          (List.range (last - first)).flatMap fun k =>
            s.joins (s.allCandidates (S := S) words first (first + k))
              (s.allCandidates words (first + k + 1) last) := rfl
      rw [if_neg single, split, List.map_flatMap, List.nodup_flatMap]
      constructor
      · intro k hk
        rw [List.mem_range] at hk
        exact h.nodup_joins (ih k (by omega) (by omega) (by omega) (by omega))
          (ih (last - (first + k + 1)) (by omega) (by omega) (by omega) rfl)
      -- candidates for different places to cut have left parts of different lengths
      · refine List.Pairwise.imp_of_mem ?_ List.pairwise_lt_range
        intro k k' hk hk' hlt t ht ht'
        rw [List.mem_range] at hk hk'
        obtain ⟨x, l, hl, r, -, rfl⟩ := h.exists_of_mem_joins ht
        obtain ⟨x', l', hl', r', -, heq⟩ := h.exists_of_mem_joins ht'
        simp only [Tree.node.injEq, List.cons.injEq, and_true] at heq
        have words_l := (words_of_mem_cell List.Subset.refl (by omega) (by omega) hl).2
        have words_l' := (words_of_mem_cell List.Subset.refl (by omega) (by omega) hl').2
        have lengths := congrArg List.length (words_l.symm.trans (heq.2.1 ▸ words_l'))
        rw [length_spanWords (by omega) (by omega), length_spanWords (by omega) (by omega)]
          at lengths
        omega

/-- The trees of a cell of the exhaustive chart are the derivations by rules for words and rules
with two right symbols, over the words of its span. -/
theorem Indexed.mem_map_toTree_allCandidates (h : s.Indexed) {words : List Symbol}
    {first last : Nat} (ordered : first ≤ last) (inside : last < words.length) {t : Tree Symbol} :
    t ∈ (s.allCandidates (S := S) words first last).map Candidate.toTree ↔
      ∃ x used, Derives s.Lexical s.Pairing [x] [t] used ∧
        t.words = spanWords words first last := by
  rw [List.mem_map]
  constructor
  · rintro ⟨c, hc, rfl⟩
    obtain ⟨used, built⟩ := (h.mem_allCandidates ordered inside).mp hc
    exact ⟨c.symbol, used, built.derives⟩
  · rintro ⟨x, used, hd, hwords⟩
    obtain ⟨c, built, rfl, -⟩ := exists_builds (S := S) hd
    rw [hwords] at built
    exact ⟨c, (h.mem_allCandidates ordered inside).mpr ⟨used, built⟩, rfl⟩

end Store

/-! ## The trees that are shown -/

namespace Grammar

/-- The tree shown for a candidate: helpers are spliced out and words restored. -/
theorem toTree_finish (g : Grammar W) (words : List String) (c : Candidate S) :
    (g.finish words c).toTree = (c.toTree.splice g.isHelper).restoreWords words := by
  rw [finish, (NodeTable.proper_linked_ofTree g.isHelper c.toTree).toTree_restoreWords,
    NodeTable.toTree_linked_ofTree]

variable [Score S] [WeightScore W S]

/-- The candidates for the whole sentence are those of its widest span. -/
theorem top?_chart (s : Store W) (keep : List (Candidate S) → List (Candidate S))
    {words : List Symbol} (h : words ≠ []) :
    (s.chart keep words).top? = some ((s.chart keep words).cell 0 (words.length - 1)) := by
  have length : (s.chart keep words).length = words.length := Chart.length_fill _ _
  have pos := List.length_pos_iff.mpr h
  rw [Chart.top?, length, if_neg (Nat.ne_of_gt pos)]

/-- Without words there are no candidates. -/
theorem top?_chart_nil (s : Store W) (keep : List (Candidate S) → List (Candidate S)) :
    (s.chart keep []).top? = none := by
  have length : (s.chart keep ([] : List Symbol)).length = 0 := Chart.length_fill _ _
  rw [Chart.top?, length, if_pos rfl]

/-- The trees of the candidates for a start symbol, each once. -/
def goalTrees (g : Grammar W) (start : Symbol) (words : List String) : List (Tree Symbol) :=
  (goals start (g.chart (S := S) words)).map Candidate.toTree

/-- The parser shows one tree for each candidate for the start symbol. -/
theorem map_toTree_parse (g : Grammar W) (start : Symbol) (words : List String) :
    (g.parse (S := S) start words).map NodeTable.toTree =
      (g.goalTrees (S := S) start words).map
        fun d => (d.splice g.isHelper).restoreWords words := by
  rw [parse, goalTrees, List.map_map, List.map_map]
  exact List.map_congr_left fun c _ => g.toTree_finish words c

/-- The candidates for a start symbol are candidates for it that cover the sentence. -/
theorem mem_goals {g : Grammar W} {start : Symbol} {words : List String} {c : Candidate S} :
    c ∈ goals start (g.chart words) ↔ words ≠ [] ∧ c.symbol = start ∧
      c ∈ g.store.allCandidates (g.tokenSymbols words) 0 ((g.tokenSymbols words).length - 1) := by
  rw [goals, Candidate.withSymbol, List.mem_filter, beq_iff_eq, chart]
  by_cases empty : words = []
  · subst empty
    rw [show g.tokenSymbols [] = [] from rfl, top?_chart_nil]
    simp
  · have some_token : g.tokenSymbols words ≠ [] := by
      rw [tokenSymbols]
      exact fun h => empty (List.map_eq_nil_iff.mp h)
    rw [top?_chart g.store id some_token, Option.getD_some]
    exact ⟨fun h => ⟨empty, h.2, h.1⟩, fun h => ⟨h.2.2, h.2.1⟩⟩

/-- The candidates for a start symbol are what is built for it over the sentence. -/
theorem mem_goals_iff_builds {g : Grammar W} (h : g.store.Indexed) {start : Symbol}
    {words : List String} {c : Candidate S} :
    c ∈ goals start (g.chart words) ↔
      c.symbol = start ∧ ∃ used, g.store.Builds c (g.tokenSymbols words) used := by
  have length : (g.tokenSymbols words).length = words.length := List.length_map _
  rw [mem_goals]
  constructor
  · rintro ⟨some_word, same, stored⟩
    have pos := List.length_pos_iff.mpr some_word
    have some_token : g.tokenSymbols words ≠ [] := List.length_pos_iff.mp (by omega)
    rw [h.mem_allCandidates (Nat.zero_le _) (by omega), spanWords_all some_token] at stored
    exact ⟨same, stored⟩
  · rintro ⟨same, used, built⟩
    have some_token := built.words_ne_nil
    have pos := List.length_pos_iff.mpr some_token
    refine ⟨List.length_pos_iff.mp (by omega), same, ?_⟩
    rw [h.mem_allCandidates (Nat.zero_le _) (by omega), spanWords_all some_token]
    exact ⟨used, built⟩

/-- The trees of the candidates for a start symbol are its derivations of the sentence by rules for
words and rules with two right symbols. -/
theorem mem_goalTrees {g : Grammar W} (h : g.store.Indexed) {start : Symbol}
    {words : List String} {d : Tree Symbol} :
    d ∈ g.goalTrees (S := S) start words ↔
      ∃ used, Derives g.store.Lexical g.store.Pairing [start] [d] used ∧
        d.words = g.tokenSymbols words := by
  rw [goalTrees, List.mem_map]
  constructor
  · rintro ⟨c, hc, rfl⟩
    obtain ⟨rfl, used, built⟩ := (mem_goals_iff_builds h).mp hc
    exact ⟨used, built.derives⟩
  · rintro ⟨used, hd, hwords⟩
    obtain ⟨c, built, rfl, rfl⟩ := Store.exists_builds (S := S) hd
    rw [hwords] at built
    exact ⟨c, (mem_goals_iff_builds h).mpr ⟨rfl, used, built⟩, rfl⟩

/-- The candidates for a start symbol have different trees. -/
theorem nodup_goalTrees {g : Grammar W} (h : g.store.Indexed) (start : Symbol)
    (words : List String) : (g.goalTrees (S := S) start words).Nodup := by
  rw [goalTrees, goals, chart]
  by_cases empty : g.tokenSymbols words = []
  · rw [empty, top?_chart_nil]
    exact .nil
  · have pos := List.length_pos_iff.mpr empty
    rw [top?_chart g.store id empty, Option.getD_some, Candidate.withSymbol]
    exact (h.nodup_allCandidates (Nat.zero_le _) (by omega)).sublist (List.filter_sublist.map _)

/-- The chart holds every derivation exactly once. For each span of the sentence the candidates are
the derivations, over the symbols of its words, by rules for words and stored rules with two right
symbols; no tree occurs twice. So the parser shows exactly one tree for each such derivation of the
whole sentence from the start symbol. -/
theorem chart_exhaustive [Weight W] (g : Grammar W) (h : g.Reachable (·.right ≠ []))
    (words : List String) :
    (∀ first last, first ≤ last → last < words.length →
      (((g.chart (S := S) words).cell first last).map Candidate.toTree).Nodup ∧
      ∀ t, t ∈ ((g.chart (S := S) words).cell first last).map Candidate.toTree ↔
        ∃ x used, Derives g.store.Lexical g.store.Pairing [x] [t] used ∧
          t.words = spanWords (g.tokenSymbols words) first last) ∧
    ∀ start, ∃ derivations : List (Tree Symbol), derivations.Nodup ∧
      (∀ d, d ∈ derivations ↔
        ∃ used, Derives g.store.Lexical g.store.Pairing [start] [d] used ∧
          d.words = g.tokenSymbols words) ∧
      (g.parse (S := S) start words).map NodeTable.toTree =
        derivations.map fun d => (d.splice g.isHelper).restoreWords words := by
  obtain ⟨indexed, -⟩ := h.indexed_filled fun _ filled => filled
  have length : (g.tokenSymbols words).length = words.length := List.length_map _
  constructor
  · intro first last ordered inside
    rw [← length] at inside
    exact ⟨indexed.nodup_allCandidates ordered inside,
      fun t => indexed.mem_map_toTree_allCandidates ordered inside⟩
  · intro start
    exact ⟨g.goalTrees (S := S) start words, nodup_goalTrees indexed start words,
      fun d => mem_goalTrees indexed, g.map_toTree_parse start words⟩

/-- A grammar in which a sentence of three words has two derivations. -/
def doubling : Grammar Unit :=
  ofRules [⟨⟨"S"⟩, [⟨"S"⟩, ⟨"S"⟩], .binary, ()⟩, ⟨⟨"S"⟩, [⟨"a"⟩], .terminal, ()⟩]

/-- Both derivations of three words are shown. -/
theorem chart_exhaustive_doubling :
    doubling.Reachable (·.right ≠ []) ∧
    (((doubling.chart (S := Float) ["a", "a", "a"]).cell 0 2).map Candidate.toTree).Nodup ∧
    (doubling.parse (S := Float) ⟨"S"⟩ ["a", "a", "a"]).length = 2 := by
  have reachable : doubling.Reachable (·.right ≠ []) := Reachable.ofRules (by simp)
  have spans := (chart_exhaustive (S := Float) doubling reachable ["a", "a", "a"]).1
  exact ⟨reachable, (spans 0 2 (by decide) (by decide)).1, by decide +kernel⟩

end Grammar

end Constituency
