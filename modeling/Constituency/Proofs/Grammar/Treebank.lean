import Constituency.Proofs.Grammar.Plain
import Constituency.Proofs.Tree.Leaves

/-!
# Grammars of treebanks

The plain grammar of a treebank has the rules used at the nodes of the normalized
trees and no others, and a rule for a word is one that has the word alone behind a
node, where the word is spelled like one or stands over nothing. This tells where
a sentence is normalized as the trees were. A word that training replaces is
replaced in a sentence too, unless it has a rule of its own: then it is kept.
-/

namespace Constituency

/-! ## Rules at nodes -/

/-- A node of one of the trees uses the rule with the given sides. -/
def UsedIn (trees : List (Tree Symbol)) (left : Symbol) (right : List Symbol) : Prop :=
  ∃ t ∈ trees, ∃ u ∈ t.subtrees, u.localSides? true = some (left, right)

/-- A symbol is a word of trees: it stands alone behind a node, and it is spelled like a word or
heads no rule at a node. -/
def IsWordIn (trees : List (Tree Symbol)) (word : Symbol) : Prop :=
  (∃ left, UsedIn trees left [word]) ∧
    (word.isWordlike = true ∨ ∀ right, ¬UsedIn trees word right)

/-- A node uses no rule with an empty right side. -/
theorem Tree.right_ne_nil_of_localSides? {trim : Bool} {t : Tree Symbol} {left : Symbol}
    {right : List Symbol} (h : t.localSides? trim = some (left, right)) : right ≠ [] := by
  rw [Tree.localSides?, Constituency.localSides?] at h
  split at h
  · cases h
  · next filled =>
    cases h
    simp only [Bool.or_eq_true, not_or] at filled
    simpa using filled.1.1

/-- The rules at the nodes of a tree are as they are made from the sides used there. -/
theorem Tree.mem_localRules {W : Type} {trim : Bool} {weight : W} {t : Tree Symbol} {r : Rule W} :
    r ∈ t.localRules trim weight ↔
      ∃ left right, (∃ u ∈ t.subtrees, u.localSides? trim = some (left, right)) ∧
        r = ⟨left, right, .ofLength right.length, weight⟩ := by
  have made : ∀ {left : Symbol} {right : List Symbol}, right ≠ [] →
      Rule.ofSides? left right weight = some ⟨left, right, .ofLength right.length, weight⟩ := by
    intro left right filled
    rw [Rule.ofSides?, if_neg (by simpa using filled)]
  rw [Tree.localRules, List.mem_filterMap]
  constructor
  · rintro ⟨u, hu, hr⟩
    obtain ⟨⟨left, right⟩, sides, hr⟩ := Option.bind_eq_some_iff.mp hr
    rw [made (Tree.right_ne_nil_of_localSides? sides)] at hr
    exact ⟨left, right, ⟨u, hu, sides⟩, (Option.some.inj hr).symm⟩
  · rintro ⟨left, right, ⟨u, hu, sides⟩, rfl⟩
    refine ⟨u, hu, Option.bind_eq_some_iff.mpr ⟨(left, right), sides, ?_⟩⟩
    exact made (Tree.right_ne_nil_of_localSides? sides)

/-- Plain rules with the same sides and kind are one rule. -/
theorem Rule.eq_of_sameSides {p q : Rule Unit} (same : p.SameSides q) (kind : p.kind = q.kind) :
    p = q := by
  obtain ⟨left, right, k, weight⟩ := p
  obtain ⟨left', right', k', weight'⟩ := q
  obtain ⟨hleft, hright⟩ := same
  dsimp only at hleft hright kind
  rw [hleft, hright, kind]

namespace Store

variable {W : Type} {s : Store W}

/-- Storing rules of which the sides tell the rule stores them all. -/
theorem Indexed.mem_rules_addAll_of_told (h : s.Indexed) {rules : List (Rule W)}
    (told : ∀ p, p ∈ s.rules ∨ p ∈ rules → ∀ r ∈ rules, p.SameSides r → p = r) {q : Rule W} :
    q ∈ (s.addAll rules).rules ↔ q ∈ s.rules ∨ q ∈ rules := by
  induction rules generalizing s with
  | nil => simp [Store.addAll]
  | cons r rules ih =>
    have step : ∀ p, p ∈ (s.add r).1.rules ↔ p ∈ s.rules ∨ p = r := by
      intro p
      rw [h.mem_rules_add]
      constructor
      · rintro (old | ⟨rfl, -⟩)
        · exact Or.inl old
        · exact Or.inr rfl
      · rintro (old | rfl)
        · exact Or.inl old
        · by_cases new : ∀ q ∈ s.rules, ¬q.SameSides p
          · exact Or.inr ⟨rfl, new⟩
          · push Not at new
            obtain ⟨q, hq, same⟩ := new
            exact Or.inl (told q (Or.inl hq) p List.mem_cons_self same ▸ hq)
    rw [show s.addAll (r :: rules) = (s.add r).1.addAll rules from rfl, ih (h.add r), step,
      List.mem_cons, or_assoc]
    intro p hp r' hr'
    refine told p ?_ r' (List.mem_cons_of_mem r hr')
    rcases hp with hp | hp
    · rcases (step p).mp hp with old | rfl
      · exact Or.inl old
      · exact Or.inr List.mem_cons_self
    · exact Or.inr (List.mem_cons_of_mem r hp)

/-- The left symbols of a store with the rules used at the nodes of trees are those used there. -/
theorem contains_left_of_used {trees : List (Tree Symbol)}
    (used : ∀ left right,
      (∃ r ∈ s.rules, r.left = left ∧ r.right = right) ↔ UsedIn trees left right) {a : Symbol} :
    (s.rules.map Rule.left).contains a = true ↔ ∃ right, UsedIn trees a right := by
  rw [List.contains_iff_mem, List.mem_map]
  constructor
  · rintro ⟨r, hr, rfl⟩
    exact ⟨r.right, (used r.left r.right).mp ⟨r, hr, rfl, rfl⟩⟩
  · rintro ⟨right, here⟩
    obtain ⟨r, hr, left, -⟩ := (used a right).mpr here
    exact ⟨r, hr, left⟩

end Store

namespace Grammar

/-- Counting words changes the lexicon only. -/
theorem exists_countWords_eq {W : Type} (g : Grammar W) (entries : List (String × Nat)) :
    ∃ lexicon, g.countWords entries = { g with lexicon } := by
  induction entries generalizing g with
  | nil => exact ⟨g.lexicon, rfl⟩
  | cons entry entries ih => exact ih (g.countWord entry.1 entry.2)

/-- Counting leaves changes the lexicon only. -/
theorem exists_countLeaves_eq {W : Type} (g : Grammar W) (trees : List (Tree Symbol)) :
    ∃ lexicon, g.countLeaves trees = { g with lexicon } :=
  g.exists_countWords_eq _

/-- The normalized trees that the grammar of a treebank is made from. -/
def trainedTrees (trees : List (Tree Symbol)) (rareBelow : Nat) : List (Tree Symbol) :=
  trees.map ((ofTrees trees rareBelow).normalizeTree rareBelow)

variable {trees : List (Tree Symbol)} {rareBelow : Nat}

/-- The rules that are stored, before kinds are assigned, are those used at the nodes of the
normalized trees. -/
theorem mem_treeRules_ofTrees {r : Rule Unit} :
    r ∈ (countLeaves ({} : Grammar Unit) trees).treeRules rareBelow () trees ↔
      UsedIn (trainedTrees trees rareBelow) r.left r.right ∧
        r.kind = .ofLength r.right.length := by
  have listed : (countLeaves ({} : Grammar Unit) trees).treeRules rareBelow () trees =
      (trainedTrees trees rareBelow).flatMap (Tree.localRules true ()) := by
    rw [trainedTrees, List.flatMap_map]
    rfl
  rw [listed, List.mem_flatMap]
  simp only [Tree.mem_localRules, UsedIn]
  constructor
  · rintro ⟨t, ht, left, right, ⟨u, hu, sides⟩, rfl⟩
    exact ⟨⟨t, ht, u, hu, sides⟩, rfl⟩
  · rintro ⟨⟨t, ht, u, hu, sides⟩, kind⟩
    exact ⟨t, ht, r.left, r.right, ⟨u, hu, sides⟩, by rw [← kind]⟩

/-- The rules are those used at the nodes of the normalized trees. -/
theorem exists_mem_rules_ofTrees {left : Symbol} {right : List Symbol} :
    (∃ r ∈ (ofTrees trees rareBelow).store.rules, r.left = left ∧ r.right = right) ↔
      UsedIn (trainedTrees trees rareBelow) left right := by
  have stored : ∀ r : Rule Unit,
      r ∈ ((countLeaves ({} : Grammar Unit) trees).store.addAll
        ((countLeaves ({} : Grammar Unit) trees).treeRules rareBelow () trees)).rules ↔
      UsedIn (trainedTrees trees rareBelow) r.left r.right ∧ r.kind = .ofLength r.right.length := by
    intro r
    have empty : (countLeaves ({} : Grammar Unit) trees).store = {} := by
      obtain ⟨lexicon, counted⟩ := exists_countLeaves_eq ({} : Grammar Unit) trees
      rw [counted]
    rw [empty, Store.indexed_empty.mem_rules_addAll_of_told, mem_treeRules_ofTrees]
    · exact or_iff_right fun none => nomatch none
    · intro p hp q hq same
      rcases hp with none | hp
      · exact nomatch none
      · refine Rule.eq_of_sameSides same ?_
        rw [(mem_treeRules_ofTrees.mp hp).2, (mem_treeRules_ofTrees.mp hq).2, same.2]
  rw [ofTrees, Store.assignKinds, Store.rules_mapRules]
  constructor
  · rintro ⟨q, hq, rfl, rfl⟩
    obtain ⟨r, hr, rfl⟩ := List.mem_map.mp hq
    exact ((stored r).mp hr).1
  · intro used
    have made := (stored ⟨left, right, .ofLength right.length, ()⟩).mpr ⟨used, rfl⟩
    exact ⟨_, List.mem_map_of_mem made, rfl, rfl⟩

/-- The store of the grammar of a treebank is indexed and has no empty right side. -/
theorem indexed_filled_ofTrees (trees : List (Tree Symbol)) (rareBelow : Nat) :
    (ofTrees trees rareBelow).store.Indexed ∧ (ofTrees trees rareBelow).store.Filled :=
  (Reachable.ofTrees trees rareBelow).indexed_filled fun _ made => made.filled

/-- No conversion has made a helper in the grammar of a treebank. -/
theorem isHelper_ofTrees (trees : List (Tree Symbol)) (rareBelow : Nat) (a : Symbol) :
    (ofTrees trees rareBelow).isHelper a = false := by
  obtain ⟨lexicon, counted⟩ := exists_countLeaves_eq ({} : Grammar Unit) trees
  rw [isHelper, ofTrees, counted]
  exact Std.TreeSet.contains_emptyc

/-- The kinds are those that the rules have among themselves. -/
theorem classified_ofTrees : (ofTrees trees rareBelow).store.Classified
    ((ofTrees trees rareBelow).store.rules.map Rule.left).contains :=
  Store.classified_of_assignKinds (Store.assignKinds_assignKinds _)

/-- The left symbols are those of the rules used. -/
theorem contains_left_ofTrees {a : Symbol} :
    ((ofTrees trees rareBelow).store.rules.map Rule.left).contains a = true ↔
      ∃ right, UsedIn (trainedTrees trees rareBelow) a right :=
  Store.contains_left_of_used fun _ _ => exists_mem_rules_ofTrees

/-- The words of the normalized trees are those with a rule for the word. -/
theorem exists_lexical_ofTrees {word : Symbol} :
    (∃ r, (ofTrees trees rareBelow).store.Lexical r ∧ r.right = [word]) ↔
      IsWordIn (trainedTrees trees rareBelow) word := by
  have kind : Rule.kindAmong ((ofTrees trees rareBelow).store.rules.map Rule.left).contains [word] =
      .terminal ↔ word.isWordlike = true ∨
        ∀ right, ¬UsedIn (trainedTrees trees rareBelow) word right := by
    rw [← not_exists, ← contains_left_ofTrees, Rule.kindAmong]
    cases word.isWordlike <;>
      cases ((ofTrees trees rareBelow).store.rules.map Rule.left).contains word <;> simp
  rw [IsWordIn, ← kind]
  constructor
  · rintro ⟨r, ⟨hr, terminal⟩, right⟩
    rw [classified_ofTrees r hr, right] at terminal
    exact ⟨⟨r.left, exists_mem_rules_ofTrees.mp ⟨r, hr, rfl, right⟩⟩, terminal⟩
  · rintro ⟨⟨left, used⟩, terminal⟩
    obtain ⟨r, hr, -, right⟩ := exists_mem_rules_ofTrees.mpr used
    exact ⟨r, ⟨hr, by rw [classified_ofTrees r hr, right, terminal]⟩, right⟩

/-! ## Sentences and trees -/

variable {W : Type}

/-- The symbol that a word has in a normalized tree. -/
def trainedSymbol (g : Grammar W) (rareBelow : Nat) (word : Symbol) : Symbol :=
  (g.replacement? rareBelow word.name).getD word

/-- The words of a normalized tree are replaced one by one. -/
theorem words_normalizeTree (g : Grammar W) (rareBelow : Nat) (t : Tree Symbol) :
    (g.normalizeTree rareBelow t).words = t.words.map (g.trainedSymbol rareBelow) :=
  Tree.words_mapLeaves _ t

/-- A word has the symbol of training in a sentence, unless it has a rule of its own. -/
theorem tokenSymbol_eq (g : Grammar W) (word : Symbol) :
    g.tokenSymbol word.name =
      if (g.store.wordRules word).isEmpty then g.trainedSymbol g.rareBelow word else word :=
  rfl

/-- How the sentences of a grammar and the trees that it was made from are normalized: word by word
alike, except that a sentence keeps the words that have a rule of their own. -/
structure NormalizesAlike (g : Grammar W) (trees : List (Tree Symbol)) (rareBelow : Nat) :
    Prop where
  /-- There is one symbol for each word. -/
  length : ∀ t : Tree Symbol, (g.tokenSymbols (t.words.map Symbol.name)).length =
    (g.normalizeTree rareBelow t).words.length
  /-- The symbols at a place are the same exactly when training leaves the word as it is or the
  normalized trees do not have it as a word. -/
  same : ∀ (t : Tree Symbol) (i : Nat) (word : Symbol), t.words[i]? = some word →
    ((g.tokenSymbols (t.words.map Symbol.name))[i]? = (g.normalizeTree rareBelow t).words[i]? ↔
      (g.normalizeTree rareBelow t).words[i]? = some word ∨
        ¬IsWordIn (trees.map (g.normalizeTree rareBelow)) word)
  /-- Where the symbols differ, the sentence has the word itself. -/
  kept : ∀ (t : Tree Symbol) (i : Nat) (word : Symbol), t.words[i]? = some word →
    (g.tokenSymbols (t.words.map Symbol.name))[i]? ≠ (g.normalizeTree rareBelow t).words[i]? →
      (g.tokenSymbols (t.words.map Symbol.name))[i]? = some word
  /-- The words of the normalized trees are those with a rule of their own. -/
  ownRule : ∀ word, IsWordIn (trees.map (g.normalizeTree rareBelow)) word ↔
    ∃ r ∈ g.store.rules, r.right = [word] ∧ r.kind = .terminal

/-- A grammar normalizes sentences and trees alike when the words of the normalized trees are those
with a rule of their own. -/
theorem normalizesAlike_of_ownRule {g : Grammar W} (indexed : g.store.Indexed)
    (threshold : g.rareBelow = rareBelow)
    (ownRule : ∀ word, IsWordIn (trees.map (g.normalizeTree rareBelow)) word ↔
      ∃ r ∈ g.store.rules, r.right = [word] ∧ r.kind = .terminal) :
    g.NormalizesAlike trees rareBelow := by
  subst threshold
  have trained : ∀ (t : Tree Symbol) (i : Nat) (word : Symbol), t.words[i]? = some word →
      (g.normalizeTree g.rareBelow t).words[i]? = some (g.trainedSymbol g.rareBelow word) := by
    intro t i word here
    rw [words_normalizeTree, List.getElem?_map, here]
    rfl
  have parsed : ∀ (t : Tree Symbol) (i : Nat) (word : Symbol), t.words[i]? = some word →
      (g.tokenSymbols (t.words.map Symbol.name))[i]? = some (g.tokenSymbol word.name) := by
    intro t i word here
    rw [tokenSymbols, List.map_map, List.getElem?_map, here]
    rfl
  have own : ∀ word, (g.store.wordRules word).isEmpty = false ↔
      IsWordIn (trees.map (g.normalizeTree g.rareBelow)) word := by
    intro word
    rw [ownRule, List.isEmpty_eq_false_iff_exists_mem]
    exact exists_congr fun r => indexed.mem_wordRules
  constructor
  · intro t
    rw [words_normalizeTree, tokenSymbols, List.length_map, List.length_map, List.length_map]
  · intro t i word here
    rw [trained t i word here, parsed t i word here, ← own, tokenSymbol_eq, Option.some_inj,
      Option.some_inj]
    cases (g.store.wordRules word).isEmpty with
    | true => simp
    | false => simp [eq_comm]
  · intro t i word here differ
    rw [trained t i word here, parsed t i word here, tokenSymbol_eq] at differ
    rw [parsed t i word here, tokenSymbol_eq]
    cases empty : (g.store.wordRules word).isEmpty with
    | true =>
      rw [empty] at differ
      exact absurd rfl differ
    | false => rfl
  · exact ownRule

/-- Sentences are normalized as trees were in training, except for the words that have a rule of
their own, which a sentence keeps. Those are the words that stand alone behind a node of the
normalized trees and are spelled like a word or head no rule there. This holds of both grammars of
every treebank. -/
theorem normalizesAlike_treebank {R : Type} [ProbabilityNumber R] (trees : List (Tree Symbol))
    (rareBelow : Nat) :
    (ofTrees trees rareBelow).NormalizesAlike trees rareBelow ∧
      (estimate (R := R) trees rareBelow).NormalizesAlike trees rareBelow := by
  have ownRule : ∀ word, IsWordIn (trainedTrees trees rareBelow) word ↔
      ∃ r ∈ (ofTrees trees rareBelow).store.rules, r.right = [word] ∧ r.kind = .terminal := by
    intro word
    rw [← exists_lexical_ofTrees]
    exact exists_congr fun r => by rw [Store.Lexical, and_assoc, and_comm (a := r.kind = _)]
  constructor
  · exact normalizesAlike_of_ownRule (indexed_filled_ofTrees trees rareBelow).1 rfl ownRule
  · have copy := plain_estimate (R := R) trees rareBelow
    refine normalizesAlike_of_ownRule
      ((Reachable.estimate trees rareBelow).indexed_filled fun _ made => made.filled).1 rfl
      fun word => ?_
    have sameTrees : (estimate (R := R) trees rareBelow).normalizeTree =
        (ofTrees trees rareBelow).normalizeTree := by
      rw [← copy]
      rfl
    rw [sameTrees]
    refine (ownRule word).trans ?_
    rw [← copy, show (estimate (R := R) trees rareBelow).plain.store =
      (estimate (R := R) trees rareBelow).store.plain from rfl, Store.rules_plain]
    simp only [List.mem_map, exists_exists_and_eq_and, Rule.right_plain, Rule.kind_plain]

/-- A punctuation mark that is seen once and is a word under its own label. -/
def marks : List (Tree Symbol) :=
  [.node ⟨"X"⟩ [.node ⟨"."⟩ [.leaf ⟨"."⟩]]]

/-- With a threshold of two, training replaces the mark and a sentence keeps it. -/
theorem tokenSymbols_ne_words_marks :
    ¬∀ t ∈ marks, (ofTrees marks 2).tokenSymbols (t.words.map Symbol.name) =
      ((ofTrees marks 2).normalizeTree 2 t).words := by
  have parsed : (ofTrees marks 2).tokenSymbols ["."] = [⟨"."⟩] := by decide +kernel
  have trained : ((ofTrees marks 2).normalizeTree 2
      (.node ⟨"X"⟩ [.node ⟨"."⟩ [.leaf ⟨"."⟩]])).words = [Symbol.rare] := by decide +kernel
  intro alike
  have same := alike _ List.mem_cons_self
  rw [trained] at same
  have kept : [(⟨"."⟩ : Symbol)] = [Symbol.rare] := parsed.symm.trans same
  exact absurd kept (by decide)

end Grammar

end Constituency
