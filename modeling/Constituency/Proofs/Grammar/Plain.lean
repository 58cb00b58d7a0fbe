import Constituency.Proofs.Chart.Forest
import Constituency.Proofs.Grammar.Reachable
import Constituency.Proofs.NormalForm.Plain

/-!
# Plain and probabilistic grammars

A plain grammar and a probabilistic one can be made from the same rule text, and
from the same treebank. The first way the weights are read and passed over, the
second way they are estimated afterwards, by a loop of its own that searches and
counts where the plain one stores. Either way the plain grammar is the plain copy
of the other, so the two have the same rules and show the same trees, before and
after a conversion.
-/

namespace Constituency

namespace Rule

variable {W : Type}

/-- A line that is a rule with a weight is the same rule without one. -/
theorem read_plain [WeightText W] {line : String} {r : Rule W} (h : read line = .ok r) :
    read (W := Unit) line = .ok r.plain := by
  have made : ∀ {left : Symbol} {right : List Symbol} {weight : W},
      ofSides left right weight = .ok r → ofSides left right () = .ok r.plain := by
    intro left right weight h
    rw [ofSides] at h ⊢
    rw [← map_plain_ofSides? left right weight]
    cases hq : ofSides? left right weight with
    | none => rw [hq] at h; cases h
    | some q =>
      rw [hq] at h
      cases h
      rfl
  rw [read] at h ⊢
  split at h
  · dsimp only at h ⊢
    split at h
    · cases h
    · next nonblank =>
      rw [if_neg nonblank]
      obtain ⟨value, hvalue, h⟩ := exists_of_bind_ok h
      rw [hvalue]
      split at h
      · exact made h
      · cases h
  · cases h

/-- A text of rules with weights is a text of the same rules without them. -/
theorem readAll_plain [WeightText W] {source : String} {rules : List (Rule W)}
    (h : readAll source = .ok rules) : readAll (W := Unit) source = .ok (rules.map plain) := by
  rw [readAll] at h ⊢
  generalize Text.filledLines source = lines at h ⊢
  induction lines generalizing rules with
  | nil => cases h; rfl
  | cons line lines ih =>
    rw [List.mapM_cons] at h ⊢
    obtain ⟨number, line⟩ := line
    dsimp only at h ⊢
    cases hread : read (W := W) line with
    | error e => rw [hread] at h; cases h
    | ok q =>
      rw [hread] at h
      obtain ⟨first, hfirst, h⟩ := exists_of_bind_ok h
      obtain ⟨rest, hrest, hrules⟩ := exists_of_bind_ok h
      cases hfirst
      cases hrules
      rw [read_plain hread, ih hrest]
      rfl

/-- The rules at the nodes of a tree are the same, whatever weight they are given. -/
theorem map_plain_localRules (trim : Bool) (weight : W) (t : Tree Symbol) :
    (t.localRules trim weight).map plain = t.localRules trim () := by
  rw [Tree.localRules, Tree.localRules, List.map_filterMap]
  refine congrArg (t.subtrees.filterMap ·) (funext fun u => ?_)
  rw [Tree.localRule?, Tree.localRule?, Option.map_bind]
  exact congrArg _ (funext fun sides => map_plain_ofSides? sides.1 sides.2 weight)

end Rule

namespace Grammar

variable {W : Type}

/-- The empty grammar has no weights. -/
theorem plain_empty : ({} : Grammar W).plain = {} := by
  rw [plain, Store.plain_empty]

/-! ## Grammars from texts -/

/-- Words are counted alike in both grammars. -/
theorem countWords_plain (g : Grammar W) (entries : List (String × Nat)) :
    g.plain.countWords entries = (g.countWords entries).plain := by
  induction entries generalizing g with
  | nil => rfl
  | cons entry entries ih => exact ih (g.countWord entry.1 entry.2)

/-- The grammar of rules without their weights is the plain copy of theirs. -/
theorem ofRules_plain (rules : List (Rule W)) :
    ofRules (rules.map Rule.plain) = (ofRules rules).plain := by
  have stored := Store.addAll_plain {} rules
  rw [Store.plain_empty] at stored
  rw [ofRules, ofRules, plain, stored, Store.assignKinds_plain]

/-- Texts whose rules have weights are a plain grammar when they are one with weights, and fail
alike when they are none. -/
theorem ofText_plain [WeightText W] {source : String} {rules : List (Rule W)}
    (accepted : Rule.readAll source = .ok rules) (lexicon : String) (rareBelow : Nat) :
    ofText (W := Unit) source lexicon rareBelow =
      (ofText (W := W) source lexicon rareBelow).map plain := by
  rw [ofText, ofText, accepted, Rule.readAll_plain accepted]
  cases Lexicon.readEntries lexicon with
  | error e => rfl
  | ok words =>
    simp only [Except.mapError, bind, Except.bind, pure, Except.pure, Except.map, ofRules_plain,
      countWords_plain]
    rfl

/-! ## Grammars from treebanks -/

/-- The same leaves are counted. -/
theorem countLeaves_plain (g : Grammar W) (trees : List (Tree Symbol)) :
    g.plain.countLeaves trees = (g.countLeaves trees).plain :=
  g.countWords_plain _

/-- The same rules stand at the nodes of the normalized trees. -/
theorem map_plain_treeRules (g : Grammar W) (rareBelow : Nat) (weight : W)
    (trees : List (Tree Symbol)) :
    (g.treeRules rareBelow weight trees).map Rule.plain =
      g.plain.treeRules rareBelow () trees := by
  rw [treeRules, treeRules, List.map_flatMap]
  refine congrArg (trees.flatMap ·) (funext fun t => ?_)
  exact Rule.map_plain_localRules true weight (g.normalizeTree rareBelow t)

end Grammar

section Estimation

variable {R : Type}

namespace Store

/-- Counting a use leaves the rules that storing it would leave. -/
theorem countUse_plain (s : Store (Probability R)) (r : Rule (Probability R)) :
    (s.countUse r).plain = (s.plain.add r.plain).1 := by
  rw [countUse]
  cases found : s.search r.left r.right with
  | none =>
    have same := s.add_plain { r with weight := r.weight.countOnce }
    exact (congrArg Prod.fst same).symm
  | some id =>
    obtain ⟨i, hi, -⟩ := Option.bind_eq_some_iff.mp found
    dsimp only
    rw [plain_modifyWeight, add, Rule.left_plain, Rule.right_plain, position?_plain, hi]

/-- Counting the uses of a treebank leaves the rules that storing them would leave. -/
theorem foldl_countUse_plain (s : Store (Probability R)) (uses : List (Rule (Probability R))) :
    (uses.foldl countUse s).plain = s.plain.addAll (uses.map Rule.plain) := by
  induction uses generalizing s with
  | nil => rfl
  | cons r uses ih => rw [List.foldl_cons, ih, countUse_plain, List.map_cons, addAll, addAll,
      List.foldl_cons]

variable [ProbabilityNumber R]

/-- Turning counts into shares leaves the rules as they are. -/
theorem plain_assignShares (s : Store (Probability R)) : s.assignShares.plain = s.plain := by
  have changed : ∀ (ids : List RuleNumber) (f : Probability R → Probability R)
      (s : Store (Probability R)),
      (ids.foldl (fun s id => s.modifyWeight id f) s).plain = s.plain := by
    intro ids f
    induction ids with
    | nil => exact fun s => rfl
    | cons id ids ih => exact fun s => (ih _).trans (s.plain_modifyWeight id f)
  have each : ∀ (lefts : List Symbol) (s : Store (Probability R)),
      (lefts.foldl (fun s left => (s.idsWithLeft left).foldl
        (fun t id => t.modifyWeight id (·.share (s.leftCount left))) s) s).plain = s.plain := by
    intro lefts
    induction lefts with
    | nil => exact fun s => rfl
    | cons left lefts ih => exact fun s => (ih _).trans (changed _ _ s)
  exact each s.leftSides s

end Store

variable [ProbabilityNumber R]

/-- The plain grammar of a treebank is the plain copy of the probabilistic one, although the one
stores rules and the other searches and counts. -/
theorem Grammar.plain_estimate (trees : List (Tree Symbol)) (rareBelow : Nat) :
    (estimate (R := R) trees rareBelow).plain = ofTrees trees rareBelow := by
  have counted : (countLeaves ({} : Grammar (Probability R)) trees).plain =
      countLeaves ({} : Grammar Unit) trees := by
    rw [← countLeaves_plain, plain_empty]
  rw [ofTrees, ← counted, estimate]
  generalize countLeaves ({} : Grammar (Probability R)) trees = counted
  rw [← map_plain_treeRules counted rareBelow (.ofValue ProbabilityNumber.zero), plain, plain]
  dsimp only
  rw [← Store.foldl_countUse_plain, ← Store.assignKinds_plain, Store.plain_assignShares]

end Estimation

/-! ## What the two share -/

namespace Grammar

variable {W : Type}

/-- Sentences have the same symbols in both grammars. -/
theorem tokenSymbols_plain (g : Grammar W) : g.plain.tokenSymbols = g.tokenSymbols := by
  funext words
  refine List.map_congr_left fun word _ => ?_
  rw [tokenSymbol, tokenSymbol, show g.plain.store = g.store.plain from rfl,
    Store.wordRules_plain, List.isEmpty_map]
  rfl

/-- Both grammars have the same trees over a sentence. -/
theorem readings_plain (g : Grammar W) : g.plain.readings = g.readings := by
  funext start words
  rw [readings, tokenSymbols_plain, show g.plain.store = g.store.plain from rfl,
    Store.forest_plain, readings]

variable [WeightScore W Float]

/-- A plain grammar and another grammar that differ in nothing but the weights. -/
structure AgreesWith (p : Grammar Unit) (g : Grammar W) : Prop where
  /-- The rules have the same sides and kinds and stand in the same order. -/
  rules : p.store.rules = g.store.rules.map Rule.plain
  /-- The helpers are the same. -/
  helpers : p.helpers = g.helpers
  /-- The next helper number is the same. -/
  helpersSpent : p.helpersSpent = g.helpersSpent
  /-- The counts of words are the same. -/
  lexicon : p.lexicon = g.lexicon
  /-- The threshold for rare words is the same. -/
  rareBelow : p.rareBelow = g.rareBelow
  /-- The left symbols of the rules for words are the same. -/
  tags : p.store.tags = g.store.tags
  /-- The exhaustive parser shows the same trees in the same order. -/
  parse : ∀ start words, p.parse (S := Float) start words = g.parse start words

/-- Two grammars that differ in nothing but the weights, and convert to such grammars. -/
structure AgreesThroughout [Weight W] (p : Grammar Unit) (g : Grammar W) : Prop where
  /-- They agree as they are. -/
  before : p.AgreesWith g
  /-- They agree in normal form. -/
  after : ∃ q h, p.normalForm = .ok q ∧ g.normalForm = .ok h ∧ q.AgreesWith h

/-- A grammar and its plain copy differ in nothing but the weights. -/
theorem agreesWith_plain (g : Grammar W) : g.plain.AgreesWith g := by
  constructor
  · exact g.store.rules_plain
  · rfl
  · rfl
  · rfl
  · rfl
  · exact g.store.tags_plain
  · intro start words
    rw [parse_eq_map_readings, parse_eq_map_readings, readings_plain]
    rfl

variable [Weight W]

/-- A grammar within reach and its plain copy stay copies in a conversion. -/
theorem Reachable.agreesThroughout_plain {g : Grammar W} (h : g.Reachable Rule.Provisional) :
    g.plain.AgreesThroughout g := by
  refine ⟨g.agreesWith_plain, ?_⟩
  have indexed := (h.indexed_filled fun _ made => made.filled).1
  obtain ⟨next, done⟩ := exists_normalForm indexed (h.fits fun _ made => made.fits)
  refine ⟨next.plain, next, ?_, done, next.agreesWith_plain⟩
  rw [normalForm_plain, done]
  rfl

/-- Plain and probabilistic grammars agree up to weights. Rule text that is read with probabilities
is read without them as the same rules in the same order, and with any lexicon text and threshold
the two are either no grammars for the same reason, or grammars that differ in nothing but the
weights, before and after a conversion. The same holds for the two grammars of any treebank. -/
theorem plain_agreesThroughout :
    (∀ (source : String) (rules : List (Rule (Probability Float))),
      Rule.readAll source = .ok rules →
      Rule.readAll source = .ok (rules.map Rule.plain) ∧
      ∀ lexicon rareBelow,
        (∃ e, ofText (W := Unit) source lexicon rareBelow = .error e ∧
          ofText (W := Probability Float) source lexicon rareBelow = .error e) ∨
        ∃ (p : Grammar Unit) (g : Grammar (Probability Float)),
          ofText source lexicon rareBelow = .ok p ∧ ofText source lexicon rareBelow = .ok g ∧
            p.AgreesThroughout g) ∧
    ∀ trees rareBelow, (ofTrees trees rareBelow).AgreesThroughout
      (estimate (R := Float) trees rareBelow) := by
  constructor
  · intro source rules accepted
    refine ⟨Rule.readAll_plain accepted, fun lexicon rareBelow => ?_⟩
    rw [ofText_plain accepted]
    cases made : ofText (W := Probability Float) source lexicon rareBelow with
    | error e => exact Or.inl ⟨e, rfl, rfl⟩
    | ok g => exact Or.inr ⟨g.plain, g, rfl, rfl, (Reachable.ofText made).agreesThroughout_plain⟩
  · intro trees rareBelow
    rw [← plain_estimate (R := Float)]
    exact (Reachable.estimate trees rareBelow).agreesThroughout_plain

/-- Rule text with a rule given twice, a unit rule and a long rule. -/
def wagers : String :=
  "S -> A B C [0.25]\nS -> A [0.75]\nA -> a [1]\nS -> A [0.5]\nB -> b [1.0]\nC -> c [1]"

/-- The text is read with and without its probabilities, and with a lexicon it makes two grammars
that agree. -/
theorem plain_agreesThroughout_wagers :
    ∃ rules : List (Rule (Probability Float)), Rule.readAll wagers = .ok rules ∧
      rules.length = 6 ∧ Rule.readAll wagers = .ok (rules.map Rule.plain) ∧
      ∃ (p : Grammar Unit) (g : Grammar (Probability Float)),
        ofText wagers "a 2\nb 1" 2 = .ok p ∧ ofText wagers "a 2\nb 1" 2 = .ok g ∧
          p.AgreesThroughout g := by
  have six : ((Rule.readAll (W := Probability Float) wagers).toOption.map List.length) =
      some 6 := by decide +kernel
  have made : (ofText (W := Unit) wagers "a 2\nb 1" 2).toOption.isSome = true := by decide +kernel
  cases accepted : Rule.readAll (W := Probability Float) wagers with
  | error e => rw [accepted] at six; cases six
  | ok rules =>
    rw [accepted] at six
    obtain ⟨plain, agree⟩ := plain_agreesThroughout.1 wagers rules accepted
    refine ⟨rules, rfl, Option.some.inj six, plain, ?_⟩
    rcases agree "a 2\nb 1" 2 with ⟨e, fails, -⟩ | copies
    · rw [fails] at made
      cases made
    · exact copies

end Grammar

end Constituency
