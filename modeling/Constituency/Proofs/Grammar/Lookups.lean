import Constituency.Proofs.Grammar.Reachable
import Constituency.Proofs.Sorted.Widening

/-!
# Lookups of grammars within reach

A lookup is the filter of one of the two lists of rules, in the order of that
list. It does not matter how the run of rules is found: a search may land on any
rule with the key, and may widen from there while rules are accepted. For rules
for words it even widens over longer rules that begin with the word, and sorts
them out by their kind; this is where kinds have to fit.
-/

namespace Constituency

namespace Store

variable {W : Type} {s : Store W}

/-- The rules that a lookup by widening gives: it searches a list by a key and widens from where it
lands while rules are accepted. -/
def widenedRules (s : Store W) (search : Sorted.Search RuleNumber) (index : Array RuleNumber)
    (key : Rule W → Ordering) (accepts : Rule W → Bool) : List (Rule W) :=
  match search.find (s.compareAt key) index with
  | some mid =>
    (Sorted.widen (fun id => (s.rule? id).any accepts) index mid).toList.filterMap s.rule?
  | none => []

/-- Looking up a left symbol by widening. -/
def widenedLeft (s : Store W) (search : Sorted.Search RuleNumber) (left : Symbol) : List (Rule W) :=
  s.widenedRules search s.byLeft (compare ·.left left) (·.left == left)

/-- Looking up a right side by widening. -/
def widenedRight (s : Store W) (search : Sorted.Search RuleNumber) (right : List Symbol) :
    List (Rule W) :=
  s.widenedRules search s.byRight (compare ·.right right) (·.right == right)

/-- Looking up a word by widening over all rules that begin with it. -/
def widenedWords (s : Store W) (search : Sorted.Search RuleNumber) (word : Symbol) :
    List (Rule W) :=
  (s.widenedRules search s.byRight (compare ·.right [word]) (·.right.head? == some word)).filter
    (·.kind == .terminal)

/-- Along a list in order, widening gives all rules that are accepted, unless no rule has the key
at all. -/
theorem SortedBy.widenedRules_cases {order : Rule W → Rule W → Ordering}
    {index : Array RuleNumber} (sorted : s.SortedBy order index) (lists : s.Lists index)
    (search : Sorted.Search RuleNumber) {key coarse : Rule W → Ordering}
    {accepts : Rule W → Bool} (alongKey : Rule.Along order key)
    (alongCoarse : Rule.Along order coarse) (tie : ∀ r, key r = .eq → coarse r = .eq)
    (accepted : ∀ r, accepts r = (coarse r == .eq)) :
    s.widenedRules search index key accepts = (index.toList.filterMap s.rule?).filter accepts ∨
      s.widenedRules search index key accepts = [] ∧
        ∀ r ∈ index.toList.filterMap s.rule?, key r ≠ .eq := by
  have monotoneKey := sorted.monotone lists alongKey
  have monotoneCoarse := sorted.monotone lists alongCoarse
  have acceptedAt : (fun id => (s.rule? id).any accepts) = (s.compareAt coarse · == .eq) := by
    funext id
    rw [compareAt]
    cases s.rule? id with
    | none => rfl
    | some r => exact accepted r
  have tieAt : ∀ id, s.compareAt key id = .eq → s.compareAt coarse id = .eq := by
    intro id heq
    obtain ⟨r, hr, hkey⟩ := compareAt_eq_eq.mp heq
    rw [compareAt_of_rule? hr, tie r hkey]
  rw [widenedRules]
  cases found : search.find (s.compareAt key) index with
  | some mid =>
    left
    dsimp only
    rw [acceptedAt, search.toList_widen monotoneKey monotoneCoarse tieAt found,
      filterMap_filter_compareAt]
    exact List.filter_congr fun r _ => (accepted r).symm
  | none =>
    right
    refine ⟨rfl, fun r hr heq => ?_⟩
    obtain ⟨id, hid, hr⟩ := List.mem_filterMap.mp hr
    have missed := search.miss monotoneKey found id hid
    rw [compareAt_of_rule? hr] at missed
    exact missed heq

/-- Widening over exactly the rules with the key filters the list by the key. -/
theorem SortedBy.widenedRules_eq {order : Rule W → Rule W → Ordering} {index : Array RuleNumber}
    (sorted : s.SortedBy order index) (lists : s.Lists index) (search : Sorted.Search RuleNumber)
    {key : Rule W → Ordering} {accepts : Rule W → Bool} (along : Rule.Along order key)
    (accepted : ∀ r, accepts r = (key r == .eq)) :
    s.widenedRules search index key accepts = (index.toList.filterMap s.rule?).filter accepts := by
  rcases sorted.widenedRules_cases lists search along along (fun _ heq => heq) accepted with
    found | ⟨nothing, missed⟩
  · exact found
  · rw [nothing, eq_comm, List.filter_eq_nil_iff]
    intro r hr yes
    rw [accepted r, beq_iff_eq] at yes
    exact missed r hr yes

/-- Looking up a left symbol by widening filters the rules by it. -/
theorem Indexed.widenedLeft_eq (h : s.Indexed) (search : Sorted.Search RuleNumber)
    (left : Symbol) : s.widenedLeft search left = s.rules.filter (·.left == left) :=
  h.sortedLeft.widenedRules_eq h.left search (Rule.along_left left)
    fun r => beq_eq_compare r.left left

/-- Looking up a right side by widening filters the rules by it. -/
theorem Indexed.widenedRight_eq (h : s.Indexed) (search : Sorted.Search RuleNumber)
    (right : List Symbol) :
    s.widenedRight search right = s.rulesByRight.filter (·.right == right) :=
  h.sortedRight.widenedRules_eq h.right search (Rule.along_right right)
    fun r => beq_eq_compare r.right right

/-- Looking up a word by widening filters the rules by their right side and kind, when kinds fit. -/
theorem Indexed.widenedWords_eq (h : s.Indexed) (fits : ∀ r ∈ s.rules, r.Fits)
    (search : Sorted.Search RuleNumber) (word : Symbol) :
    s.widenedWords search word =
      s.rulesByRight.filter fun r => r.right == [word] && r.kind == .terminal := by
  have tie : ∀ r : Rule W, compare r.right [word] = .eq → compare (r.right.take 1) [word] = .eq := by
    intro r heq
    rw [Std.LawfulEqCmp.compare_eq_iff_eq] at heq ⊢
    rw [heq]
    rfl
  have accepted : ∀ r : Rule W,
      (r.right.head? == some word) = (compare (r.right.take 1) [word] == .eq) := by
    intro r
    rw [← beq_eq_compare]
    cases r.right with
    | nil => rfl
    | cons a rest => simp
  -- a rule that begins with the word and is of the kind for words has nothing else on the right
  have sides : ∀ r ∈ s.rulesByRight, (r.right.head? == some word && r.kind == .terminal) =
      (r.right == [word] && r.kind == .terminal) := by
    intro r hr
    have fitsR := fits r (h.mem_rulesByRight.mp hr)
    rw [Bool.eq_iff_iff, Bool.and_eq_true, Bool.and_eq_true, beq_iff_eq, beq_iff_eq, beq_iff_eq]
    constructor
    · rintro ⟨head, kind⟩
      exact ⟨fitsR.right_eq_of_terminal kind head, kind⟩
    · rintro ⟨right, kind⟩
      exact ⟨by rw [right]; rfl, kind⟩
  rw [widenedWords]
  rcases h.sortedRight.widenedRules_cases h.right search (Rule.along_right [word])
    (Rule.along_take 1 [word]) tie accepted with found | ⟨nothing, missed⟩
  · rw [found, List.filter_filter]
    refine List.filter_congr fun r hr => ?_
    rw [Bool.and_comm, sides r hr]
  · rw [nothing, List.filter_nil, eq_comm, List.filter_eq_nil_iff]
    intro r hr yes
    have right := (Bool.and_eq_true_iff.mp yes).1
    exact missed r hr (by rw [beq_iff_eq.mp right]; exact Std.ReflCmp.compare_self)

end Store

namespace Grammar

variable {W : Type} [Weight W]

/-- Lookups are filters. In a grammar within reach both lists hold the same rules, each once, and
every lookup is the filter of its list by what is asked for, in the order of the list. The same
rules come from widening, wherever the search lands. -/
theorem lookups_eq_filter (g : Grammar W) (h : g.Reachable Rule.Provisional) :
    g.store.rules.Nodup ∧ g.store.rulesByRight.Perm g.store.rules ∧
    (∀ r, r ∈ g.store.rules ↔ ∃ id, g.store.rule? id = some r) ∧
    (∀ x, g.store.withLeft x = g.store.rules.filter (·.left == x)) ∧
    (∀ s, g.store.withRight [s] = g.store.rulesByRight.filter (·.right == [s])) ∧
    (∀ s, g.store.wordRules s =
      g.store.rulesByRight.filter fun r => r.right == [s] && r.kind == .terminal) ∧
    (∀ a b, g.store.pairRules a b = g.store.rulesByRight.filter (·.right == [a, b])) ∧
    ∀ search : Sorted.Search RuleNumber,
      (∀ x, g.store.widenedLeft search x = g.store.withLeft x) ∧
      (∀ s, g.store.widenedRight search [s] = g.store.withRight [s]) ∧
      (∀ s, g.store.widenedWords search s = g.store.wordRules s) ∧
      ∀ a b, g.store.widenedRight search [a, b] = g.store.pairRules a b := by
  have indexed := (h.indexed_filled fun _ made => made.filled).1
  have fits := h.fits fun _ made => made.fits
  have words : ∀ s, g.store.wordRules s =
      g.store.rulesByRight.filter fun r => r.right == [s] && r.kind == .terminal := by
    intro s
    rw [Store.wordRules, indexed.withRight_eq, List.filter_filter]
    exact List.filter_congr fun r _ => Bool.and_comm _ _
  refine ⟨indexed.nodup_rules, indexed.perm_rulesByRight, fun _ => indexed.mem_rules,
    indexed.withLeft_eq, fun s => indexed.withRight_eq [s], words,
    fun a b => indexed.withRight_eq [a, b],
    fun search => ⟨fun x => ?_, fun s => ?_, fun s => ?_, fun a b => ?_⟩⟩
  · rw [indexed.widenedLeft_eq, indexed.withLeft_eq]
  · rw [indexed.widenedRight_eq, indexed.withRight_eq]
  · rw [indexed.widenedWords_eq fits, words]
  · rw [indexed.widenedRight_eq, Store.pairRules, indexed.withRight_eq]

/-- A grammar with several rules for one word, and longer rules that begin with it. -/
def prefixed : Grammar Unit :=
  ofRules [⟨⟨"S"⟩, [⟨"a"⟩, ⟨"B"⟩], .binary, ()⟩, ⟨⟨"C"⟩, [⟨"a"⟩], .terminal, ()⟩,
    ⟨⟨"S"⟩, [⟨"a"⟩, ⟨"B"⟩, ⟨"C"⟩], .long, ()⟩, ⟨⟨"B"⟩, [⟨"a"⟩], .terminal, ()⟩,
    ⟨⟨"S"⟩, [⟨"B"⟩], .terminal, ()⟩]

/-- The rules for the word are found in their order, and the longer rules are not among them. -/
theorem lookups_eq_filter_prefixed :
    prefixed.Reachable Rule.Provisional ∧
    prefixed.store.widenedWords .first ⟨"a"⟩ =
      [⟨⟨"B"⟩, [⟨"a"⟩], .terminal, ()⟩, ⟨⟨"C"⟩, [⟨"a"⟩], .terminal, ()⟩] ∧
    prefixed.store.widenedRight .first [⟨"a"⟩, ⟨"B"⟩] =
      [⟨⟨"S"⟩, [⟨"a"⟩, ⟨"B"⟩], .binary, ()⟩] := by
  have reachable : prefixed.Reachable Rule.Provisional := by
    refine Reachable.ofRules ?_
    simp only [List.forall_mem_cons, List.not_mem_nil, false_implies, implies_true, and_true]
    exact ⟨⟨by decide, rfl⟩, ⟨by decide, rfl⟩, ⟨by decide, rfl⟩, ⟨by decide, rfl⟩, by decide, rfl⟩
  obtain ⟨-, -, -, -, -, -, -, widened⟩ := lookups_eq_filter prefixed reachable
  obtain ⟨-, -, words, pairs⟩ := widened .first
  refine ⟨reachable, ?_, ?_⟩
  · rw [words]
    decide +kernel
  · rw [pairs]
    decide +kernel

end Grammar

end Constituency
