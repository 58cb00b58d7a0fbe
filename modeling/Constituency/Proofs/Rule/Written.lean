import Constituency.Proofs.Decimal.Numeral
import Constituency.Proofs.Rule.Brackets
import Mathlib.Data.List.Basic

/-!
# Reading rules that were written

A rule that was read has a left side without an arrow and names without blanks, so
its text falls into the same sides again. What may differ is the bracket: the end
of a right side that looks like one is read as a weight, and plain rules pass over
it.
-/

namespace Constituency.Rule

open Text (isBlank runs trimChars wordsOf)

variable {W : Type}

/-! ## What reading finds -/

/-- A line, the texts around its arrow, the number in its bracket and the rule they make. -/
structure ReadsAs [WeightText W] (line : String) (before behind : List Char)
    (value : Option Float) (r : Rule W) : Prop where
  /-- The first arrow splits the line. -/
  arrow : splitArrow? line.toList = some (before, behind)
  /-- The left side is what stands before it. -/
  left : r.left = ⟨String.ofList (trimChars before)⟩
  /-- The left side is a word. -/
  some_char : trimChars before ≠ []
  /-- The word has no blank. -/
  nonblank : ∀ c ∈ trimChars before, isBlank c = false
  /-- The bracket holds the number. -/
  bracket : readProbability line (splitBracket behind).2 = .ok value
  /-- The number is a weight of the kind of rules. -/
  weight : WeightText.ofBracket value = some r.weight
  /-- The right side is made of the words before the bracket. -/
  right : r.right = (wordsOf (splitBracket behind).1).map Symbol.mk
  /-- There is a word. -/
  some_right : r.right ≠ []
  /-- The kind follows from the number of words. -/
  kind : r.kind = .ofLength r.right.length

/-- Sides make a rule exactly if there is a symbol on the right. -/
theorem ofSides_eq_ok_iff {left : Symbol} {right : List Symbol} {weight : W} {r : Rule W} :
    ofSides left right weight = .ok r ↔
      right ≠ [] ∧ r = ⟨left, right, .ofLength right.length, weight⟩ := by
  rw [ofSides, ofSides?]
  by_cases bare : right = []
  · simp [bare]
  · rw [if_neg (by simpa using bare)]
    exact ⟨fun made => ⟨bare, (Except.ok.inj made).symm⟩, fun made => congrArg _ made.2.symm⟩

/-- A rule is read exactly when its line falls into the parts of the rule. -/
theorem read_eq_ok_iff [WeightText W] {line : String} {r : Rule W} :
    read line = .ok r ↔ ∃ before behind value, ReadsAs line before behind value r := by
  constructor
  · intro h
    rw [read] at h
    split at h
    · next before behind arrow =>
      dsimp only at h
      split at h
      · cases h
      · next left =>
        have word : trimChars before ≠ [] ∧ ∀ c ∈ trimChars before, isBlank c = false := by
          simpa using left
        cases bracket : readProbability line (splitBracket behind).2 with
        | error e => rw [bracket] at h; cases h
        | ok value =>
          rw [bracket] at h
          simp only [bind, Except.bind] at h
          split at h
          · next weight found =>
            obtain ⟨some_right, rfl⟩ := ofSides_eq_ok_iff.mp h
            exact ⟨before, behind, value, arrow, rfl, word.1, word.2, bracket, found, rfl,
              some_right, rfl⟩
          · cases h
    · cases h
  · rintro ⟨before, behind, value, h⟩
    have left : (trimChars before).isEmpty = false ∧ (trimChars before).any isBlank = false := by
      simpa using ⟨h.some_char, h.nonblank⟩
    have made : ofSides ⟨String.ofList (trimChars before)⟩
        ((wordsOf (splitBracket behind).1).map Symbol.mk) r.weight = .ok r := by
      rw [← h.left, ← h.right]
      refine ofSides_eq_ok_iff.mpr ⟨h.some_right, ?_⟩
      rw [← h.kind]
    rw [read, h.arrow]
    dsimp only
    rw [left.1, left.2, h.bracket]
    simp only [bind, Except.bind, h.weight]
    exact made

/-! ## What was written -/

/-- The text of a right side: each name behind a blank. -/
def rightText (right : List Symbol) : List Char :=
  right.flatMap (' ' :: ·.name.toList)

/-- The text of a rule, part by part. -/
theorem toList_text [WeightText W] (r : Rule W) :
    r.text.toList = r.left.name.toList ++ ' ' :: '-' :: '>' ::
      (rightText r.right ++ (WeightText.trailer r.weight).toList) := by
  have right : (String.join (r.right.map (" " ++ ·.name))).toList = rightText r.right := by
    simp [rightText, List.flatMap_map]
  simp [text, right]

/-- Whether a name is one word. -/
def IsName (s : Symbol) : Prop :=
  s.name ≠ "" ∧ ∀ c ∈ s.name.toList, isBlank c = false

/-- What is read off words is a list of names. -/
theorem isName_of_mem_wordsOf {cs : List Char} {s : Symbol}
    (h : s ∈ (wordsOf cs).map Symbol.mk) : IsName s := by
  simp only [Text.wordsOf_eq_map_runs, List.map_map, List.mem_map, Function.comp_apply] at h
  obtain ⟨run, hrun, rfl⟩ := h
  obtain ⟨some_char, chars⟩ := Text.of_mem_runs hrun
  exact ⟨by simpa using some_char, by simpa using chars⟩

/-- Texts with the same words have the same runs. -/
theorem runs_eq_of_wordsOf_eq {cs ds : List Char}
    (h : (wordsOf cs).map Symbol.mk = (wordsOf ds).map Symbol.mk) :
    runs isBlank cs = runs isBlank ds := by
  have apart : ∀ a b : List Char, (Symbol.mk ∘ String.ofList) a = (Symbol.mk ∘ String.ofList) b →
      a = b := fun a b same => by
    simpa using congrArg (·.name.toList) same
  rw [Text.wordsOf_eq_map_runs, Text.wordsOf_eq_map_runs, List.map_map, List.map_map] at h
  exact (List.map_inj_right apart).mp h

/-- The text of a right side begins with a blank. -/
theorem isBlank_of_mem_head?_rightText (right : List Symbol) {back : List Char}
    (h : ∀ c ∈ back.head?, isBlank c = true) :
    ∀ c ∈ (rightText right ++ back).head?, isBlank c = true := by
  cases right with
  | nil => exact h
  | cons s right =>
    rintro c ⟨⟩
    decide

/-- The words of a right side are its names. -/
theorem runs_rightText {right : List Symbol} (names : ∀ s ∈ right, IsName s) {back : List Char}
    (h : ∀ c ∈ back.head?, isBlank c = true) :
    runs isBlank (rightText right ++ back) =
      right.map (·.name.toList) ++ runs isBlank back := by
  induction right with
  | nil => rfl
  | cons s right ih =>
    obtain ⟨some_char, chars⟩ := names s List.mem_cons_self
    have cut : rightText (s :: right) ++ back =
        ' ' :: (s.name.toList ++ (rightText right ++ back)) := by
      simp [rightText]
    rw [cut, Text.runs_cons_of_separates (by decide),
      Text.runs_append_of_not_separates (by simpa using some_char) chars
        (isBlank_of_mem_head?_rightText right h),
      ih fun t ht => names t (List.mem_cons_of_mem s ht)]
    rfl

/-- The names of a right side are read off its text. -/
theorem wordsOf_rightText {right : List Symbol} (names : ∀ s ∈ right, IsName s)
    {back : List Char} (blank : ∀ c ∈ back, isBlank c = true) :
    (wordsOf (rightText right ++ back)).map Symbol.mk = right := by
  rw [Text.wordsOf_eq_map_runs, runs_rightText names fun c hc =>
    blank c (List.mem_of_mem_head? hc), Text.runs_eq_nil.mpr blank, List.append_nil, List.map_map,
    List.map_map]
  refine (List.map_congr_left fun s _ => ?_).trans (List.map_id right)
  simp

/-- A text with the left side and the arrow of a rule that was read is read as a rule with this
left side. -/
theorem ReadsAs.splitArrow?_eq [WeightText W] {line : String} {before behind : List Char}
    {value : Option Float} {r : Rule W} (h : ReadsAs line before behind value r)
    (more : List Char) :
    splitArrow? (r.left.name.toList ++ ' ' :: '-' :: '>' :: more) =
        some (r.left.name.toList ++ [' '], more) ∧
      trimChars (r.left.name.toList ++ [' ']) = r.left.name.toList := by
  have name : r.left.name.toList = trimChars before := by
    rw [h.left, String.toList_ofList]
  have noArrow : ¬ ['-', '>'] <:+: trimChars before := fun arrow =>
    not_arrow_infix_of_splitArrow? h.arrow (arrow.trans (Text.trimChars_infix before))
  rw [name]
  exact ⟨splitArrow?_append noArrow more, Text.trimChars_append h.nonblank (by simp [isBlank])⟩

/-- A text with the left side of a rule that was read is read as this rule if the bracket and the
words before it are those of the rule. -/
theorem ReadsAs.of_text [WeightText W] {line line' : String} {before behind : List Char}
    {value value' : Option Float} {r : Rule W} (h : ReadsAs line before behind value r)
    {more : List Char}
    (text : line'.toList = r.left.name.toList ++ ' ' :: '-' :: '>' :: more)
    (bracket : readProbability line' (splitBracket more).2 = .ok value')
    (weight : WeightText.ofBracket value' = some r.weight)
    (right : (wordsOf (splitBracket more).1).map Symbol.mk = r.right) : read line' = .ok r := by
  obtain ⟨arrow, trimmed⟩ := h.splitArrow?_eq more
  have name : r.left.name.toList = trimChars before := by
    rw [h.left, String.toList_ofList]
  refine read_eq_ok_iff.mpr ⟨r.left.name.toList ++ [' '], more, value', ?_, ?_, ?_, ?_, bracket,
    weight, right.symm, h.some_right, h.kind⟩
  · rw [text, arrow]
  · rw [trimmed, String.ofList_toList]
  · rw [trimmed, name]
    exact h.some_char
  · rw [trimmed, name]
    exact h.nonblank

/-- A text with the left side of a rule that was read is read, if at all, as a rule with this left
side and the words before the bracket. -/
theorem ReadsAs.sides_of_text [WeightText W] {line line' : String} {before behind : List Char}
    {value : Option Float} {r q : Rule W} (h : ReadsAs line before behind value r)
    {more : List Char}
    (text : line'.toList = r.left.name.toList ++ ' ' :: '-' :: '>' :: more)
    (read_ok : read line' = .ok q) :
    q.left = r.left ∧ q.right = (wordsOf (splitBracket more).1).map Symbol.mk := by
  obtain ⟨arrow, trimmed⟩ := h.splitArrow?_eq more
  obtain ⟨before', behind', value', found⟩ := read_eq_ok_iff.mp read_ok
  have same := found.arrow
  rw [text, arrow] at same
  obtain ⟨rfl, rfl⟩ := Prod.mk.inj (Option.some.inj same)
  refine ⟨?_, found.right⟩
  rw [found.left, trimmed, String.ofList_toList]

/-! ## Brackets of numerals -/

/-- The numeral of a number may stand in a bracket. -/
theorem isInside_of_isNumeralChar {c : Char} (h : Decimal.isNumeralChar c = true) :
    isInside c = true := by
  rw [Decimal.isNumeralChar, Bool.or_eq_true] at h
  rcases h with digit | listed
  · rw [Char.isDigit_iff_toNat] at digit
    have low : 48 ≤ c.toNat := digit.1
    have high : c.toNat ≤ 57 := digit.2
    refine isInside_eq_true.mpr ⟨?_, ?_⟩
    · simp [isBlank]
      omega
    · rintro rfl
      exact absurd high (by decide)
  · have all : ['-', '.', 'N', 'a', 'i', 'n', 'f'].all isInside = true := by decide
    exact List.all_eq_true.mp all c (List.contains_iff_mem.mp listed)

/-- The text behind the opening of a numeral's bracket. -/
theorem holds_numeral {s : String} (h : Decimal.Spelled s) : Holds s.toList (s.toList ++ [']']) :=
  ⟨by simpa using h.1, fun c hc => isInside_of_isNumeralChar (h.2 c hc), [], [], [],
    rfl, by simp, by simp, by simp⟩

/-- A bracket with one word has one word with its closing bracket, or two words. -/
theorem Holds.runs_eq {word cs : List Char} (h : Holds word cs) :
    runs isBlank cs = [word ++ [']']] ∨ runs isBlank cs = [word, [']']] := by
  obtain ⟨some_char, chars, gap, close, tail, rfl, gapBlank, closeBlank, tailBlank⟩ := h
  have nonblank : ∀ c ∈ word, isBlank c = false := fun c hc =>
    (isInside_eq_true.mp (chars c hc)).1
  have none_behind : runs isBlank tail = [] := Text.runs_eq_nil.mpr tailBlank
  have tailStop : ∀ c ∈ tail.head?, isBlank c = true := fun c hc =>
    tailBlank c (List.mem_of_mem_head? hc)
  have closing : ∀ c ∈ [']'], isBlank c = false := by simp [isBlank]
  rw [Text.runs_append_of_separates gapBlank]
  cases close with
  | nil =>
    have joined : ∀ c ∈ word ++ [']'], isBlank c = false := fun c hc =>
      (List.mem_append.mp hc).elim (nonblank c) (closing c)
    have one := Text.runs_append_of_not_separates (by simp) joined tailStop
    rw [none_behind, List.append_assoc] at one
    exact .inl one
  | cons c close =>
    have stop : ∀ d ∈ (c :: close ++ ']' :: tail).head?, isBlank d = true := by
      rintro d ⟨⟩
      exact closeBlank c List.mem_cons_self
    have last := Text.runs_append_of_not_separates (by simp) closing tailStop
    rw [none_behind] at last
    rw [Text.runs_append_of_not_separates some_char nonblank stop,
      Text.runs_append_of_separates closeBlank]
    exact .inr (congrArg (word :: ·) last)

/-- A bracket takes no further word: before the last one there are only blanks. -/
theorem Holds.isBlank_of_mem {word inner back : List Char}
    (h : Holds word (inner ++ ' ' :: '[' :: back)) (nonblank : ∀ c ∈ back, isBlank c = false) :
    ∀ c ∈ inner, isBlank c = true := by
  have chars : ∀ c ∈ '[' :: back, isBlank c = false := by
    simpa [isBlank] using nonblank
  have single : runs isBlank ('[' :: back) = ['[' :: back] :=
    Text.runs_of_not_separates (List.cons_ne_nil _ _) chars
  have runs_eq := h.runs_eq
  rw [Text.runs_append_cons (by decide), single] at runs_eq
  rcases runs_eq with one | two
  · rw [← List.nil_append [word ++ [']']]] at one
    exact Text.runs_eq_nil.mp (List.append_inj' one rfl).1
  · have closing := congrArg List.getLast? two
    simp at closing

/-- A bracket behind which a right side has only blanks ends its last name. -/
theorem exists_getLast?_of_rightText {right : List Symbol} (names : ∀ s ∈ right, IsName s)
    {before inner : List Char} (same : rightText right = before ++ '[' :: inner)
    (blank : ∀ c ∈ inner, isBlank c = true) :
    ∃ s ∈ right.getLast?, s.name.toList.getLast? = some '[' := by
  rcases List.eq_nil_or_concat right with rfl | ⟨init, s, rfl⟩
  · simp [rightText] at same
  rw [List.concat_eq_append] at names same ⊢
  obtain ⟨some_char, chars⟩ := names s (by simp)
  have last : (rightText (init ++ [s])).getLast? = s.name.toList.getLast? := by
    have filled : s.name.toList ≠ [] := by simpa using some_char
    have cut : rightText (init ++ [s]) = (rightText init ++ [' ']) ++ s.name.toList := by
      simp [rightText]
    rw [cut, List.getLast?_append_of_ne_nil _ filled]
  refine ⟨s, by simp, ?_⟩
  rw [← last, same, List.getLast?_append_cons]
  rcases List.eq_nil_or_concat inner with rfl | ⟨inner, c, rfl⟩
  · rfl
  · -- the last character of a name is no blank
    have ends : s.name.toList.getLast? = some c := by
      rw [← last, same, List.concat_eq_append, ← List.cons_append, ← List.append_assoc,
        List.getLast?_concat]
    have blank_end := blank c (by simp)
    rw [chars c (List.mem_of_getLast? ends)] at blank_end
    cases blank_end

/-- No bracket that opens in a right side takes the numeral behind it, unless the last name opens
one at its end. -/
theorem not_holds_of_rightText {right : List Symbol} (names : ∀ s ∈ right, IsName s)
    (last : ∀ s ∈ right.getLast?, s.name.toList.getLast? ≠ some '[') {numeral : String}
    (spelled : Decimal.Spelled numeral) :
    ∀ before rest, rightText right ++ [' '] = before ++ '[' :: rest →
      ∀ word, ¬ Holds word (rest ++ '[' :: (numeral.toList ++ [']'])) := by
  intro before rest same word held
  rcases List.eq_nil_or_concat rest with rfl | ⟨inner, c, rfl⟩
  · exact absurd (List.append_inj' same rfl).2 (by decide)
  rw [List.concat_eq_append] at same held
  have split : rightText right ++ [' '] = (before ++ '[' :: inner) ++ [c] := by
    simpa using same
  obtain ⟨front, blank⟩ := List.append_inj' split rfl
  obtain rfl : ' ' = c := List.singleton_inj.mp blank
  have nonblank : ∀ c ∈ numeral.toList ++ [']'], isBlank c = false := by
    intro c hc
    rcases List.mem_append.mp hc with hc | hc
    · exact (isInside_eq_true.mp (isInside_of_isNumeralChar (spelled.2 c hc))).1
    · obtain rfl := List.mem_singleton.mp hc
      decide
  rw [List.append_assoc, List.singleton_append] at held
  obtain ⟨s, hs, opening⟩ :=
    exists_getLast?_of_rightText names front (held.isBlank_of_mem nonblank)
  exact last s hs opening

/-! ## Reading rules back -/

/-- The number in a bracket is a probability. -/
theorem readProbability_eq_ok_some {line : String} {bracket : Option (List Char)} {p : Float} :
    readProbability line bracket = .ok (some p) ↔
      ∃ word, bracket = some word ∧ Decimal.read? (String.ofList word) = some p ∧
        (0.0 ≤ p && p ≤ 1.0) = true := by
  cases bracket with
  | none => simp [readProbability]
  | some word =>
    rw [readProbability]
    cases found : Decimal.read? (String.ofList word) with
    | none => simp [found]
    | some q =>
      dsimp only
      split
      · next inRange =>
        constructor
        · intro same
          obtain rfl := Option.some.inj (Except.ok.inj same)
          exact ⟨word, rfl, found, inRange⟩
        · rintro ⟨_, ⟨⟩, found', -⟩
          rw [found] at found'
          exact congrArg _ found'
      · next outside =>
        constructor
        · intro same
          cases same
        · rintro ⟨_, ⟨⟩, found', inRange⟩
          rw [found] at found'
          cases found'
          exact absurd inRange outside

/-- A rule with a probability is read back, if its numeral is and its last name does not open a
bracket at its end. -/
theorem read_text_of_probability {line : String} {r : Rule (Probability Float)}
    (h : read line = .ok r)
    (numeral : Decimal.read? (Decimal.numeral r.weight.value) = some r.weight.value)
    (last : ∀ s ∈ r.right.getLast?, s.name.toList.getLast? ≠ some '[') :
    read r.text = .ok r := by
  obtain ⟨before, behind, value, found⟩ := read_eq_ok_iff.mp h
  have names : ∀ s ∈ r.right, IsName s := fun s hs => isName_of_mem_wordsOf (found.right ▸ hs)
  obtain ⟨p, rfl, weight⟩ := Option.map_eq_some_iff.mp found.weight
  have value_eq : r.weight.value = p := by rw [← weight]; rfl
  obtain ⟨_, -, -, inRange⟩ := readProbability_eq_ok_some.mp found.bracket
  have spelled := Decimal.spelled_numeral p
  rw [value_eq] at numeral
  have trailer : (WeightText.trailer r.weight).toList =
      [' '] ++ '[' :: ((Decimal.numeral p).toList ++ [']']) := by
    rw [← weight]
    simp [WeightText.trailer, Probability.ofValue]
  have cut : splitBracket (rightText r.right ++ (WeightText.trailer r.weight).toList) =
      (rightText r.right ++ [' '], some (Decimal.numeral p).toList) := by
    rw [trailer, ← List.append_assoc,
      splitBracket_append (not_holds_of_rightText names last spelled),
      splitBracket_cons (holds_numeral spelled), List.append_nil]
  refine found.of_text (toList_text r) ?_ found.weight ?_
  · rw [cut]
    exact readProbability_eq_ok_some.mpr ⟨_, rfl, by rwa [String.ofList_toList], inRange⟩
  · rw [cut]
    exact wordsOf_rightText names (by simp [isBlank])

/-- The text of a plain rule ends with its right side. -/
theorem toList_text_plain (r : Rule Unit) :
    r.text.toList = r.left.name.toList ++ ' ' :: '-' :: '>' :: rightText r.right := by
  rw [toList_text]
  simp [WeightText.trailer]

/-- A plain rule is read back exactly if the text of its right side does not end with a bracket. -/
theorem read_text_of_plain {line : String} {r : Rule Unit} (h : read line = .ok r) :
    read r.text = .ok r ↔ ¬ EndsBracketed (rightText r.right) := by
  obtain ⟨before, behind, value, found⟩ := read_eq_ok_iff.mp h
  have names : ∀ s ∈ r.right, IsName s := fun s hs => isName_of_mem_wordsOf (found.right ▸ hs)
  have text := toList_text_plain r
  have whole : (wordsOf (rightText r.right)).map Symbol.mk = r.right := by
    simpa using wordsOf_rightText names (List.forall_mem_nil _)
  constructor
  · intro back ends
    obtain ⟨front, rest, word, cut, same, -⟩ := exists_splitBracket_of_endsBracketed ends
    have right := (found.sides_of_text text back).2
    rw [cut] at right
    -- the words before the bracket would hold all characters of the right side
    have same_runs := runs_eq_of_wordsOf_eq (whole.trans right)
    have chars := congrArg List.flatten same_runs
    rw [Text.flatten_runs, Text.flatten_runs, same, List.filter_append] at chars
    have none_behind := List.append_right_eq_self.mp chars
    rw [List.filter_cons_of_pos (by decide)] at none_behind
    cases none_behind
  · intro open_end
    have cut := splitBracket_of_not_endsBracketed open_end
    have bracket : readProbability r.text (splitBracket (rightText r.right)).2 = .ok none := by
      rw [cut]
      rfl
    refine found.of_text text bracket rfl ?_
    rw [cut]
    exact whole

/-- A plain rule whose right side ends with a bracket is read, if at all, as the rule of the words
before such a bracket. -/
theorem exists_bracket_of_plain {line : String} {r : Rule Unit} (h : read line = .ok r)
    (ends : EndsBracketed (rightText r.right)) :
    ∃ before rest word, rightText r.right = before ++ '[' :: rest ∧ Holds word rest ∧
      ∀ q : Rule Unit, read r.text = .ok q →
        q.left = r.left ∧ q.right = (wordsOf before).map Symbol.mk := by
  obtain ⟨_, _, _, found⟩ := read_eq_ok_iff.mp h
  obtain ⟨before, rest, word, cut, same, held⟩ := exists_splitBracket_of_endsBracketed ends
  refine ⟨before, rest, word, same, held, fun q back => ?_⟩
  have sides := found.sides_of_text (toList_text_plain r) back
  rwa [cut] at sides

/-- Rules are read back from their texts. A rule with a probability is, if its numeral is and its
last name does not open a bracket at its end. A plain rule is exactly if its right side does not
end with a bracket that holds one word; such a bracket is taken for a weight and passed over, so
that at most the words before it are read. -/
theorem read_text :
    (∀ (line : String) (r : Rule (Probability Float)), read line = .ok r →
      Decimal.read? (Decimal.numeral r.weight.value) = some r.weight.value →
      (∀ s ∈ r.right.getLast?, s.name.toList.getLast? ≠ some '[') → read r.text = .ok r) ∧
    ∀ (line : String) (r : Rule Unit), read line = .ok r →
      (read r.text = .ok r ↔ ¬ EndsBracketed (rightText r.right)) ∧
      (EndsBracketed (rightText r.right) →
        ∃ before rest word, rightText r.right = before ++ '[' :: rest ∧ Holds word rest ∧
          ∀ q : Rule Unit, read r.text = .ok q →
            q.left = r.left ∧ q.right = (wordsOf before).map Symbol.mk) :=
  ⟨fun _ _ => read_text_of_probability, fun _ _ h =>
    ⟨read_text_of_plain h, exists_bracket_of_plain h⟩⟩

/-- A rule with brackets among its names, with and without a probability. -/
theorem read_text_quantified :
    (∃ r : Rule (Probability Float), read "NP -> [ DT NN ] [ .250 ]" = .ok r ∧
      r.text = "NP -> [ DT NN ] [0.25]" ∧ read r.text = .ok r) ∧
    ∃ r : Rule Unit, read "NP -> [ DT NN ]  " = .ok r ∧ r.text = "NP -> [ DT NN ]" ∧
      read r.text = .ok r := by
  constructor
  · have facts : (read (W := Probability Float) "NP -> [ DT NN ] [ .250 ]").toOption.any (fun r =>
        r.text = "NP -> [ DT NN ] [0.25]" ∧
          Decimal.read? (Decimal.numeral r.weight.value) = some r.weight.value ∧
          ∀ s ∈ r.right.getLast?, s.name.toList.getLast? ≠ some '[') = true := by
      decide +kernel
    cases first : read (W := Probability Float) "NP -> [ DT NN ] [ .250 ]" with
    | error e => rw [first] at facts; cases facts
    | ok r =>
      rw [first] at facts
      obtain ⟨text_eq, numeral, last⟩ := of_decide_eq_true facts
      exact ⟨r, rfl, text_eq, read_text.1 _ r first numeral last⟩
  · have accepted : (read (W := Unit) "NP -> [ DT NN ]  ").toOption =
        some ⟨⟨"NP"⟩, [⟨"["⟩, ⟨"DT"⟩, ⟨"NN"⟩, ⟨"]"⟩], .long, ()⟩ := by decide +kernel
    cases first : read (W := Unit) "NP -> [ DT NN ]  " with
    | error e => rw [first] at accepted; cases accepted
    | ok r =>
      rw [first] at accepted
      obtain rfl := Option.some.inj accepted
      exact ⟨_, rfl, by decide +kernel, (read_text.2 _ _ first).1.mpr (by decide +kernel)⟩

/-- A plain rule that keeps a bracketed word loses it: the word behind it, which was passed over,
is not written any more. -/
theorem not_read_text :
    ¬ ((∀ (line : String) (r : Rule (Probability Float)), read line = .ok r →
        Decimal.read? (Decimal.numeral r.weight.value) = some r.weight.value →
        read r.text = .ok r) ∧
      ∀ (line : String) (r : Rule Unit), read line = .ok r → read r.text = .ok r) := by
  rintro ⟨-, plain⟩
  have accepted : (read (W := Unit) "S -> A [0.5] [0.25]").toOption =
      some ⟨⟨"S"⟩, [⟨"A"⟩, ⟨"[0.5]"⟩], .binary, ()⟩ := by decide +kernel
  have shorter : (read (W := Unit) (text ⟨⟨"S"⟩, [⟨"A"⟩, ⟨"[0.5]"⟩], .binary, ()⟩)).toOption =
      some ⟨⟨"S"⟩, [⟨"A"⟩], .terminal, ()⟩ := by decide +kernel
  cases first : read (W := Unit) "S -> A [0.5] [0.25]" with
  | error e => rw [first] at accepted; cases accepted
  | ok r =>
    rw [first] at accepted
    obtain rfl := Option.some.inj accepted
    rw [plain _ _ first] at shorter
    exact absurd shorter (by decide)

end Constituency.Rule
