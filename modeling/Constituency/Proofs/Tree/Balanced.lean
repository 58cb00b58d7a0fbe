import Constituency.Proofs.Tree.Reading

/-!
# Texts with balanced brackets

Which texts are treebanks and what their trees are can be told from the characters
alone. A text is a list of trees if its brackets are balanced; the names of the
trees are the words of the text; there is a tree for each word and each bracket
that stands outside all brackets. The facts hold below any number of brackets
that are open already, which is how they are proved.
-/

namespace Constituency.Bracketed

open Text (isBlank runs)

/-- Whether brackets are balanced: none closes before it opens, and all that open close. -/
structure Balanced (cs : List Char) : Prop where
  /-- No prefix closes more brackets than it opens. -/
  never_below : ∀ front, front <+: cs → front.count ')' ≤ front.count '('
  /-- As many brackets close as open. -/
  totals : cs.count '(' = cs.count ')'

/-- Whether brackets are balanced behind a number of open ones. -/
structure Closes (opened : Nat) (cs : List Char) : Prop where
  /-- No prefix closes more brackets than are open. -/
  never_below : ∀ front, front <+: cs → front.count ')' ≤ opened + front.count '('
  /-- All open brackets close. -/
  totals : opened + cs.count '(' = cs.count ')'

/-- The number of open brackets behind a character. -/
def depthAfter (opened : Nat) (c : Char) : Nat :=
  if c = '(' then opened + 1 else if c = ')' then opened - 1 else opened

/-- What stands outside all brackets, with the brackets that open there. -/
def outermost : Nat → List Char → List Char
  | _, [] => []
  | opened, c :: cs =>
    if opened = 0 then c :: outermost (depthAfter opened c) cs
    else outermost (depthAfter opened c) cs

/-- The number of words and brackets outside all brackets. -/
def topLevel (opened : Nat) (cs : List Char) : Nat :=
  (runs endsWord (outermost opened cs)).length + (outermost opened cs).count '('

/-! ## Brackets and other characters -/

/-- Balanced brackets close each other. -/
theorem balanced_iff_closes {cs : List Char} : Balanced cs ↔ Closes 0 cs :=
  ⟨fun h => ⟨by simpa using h.never_below, by simpa using h.totals⟩,
    fun h => ⟨by simpa using h.never_below, by simpa using h.totals⟩⟩

/-- Nothing closes if there is nothing. -/
theorem closes_nil {opened : Nat} : Closes opened [] ↔ opened = 0 :=
  ⟨fun h => by simpa using h.totals, fun h => ⟨fun front _ => by simp_all, by simp [h]⟩⟩

/-- The first character closes no more than is open, and the others close what is open then. -/
theorem closes_cons {opened : Nat} {c : Char} {cs : List Char} :
    Closes opened (c :: cs) ↔ (c = ')' → opened ≠ 0) ∧ Closes (depthAfter opened c) cs := by
  -- a prefix that is not empty begins with the character
  have counts : ∀ front : List Char, (c = ')' → opened ≠ 0) →
      ((c :: front).count ')' ≤ opened + (c :: front).count '(' ↔
        front.count ')' ≤ depthAfter opened c + front.count '(') ∧
      (opened + (c :: front).count '(' = (c :: front).count ')' ↔
        depthAfter opened c + front.count '(' = front.count ')') := by
    intro front enough
    rw [List.count_cons, List.count_cons, depthAfter]
    by_cases opens : c = '('
    · subst opens
      simp only [reduceIte, Char.reduceBEq, Bool.false_eq_true, beq_self_eq_true]
      omega
    · by_cases closes : c = ')'
      · have some_open := enough closes
        subst closes
        simp only [reduceIte, Char.reduceBEq, Char.reduceEq, Bool.false_eq_true, beq_self_eq_true]
        omega
      · simp [opens, closes]
  constructor
  · intro h
    have enough : c = ')' → opened ≠ 0 := by
      rintro rfl rfl
      have single := h.never_below [')'] (List.prefix_append [')'] cs)
      simp at single
    exact ⟨enough, ⟨fun front inside => (counts front enough).1.mp
      (h.never_below _ (List.cons_prefix_cons.mpr ⟨rfl, inside⟩)),
      (counts cs enough).2.mp h.totals⟩⟩
  · rintro ⟨enough, h⟩
    refine ⟨fun front inside => ?_, (counts cs enough).2.mpr h.totals⟩
    rcases List.prefix_cons_iff.mp inside with rfl | ⟨rest, rfl, below⟩
    · simp
    · exact (counts rest enough).1.mpr (h.never_below rest below)

/-- Characters that are no brackets leave the depth as it is. -/
theorem depthAfter_of_ne {c : Char} (h : c ≠ '(' ∧ c ≠ ')') (opened : Nat) :
    depthAfter opened c = opened := by
  rw [depthAfter, if_neg h.1, if_neg h.2]

/-- Characters that are no brackets have no part in the balance. -/
theorem closes_append {opened : Nat} {front cs : List Char}
    (h : ∀ c ∈ front, c ≠ '(' ∧ c ≠ ')') : Closes opened (front ++ cs) ↔ Closes opened cs := by
  induction front with
  | nil => rfl
  | cons c front ih =>
    have other := h c List.mem_cons_self
    rw [List.cons_append, closes_cons, depthAfter_of_ne other,
      ih fun d hd => h d (List.mem_cons_of_mem c hd)]
    simp [other.2]

/-- Characters that are no brackets stand outside all brackets, or inside like those behind them. -/
theorem outermost_append {opened : Nat} {front : List Char} (h : ∀ c ∈ front, c ≠ '(' ∧ c ≠ ')')
    (cs : List Char) :
    outermost opened (front ++ cs) =
      if opened = 0 then front ++ outermost opened cs else outermost opened cs := by
  induction front with
  | nil => exact (ite_self _).symm
  | cons c front ih =>
    rw [List.cons_append, outermost, depthAfter_of_ne (h c List.mem_cons_self),
      ih fun d hd => h d (List.mem_cons_of_mem c hd)]
    split <;> rfl

/-- Outside all brackets a text begins as it does. -/
theorem head?_outermost (cs : List Char) : (outermost 0 cs).head? = cs.head? := by
  cases cs <;> rfl

/-! ## Lexemes -/

/-- A word and a blank are no brackets. -/
theorem ne_of_isWordChar {word : List Char} (h : ∀ c ∈ word, isWordChar c = true) :
    ∀ c ∈ word, c ≠ '(' ∧ c ≠ ')' :=
  fun c hc => (of_isWordChar (h c hc)).2

/-- The lexemes of a text close the brackets that its characters close. -/
theorem Lexed.closed_iff {cs : List Char} {found : List Lexeme} (h : Lexed cs found)
    (opened : Nat) : closed opened found = true ↔ Closes opened cs := by
  induction h generalizing opened with
  | nil => simp [closed, closes_nil]
  | blank blank rest ih =>
    have other := ne_of_isBlank blank
    rw [ih, closes_cons, depthAfter_of_ne other]
    simp [other.2]
  | closing rest ih =>
    rw [closes_cons]
    cases opened with
    | zero => simp [closed]
    | succ opened => simp [closed, ih, depthAfter]
  | word some_char chars stop rest ih => rw [closed, ih, closes_append (ne_of_isWordChar chars)]
  | opening blanks chars stop alone rest ih =>
    rw [closed, ih, closes_cons, closes_append fun c hc => ne_of_isBlank (blanks c hc),
      closes_append (ne_of_isWordChar chars)]
    simp [depthAfter]

/-- The lexemes of a text count what stands outside all brackets. -/
theorem Lexed.units_eq {cs : List Char} {found : List Lexeme} (h : Lexed cs found)
    (opened : Nat) : units opened found = topLevel opened cs := by
  induction h generalizing opened with
  | nil => rfl
  | @blank c cs more blank rest ih =>
    have other := ne_of_isBlank blank
    have ends : endsWord c = true := endsWord_eq_true.mpr (isWordChar_of_isBlank blank)
    rw [ih, topLevel, topLevel, outermost, depthAfter_of_ne other]
    split
    · rw [Text.runs_cons_of_separates ends, List.count_cons_of_ne other.1]
    · rfl
  | @closing cs more rest ih =>
    have ends : endsWord ')' = true := by decide
    have after : depthAfter opened ')' = opened - 1 := rfl
    rw [units, ih, topLevel, topLevel, outermost, after]
    split
    · rw [Text.runs_cons_of_separates ends, List.count_cons_of_ne (by decide)]
    · rfl
  | @word name cs more some_char chars stop rest ih =>
    have others := ne_of_isWordChar chars
    rw [units, ih, topLevel, topLevel, outermost_append others]
    split
    · next outside =>
      subst outside
      have none_opens : name.count '(' = 0 := List.count_eq_zero.mpr fun opens =>
        (others _ opens).1 rfl
      have inWord : ∀ c ∈ name, endsWord c = false :=
        fun c hc => endsWord_eq_false.mpr (chars c hc)
      rw [Text.runs_append_of_not_separates some_char inWord (by rwa [head?_outermost]),
        List.count_append, none_opens, List.length_cons]
      omega
    · omega
  | @opening gap label cs more blanks chars stop alone rest ih =>
    have ends : endsWord '(' = true := by decide
    have after : depthAfter opened '(' = opened + 1 := rfl
    rw [units, ih, topLevel, topLevel, outermost, after,
      outermost_append fun c hc => ne_of_isBlank (blanks c hc), if_neg (Nat.succ_ne_zero opened),
      outermost_append (ne_of_isWordChar chars), if_neg (Nat.succ_ne_zero opened)]
    split
    · rw [Text.runs_cons_of_separates ends, List.count_cons_self]
      omega
    · omega

/-- A label brings a name if it has a character. -/
theorem filter_symbolOf {label : List Char} :
    [symbolOf label].filter (·.name ≠ "") = if label = [] then [] else [symbolOf label] := by
  by_cases bare : label = []
  · subst bare
    rfl
  · have named : (symbolOf label).name ≠ "" := by
      simpa [symbolOf] using bare
    rw [if_neg bare, List.filter_cons_of_pos (by simpa using named), List.filter_nil]

/-- The symbols of the lexemes that have a name are the words of the text. -/
theorem Lexed.symbols_eq {cs : List Char} {found : List Lexeme} (h : Lexed cs found) :
    (symbols found).filter (·.name ≠ "") = (runs endsWord cs).map symbolOf := by
  have inWord : ∀ {word : List Char}, (∀ c ∈ word, isWordChar c = true) →
      ∀ c ∈ word, endsWord c = false :=
    fun chars c hc => endsWord_eq_false.mpr (chars c hc)
  induction h with
  | nil => rfl
  | blank blank rest ih =>
    have ends := endsWord_eq_true.mpr (isWordChar_of_isBlank blank)
    rw [ih, Text.runs_cons_of_separates ends]
  | closing rest ih =>
    have ends : endsWord ')' = true := by decide
    rw [Text.runs_cons_of_separates ends, ← ih]
    rfl
  | @word name cs more some_char chars stop rest ih =>
    rw [symbols, List.flatMap_cons, List.filter_append, Token.symbols, filter_symbolOf,
      if_neg some_char, Text.runs_append_of_not_separates some_char (inWord chars) stop,
      List.map_cons, ← ih]
    rfl
  | @opening gap label cs more blanks chars stop alone rest ih =>
    have ends : endsWord '(' = true := by decide
    have gapEnds : ∀ c ∈ gap, endsWord c = true :=
      fun c hc => endsWord_eq_true.mpr (isWordChar_of_isBlank (blanks c hc))
    rw [symbols, List.flatMap_cons, List.filter_append, Token.symbols, filter_symbolOf,
      Text.runs_cons_of_separates ends, Text.runs_append_of_separates gapEnds]
    split
    · next bare =>
      subst bare
      exact ih
    · next some_char =>
      rw [Text.runs_append_of_not_separates some_char (inWord chars) stop, List.map_cons, ← ih]
      rfl

/-! ## Treebank texts -/

/-- A text is a list of trees exactly if its brackets are balanced; then the names of the trees,
parents before children, are the words of the text in order, and there is a tree for each word and
each bracket outside all brackets. A text is one tree exactly if there is one of these, and the
tree is the same. -/
theorem readAll_balanced (source : String) :
    ((∃ ts, Tree.readAll source = .ok ts) ↔ Balanced source.toList) ∧
      (∀ ts, Tree.readAll source = .ok ts →
        (Tree.labelsAll ts).filter (·.name ≠ "") = (runs endsWord source.toList).map symbolOf ∧
          ts.length = topLevel 0 source.toList) ∧
      ((∃ t, Tree.read source = .ok t) ↔
        Balanced source.toList ∧ topLevel 0 source.toList = 1) ∧
      ∀ t, Tree.read source = .ok t ↔ Tree.readAll source = .ok [t] := by
  have lexed := lexed_lexemes source.toList
  have accepted : (∃ ts, Tree.readAll source = .ok ts) ↔ Balanced source.toList := by
    rw [balanced_iff_closes, ← lexed.closed_iff]
    exact ⟨fun ⟨ts, read⟩ => (of_readTrees read).1, exists_readTrees_eq_ok 1⟩
  have counted : ∀ ts, Tree.readAll source = .ok ts → ts.length = topLevel 0 source.toList := by
    intro ts read
    rw [← lexed.units_eq]
    exact (of_readTrees read).2.1.symm
  refine ⟨accepted, fun ts read => ⟨?_, counted ts read⟩, ?_, fun t => read_eq_ok_iff⟩
  · rw [(of_readTrees read).2.2, lexed.symbols_eq]
  · simp only [read_eq_ok_iff, ← accepted]
    constructor
    · rintro ⟨t, read⟩
      exact ⟨⟨[t], read⟩, (counted [t] read).symm⟩
    · rintro ⟨⟨ts, read⟩, single⟩
      obtain ⟨t, rfl⟩ := List.length_eq_one_iff.mp ((counted ts read).trans single)
      exact ⟨t, read⟩

example : (Tree.readAll "( (S a)) b()").map (·.map Tree.text) = .ok ["( (S a))", "b", ""] := by
  cbv

end Constituency.Bracketed
