import Constituency.Proofs.Tree.Lexemes
import Constituency.Proofs.Tree.Table

/-!
# What the reader of trees does with its lexemes

The reader takes one lexeme after the other and keeps the nodes whose brackets
are still open. What it has taken is found again in what it returns: brackets
close as they open, the labels of the tree are the words that were taken, and
the trees of a text are what stands outside all brackets. Lexemes whose brackets
close are read to the end.
-/

namespace Constituency.Bracketed

open Constituency.Tree (labelsAll labelsAll_append labelsAll_cons)

/-! ## Single steps -/

/-- Hands a tree to the innermost open node, which reads on, or out if none is open. -/
def deliver :
    List Frame → Tree Symbol → List Lexeme → Except TreeError (Tree Symbol × List Lexeme)
  | [], t, rest => .ok (t, rest)
  | frame :: outer, t, rest => readTree (frame.push t :: outer) rest

/-- An opening bracket opens a node. -/
theorem readTree_opening (frames : List Frame) (label place : List Char) (rest : List Lexeme) :
    readTree frames (⟨.opening label, place⟩ :: rest) = readTree (⟨label, []⟩ :: frames) rest := by
  cases frames <;> rfl

/-- A word is a leaf of the innermost open node, or a tree of its own. -/
theorem readTree_word (frames : List Frame) (name place : List Char) (rest : List Lexeme) :
    readTree frames (⟨.word name, place⟩ :: rest) =
      deliver frames (.leaf (symbolOf name)) rest := by
  cases frames <;> rfl

/-- A closing bracket closes the innermost open node. -/
theorem readTree_closing (frame : Frame) (outer : List Frame) (place : List Char)
    (rest : List Lexeme) :
    readTree (frame :: outer) (⟨.closing, place⟩ :: rest) = deliver outer frame.close rest := by
  cases outer <;> rfl

/-- A closing bracket starts no tree. -/
theorem readTree_closing_nil (place : List Char) (rest : List Lexeme) :
    readTree [] (⟨.closing, place⟩ :: rest) = .error (.noTree (String.ofList place)) :=
  rfl

/-! ## What lexemes tell -/

/-- Whether the lexemes close the given number of open brackets and all they open themselves. -/
def closed : Nat → List Lexeme → Bool
  | opened, [] => opened == 0
  | opened, ⟨.opening _, _⟩ :: rest => closed (opened + 1) rest
  | opened, ⟨.word _, _⟩ :: rest => closed opened rest
  | 0, ⟨.closing, _⟩ :: _ => false
  | opened + 1, ⟨.closing, _⟩ :: rest => closed opened rest

/-- The number of words and brackets that stand outside all brackets, the open ones included. -/
def units : Nat → List Lexeme → Nat
  | _, [] => 0
  | opened, ⟨.opening _, _⟩ :: rest => (if opened = 0 then 1 else 0) + units (opened + 1) rest
  | opened, ⟨.word _, _⟩ :: rest => (if opened = 0 then 1 else 0) + units opened rest
  | opened, ⟨.closing, _⟩ :: rest => units (opened - 1) rest

/-- The symbols that a lexeme brings. -/
def Token.symbols : Token → List Symbol
  | .opening label => [symbolOf label]
  | .closing => []
  | .word name => [symbolOf name]

/-- The symbols of lexemes, one after the other. -/
def symbols (found : List Lexeme) : List Symbol :=
  found.flatMap (·.token.symbols)

/-- The labels of the open nodes and of their children, the outermost node first. -/
def pending : List Frame → List Symbol
  | [] => []
  | frame :: outer => pending outer ++ symbolOf frame.label :: labelsAll frame.children.reverse

/-- A child brings its labels to the open nodes. -/
theorem pending_push (frame : Frame) (outer : List Frame) (t : Tree Symbol) :
    pending (frame.push t :: outer) = pending (frame :: outer) ++ t.labels := by
  have single : labelsAll [t] = t.labels := by
    rw [labelsAll_cons]
    exact List.append_nil _
  rw [pending, pending, Frame.push, List.reverse_cons, labelsAll_append, single]
  simp only [List.append_assoc, List.cons_append]

/-- A closed node has the labels of the open one. -/
theorem pending_close (frame : Frame) (outer : List Frame) :
    pending outer ++ frame.close.labels = pending (frame :: outer) := by
  rw [pending, Frame.close, Tree.labels_node]

/-! ## What reading keeps -/

/-- What a tree and the lexemes behind it have in common with what was read. -/
structure Accounts (frames : List Frame) (found : List Lexeme) (t : Tree Symbol)
    (rest : List Lexeme) : Prop where
  /-- The brackets of the tree close as they open. -/
  closed_eq : closed frames.length found = closed 0 rest
  /-- A tree counts for one outside all brackets. -/
  units_eq : units frames.length found = (if frames.length = 0 then 1 else 0) + units 0 rest
  /-- No symbol is lost and none is added. -/
  symbols_eq : pending frames ++ symbols found = t.labels ++ symbols rest

/-- Handing a tree on, as the result or as a child of an open node, keeps the lexemes behind it and
adds its symbols to those pending. -/
theorem Accounts.of_deliver {frames : List Frame} {child t : Tree Symbol}
    {found rest : List Lexeme} (read : deliver frames child found = .ok (t, rest))
    (below : ∀ {frame outer}, frames = frame :: outer →
      Accounts (frame.push child :: outer) found t rest) :
    closed frames.length found = closed 0 rest ∧
      units frames.length found = units 0 rest ∧
      pending frames ++ child.labels ++ symbols found = t.labels ++ symbols rest := by
  cases frames with
  | nil =>
    obtain ⟨rfl, rfl⟩ := Prod.mk.inj (Except.ok.inj read)
    exact ⟨rfl, rfl, rfl⟩
  | cons frame outer =>
    obtain ⟨closed_eq, units_eq, symbols_eq⟩ := below rfl
    refine ⟨closed_eq, ?_, ?_⟩
    · simpa using units_eq
    · rw [← symbols_eq, pending_push]

/-- Reading a tree keeps its lexemes. -/
theorem accounts_of_readTree {frames : List Frame} {found rest : List Lexeme} {t : Tree Symbol}
    (read : readTree frames found = .ok (t, rest)) : Accounts frames found t rest := by
  induction found generalizing frames with
  | nil => cases frames <;> simp [readTree] at read
  | cons lexeme more ih =>
    obtain ⟨token, place⟩ := lexeme
    cases token with
    | opening label =>
      rw [readTree_opening] at read
      obtain ⟨closed_eq, units_eq, symbols_eq⟩ := ih read
      refine ⟨closed_eq, ?_, ?_⟩
      · rw [units, ← List.length_cons, units_eq]
        simp
      · rw [← symbols_eq, pending]
        simp [symbols, Token.symbols, labelsAll, Tree.subtreesAll]
    | word name =>
      rw [readTree_word] at read
      obtain ⟨closed_eq, units_eq, symbols_eq⟩ := Accounts.of_deliver read
        fun same => ih (by rwa [same] at read)
      refine ⟨by rwa [closed], by rw [units, units_eq], ?_⟩
      rw [← symbols_eq, List.append_assoc]
      rfl
    | closing =>
      cases frames with
      | nil => rw [readTree_closing_nil] at read; cases read
      | cons frame outer =>
        rw [readTree_closing] at read
        obtain ⟨closed_eq, units_eq, symbols_eq⟩ := Accounts.of_deliver read
          fun same => ih (by rwa [same] at read)
        refine ⟨by rwa [List.length_cons, closed], ?_, ?_⟩
        · rw [List.length_cons, units, Nat.add_sub_cancel, units_eq]
          simp
        · rw [← symbols_eq, pending_close]
          rfl

/-- Lexemes that close what is open are read, unless there is nothing to read. -/
theorem exists_readTree_eq_ok {frames : List Frame} {found : List Lexeme}
    (closes : closed frames.length found = true) (some : frames ≠ [] ∨ found ≠ []) :
    ∃ t rest, readTree frames found = .ok (t, rest) := by
  induction found generalizing frames with
  | nil =>
    cases frames with
    | nil => simp at some
    | cons frame outer => cases closes
  | cons lexeme more ih =>
    have handed : ∀ {frames : List Frame} (child : Tree Symbol),
        closed frames.length more = true →
        ∃ t rest, deliver frames child more = .ok (t, rest) := by
      intro frames child closes
      cases frames with
      | nil => exact ⟨child, more, rfl⟩
      | cons frame outer => exact ih closes (.inl (List.cons_ne_nil _ _))
    obtain ⟨token, place⟩ := lexeme
    cases token with
    | opening label =>
      rw [readTree_opening]
      exact ih closes (.inl (List.cons_ne_nil _ _))
    | word name =>
      rw [readTree_word]
      rw [closed] at closes
      exact handed _ closes
    | closing =>
      cases frames with
      | nil => cases closes
      | cons frame outer =>
        rw [readTree_closing]
        exact handed _ closes

/-! ## Reading all trees -/

/-- Reading all trees reads one after the other. -/
theorem readTrees_eq_ok_iff {number : Nat} {found : List Lexeme} {ts : List (Tree Symbol)} :
    readTrees number found = .ok ts ↔ found = [] ∧ ts = [] ∨
      ∃ t rest more, readTree [] found = .ok (t, rest) ∧ readTrees (number + 1) rest = .ok more ∧
        ts = t :: more := by
  rw [readTrees]
  split
  · next empty =>
    obtain rfl := List.isEmpty_iff.mp empty
    simp [readTree, eq_comm]
  · next some_lexeme =>
    have some_lexeme : found ≠ [] := by simpa using some_lexeme
    split
    · next cause failed => simp [failed, some_lexeme]
    · next t rest read =>
      cases below : readTrees (number + 1) rest with
      | error cause => simp [read, below, some_lexeme, Except.map]
      | ok more => simp [read, below, some_lexeme, Except.map, eq_comm]

/-- Reading all trees gives none if there are no lexemes. -/
theorem readTrees_eq_ok_nil {number : Nat} {found : List Lexeme} :
    readTrees number found = .ok [] ↔ found = [] := by
  rw [readTrees_eq_ok_iff]
  simp

/-- Reading all trees gives the first tree and then those behind it. -/
theorem readTrees_eq_ok_cons {number : Nat} {found : List Lexeme} {t : Tree Symbol}
    {ts : List (Tree Symbol)} :
    readTrees number found = .ok (t :: ts) ↔
      ∃ rest, readTree [] found = .ok (t, rest) ∧ readTrees (number + 1) rest = .ok ts := by
  rw [readTrees_eq_ok_iff]
  simp only [List.cons.injEq, reduceCtorEq, and_false, false_or]
  constructor
  · rintro ⟨_, rest, _, first, below, rfl, rfl⟩
    exact ⟨rest, first, below⟩
  · rintro ⟨rest, first, below⟩
    exact ⟨t, rest, ts, first, below, rfl, rfl⟩

/-- Lexemes that are read to the end close their brackets, and the trees have their symbols, one
tree for each word and each bracket outside all brackets. -/
theorem of_readTrees {number : Nat} {found : List Lexeme} {ts : List (Tree Symbol)}
    (read : readTrees number found = .ok ts) :
    closed 0 found = true ∧ units 0 found = ts.length ∧ labelsAll ts = symbols found := by
  induction ts generalizing number found with
  | nil =>
    obtain rfl := readTrees_eq_ok_nil.mp read
    exact ⟨rfl, rfl, rfl⟩
  | cons t ts ih =>
    obtain ⟨rest, first, more⟩ := readTrees_eq_ok_cons.mp read
    obtain ⟨closed_eq, units_eq, symbols_eq⟩ := accounts_of_readTree first
    obtain ⟨closes, count, labels⟩ := ih more
    refine ⟨closed_eq.trans closes, ?_, ?_⟩
    · rw [List.length_cons, ← count, Nat.add_comm]
      exact units_eq
    · rw [labelsAll_cons, labels, ← symbols_eq]
      rfl

/-- Lexemes that close their brackets are read to the end. -/
theorem exists_readTrees_eq_ok (number : Nat) {found : List Lexeme}
    (closes : closed 0 found = true) : ∃ ts, readTrees number found = .ok ts := by
  by_cases none_left : found = []
  · exact ⟨[], readTrees_eq_ok_nil.mpr none_left⟩
  · obtain ⟨t, rest, first⟩ := @exists_readTree_eq_ok [] found closes (.inr none_left)
    have shorter := length_lt_of_readTree first
    obtain ⟨ts, more⟩ := exists_readTrees_eq_ok (number + 1)
      ((accounts_of_readTree first).closed_eq.symm.trans closes)
    exact ⟨t :: ts, readTrees_eq_ok_cons.mpr ⟨rest, first, more⟩⟩
termination_by found.length

/-- A text is one tree if it is a list of one tree. -/
theorem read_eq_ok_iff {source : String} {t : Tree Symbol} :
    Tree.read source = .ok t ↔ Tree.readAll source = .ok [t] := by
  rw [Tree.readAll, readTrees_eq_ok_cons, Tree.read]
  cases first : readTree [] (lexemes source.toList) with
  | error cause => simp [bind, Except.bind]
  | ok read =>
    obtain ⟨u, rest⟩ := read
    simp only [bind, Except.bind, Except.ok.injEq, Prod.mk.injEq, readTrees_eq_ok_nil]
    cases rest with
    | nil => simp [pure, Except.pure]
    | cons lexeme rest => simp [throw, throwThe, MonadExceptOf.throw]

end Constituency.Bracketed
