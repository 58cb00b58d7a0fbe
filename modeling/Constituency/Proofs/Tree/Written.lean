import Constituency.Proofs.Tree.Leaves
import Constituency.Proofs.Tree.Reading

/-!
# Reading what was written

The bracketed text of a tree is read back as the tree, whatever stands behind it,
as long as its last word ends there. An opening bracket takes the word behind it,
so a node without a label is told from its first child only if that opens with a
bracket too; and a node without children is written as a leaf.
-/

namespace Constituency

namespace Bracketed

/-- A symbol whose name is a word of bracketed texts. -/
def IsWord (s : Symbol) : Prop :=
  s.name ≠ "" ∧ ∀ c ∈ s.name.toList, isWordChar c = true

instance (s : Symbol) : Decidable (IsWord s) :=
  decidable_of_iff (s.name ≠ "" ∧ s.name.toList.all isWordChar = true) (by simp [IsWord])

end Bracketed

/-- Each node is labelled by a word, or has no name and an inner node as its first child. -/
def Tree.Readable (t : Tree Symbol) : Prop :=
  ∀ u ∈ t.subtrees, Bracketed.IsWord u.label ∨
    u.label.name = "" ∧ ∃ c ∈ u.children.head?, c.isLeaf = false

instance (t : Tree Symbol) : Decidable t.Readable :=
  inferInstanceAs (Decidable (∀ u ∈ t.subtrees, _ ∨ _ ∧ _))

namespace Bracketed

open Text (isBlank)

/-! ## Lexemes of written trees -/

/-- A blank is passed over. -/
theorem lexemes_cons_of_isBlank {c : Char} (h : isBlank c = true) (cs : List Char) :
    lexemes (c :: cs) = lexemes cs :=
  (Lexed.blank h (lexed_lexemes cs)).lexemes_eq

/-- Blanks are passed over. -/
theorem lexemes_append_of_isBlank {gap : List Char} (h : ∀ c ∈ gap, isBlank c = true)
    (cs : List Char) : lexemes (gap ++ cs) = lexemes cs := by
  induction gap with
  | nil => rfl
  | cons c gap ih =>
    rw [List.cons_append, lexemes_cons_of_isBlank (h c List.mem_cons_self),
      ih fun d hd => h d (List.mem_cons_of_mem c hd)]

/-- A word goes up to a blank or a bracket. -/
theorem lexemes_word {a : Symbol} (h : IsWord a) {cs : List Char}
    (stop : ∀ c ∈ cs.head?, endsWord c = true) :
    ∃ place, lexemes (a.name.toList ++ cs) = ⟨.word a.name.toList, place⟩ :: lexemes cs := by
  have some_char : a.name.toList ≠ [] := by simpa using h.1
  exact ⟨_, (Lexed.word some_char h.2 stop (lexed_lexemes cs)).lexemes_eq⟩

/-- An opening bracket takes the word behind it. -/
theorem lexemes_labelled {a : Symbol} (h : IsWord a) (cs : List Char) :
    ∃ place, lexemes ('(' :: (a.name.toList ++ ' ' :: cs)) =
      ⟨.opening a.name.toList, place⟩ :: lexemes cs := by
  have some_char : a.name.toList ≠ [] := by simpa using h.1
  have none_blank : ∀ c ∈ ([] : List Char), isBlank c = true := fun c hc => nomatch hc
  have stop : ∀ c ∈ (' ' :: cs).head?, endsWord c = true := by
    rintro c ⟨⟩
    decide
  have lexed := Lexed.opening none_blank h.2 stop (fun bare => absurd bare some_char)
    (.blank (by decide) (lexed_lexemes cs))
  exact ⟨_, lexed.lexemes_eq⟩

/-- An opening bracket before another one is taken alone. -/
theorem lexemes_unlabelled (cs : List Char) :
    ∃ place, lexemes ('(' :: ' ' :: '(' :: cs) =
      ⟨.opening [], place⟩ :: lexemes ('(' :: cs) := by
  have gap : ∀ c ∈ [' '], isBlank c = true := by simp [isBlank]
  have none_taken : ∀ c ∈ ([] : List Char), isWordChar c = true := fun c hc => nomatch hc
  have stop : ∀ c ∈ ('(' :: cs).head?, endsWord c = true := by
    rintro c ⟨⟩
    decide
  have alone : ∀ c ∈ ('(' :: cs).head?, isBlank c = false := by
    rintro c ⟨⟩
    decide
  have lexed := Lexed.opening gap none_taken stop (fun _ => alone) (lexed_lexemes ('(' :: cs))
  exact ⟨_, lexed.lexemes_eq⟩

/-- A closing bracket stands for itself. -/
theorem lexemes_closing (cs : List Char) :
    lexemes (')' :: cs) = ⟨.closing, ')' :: cs⟩ :: lexemes cs :=
  (Lexed.closing (lexed_lexemes cs)).lexemes_eq

/-! ## Reading one tree back -/

/-- Whether the text of a tree is read as the tree, whatever stands behind its last word. -/
def ReadsBack (t : Tree Symbol) : Prop :=
  ∀ (frames : List Frame) (cs : List Char), (∀ c ∈ cs.head?, endsWord c = true) →
    readTree frames (lexemes (t.text.toList ++ cs)) = deliver frames t (lexemes cs)

/-- The characters of an inner node's text, from its bracket on. -/
theorem toList_text_node (a : Symbol) (c : Tree Symbol) (cs : List (Tree Symbol)) :
    (Tree.node a (c :: cs)).text.toList = '(' :: (a.name.toList ++
      ' ' :: (c.text.toList ++ ((Tree.textAll cs).toList ++ [')']))) := by
  simp [Tree.text]

/-- Further children are written behind a blank, so that the child before them ends there. -/
theorem endsWord_of_mem_head?_textAll (cs : List (Tree Symbol)) (rest : List Char) :
    ∀ c ∈ ((Tree.textAll cs).toList ++ ')' :: rest).head?, endsWord c = true := by
  cases cs with
  | nil =>
    rintro c ⟨⟩
    decide
  | cons d cs =>
    have blank : ((Tree.textAll (d :: cs)).toList ++ ')' :: rest).head? = some ' ' := by
      simp [Tree.textAll]
    rw [blank]
    rintro c ⟨⟩
    decide

/-- Further children are handed to their node one by one. -/
theorem readTree_textAll {cs : List (Tree Symbol)} (h : ∀ c ∈ cs, ReadsBack c) (frame : Frame)
    (outer : List Frame) (rest : List Char) :
    readTree (frame :: outer) (lexemes ((Tree.textAll cs).toList ++ ')' :: rest)) =
      deliver outer (Frame.close ⟨frame.label, cs.reverse ++ frame.children⟩) (lexemes rest) := by
  induction cs generalizing frame with
  | nil => exact (congrArg _ (lexemes_closing rest)).trans (readTree_closing _ _ _ _)
  | cons c cs ih =>
    have cut : (Tree.textAll (c :: cs)).toList ++ ')' :: rest =
        ' ' :: (c.text.toList ++ ((Tree.textAll cs).toList ++ ')' :: rest)) := by
      simp [Tree.textAll]
    rw [cut, lexemes_cons_of_isBlank (by decide),
      h c List.mem_cons_self _ _ (endsWord_of_mem_head?_textAll cs rest), deliver,
      ih fun d hd => h d (List.mem_cons_of_mem c hd)]
    simp [Frame.push]

/-- Every readable tree is read back. -/
theorem readsBack_of_readable {t : Tree Symbol} (h : t.Readable) : ReadsBack t := by
  induction t using Tree.leafOrNode with
  | leaf a =>
    intro frames cs stop
    have word : IsWord a := by
      rcases h _ (Tree.self_mem_subtrees _) with word | ⟨-, c, none_first, -⟩
      · exact word
      · cases none_first
    obtain ⟨place, found⟩ := lexemes_word word stop
    rw [Tree.text, found, readTree_word, symbolOf, String.ofList_toList]
  | node a children some_child ih =>
    intro frames rest _
    obtain ⟨c, cs, rfl⟩ := List.exists_cons_of_ne_nil some_child
    have below : ∀ d ∈ c :: cs, ReadsBack d := fun d hd =>
      ih d hd fun u hu => h u (Tree.mem_subtrees.mpr (.inr ⟨d, hd, hu⟩))
    have opens : ∃ place, lexemes ((Tree.node a (c :: cs)).text.toList ++ rest) =
        ⟨.opening a.name.toList, place⟩ ::
          lexemes (c.text.toList ++ ((Tree.textAll cs).toList ++ ')' :: rest)) := by
      rw [toList_text_node]
      simp only [List.cons_append, List.append_assoc, List.nil_append]
      rcases h _ (Tree.self_mem_subtrees _) with word | ⟨bare, d, first, inner⟩
      · exact lexemes_labelled word _
      · -- the first child is an inner node, whose text opens with a bracket
        obtain rfl : c = d := Option.some.inj first
        obtain ⟨b, ds, some_grandchild, rfl⟩ := Tree.exists_node_of_not_isLeaf inner
        obtain ⟨e, es, rfl⟩ := List.exists_cons_of_ne_nil some_grandchild
        replace bare : a.name = "" := bare
        rw [toList_text_node, bare]
        exact lexemes_unlabelled _
    obtain ⟨place, found⟩ := opens
    rw [found, readTree_opening, below c List.mem_cons_self _ _
      (endsWord_of_mem_head?_textAll cs rest), deliver,
      readTree_textAll fun d hd => below d (List.mem_cons_of_mem c hd)]
    simp [Frame.push, Frame.close, symbolOf]

end Bracketed

/-! ## Reading treebanks back -/

namespace Bracketed

open Text (isBlank)

/-- Readable trees are read one after the other, when white space stands between them. -/
theorem readTrees_spaced (number : Nat) (spaced : List (Tree Symbol × String))
    (readable : ∀ p ∈ spaced, p.1.Readable)
    (blank : ∀ p ∈ spaced, ∀ c ∈ p.2.toList, isBlank c = true)
    (apart : ∀ p ∈ spaced.dropLast, p.2 ≠ "") :
    readTrees number (lexemes (String.join (spaced.map fun p => p.1.text ++ p.2)).toList) =
      .ok (spaced.map Prod.fst) := by
  induction spaced generalizing number with
  | nil => exact readTrees_eq_ok_nil.mpr (by cbv)
  | cons p spaced ih =>
    obtain ⟨t, gap⟩ := p
    have blanks := blank _ List.mem_cons_self
    have cut : (String.join ((⟨t, gap⟩ :: spaced).map fun p => p.1.text ++ p.2)).toList =
        t.text.toList ++ (gap.toList ++
          (String.join (spaced.map fun p => p.1.text ++ p.2)).toList) := by
      simp
    have stop : ∀ c ∈ (gap.toList ++
        (String.join (spaced.map fun p => p.1.text ++ p.2)).toList).head?,
        endsWord c = true := by
      intro c hc
      cases none_between : gap.toList with
      | nil =>
        -- only the last tree may stand without white space behind it
        have last : spaced = [] := by
          by_contra more
          have gapped := apart ⟨t, gap⟩ (by simp [List.dropLast_cons_of_ne_nil more])
          exact gapped (by simpa using none_between)
        simp [none_between, last] at hc
      | cons d ds =>
        rw [none_between] at hc blanks
        obtain rfl : d = c := Option.some.inj hc
        exact endsWord_eq_true.mpr (isWordChar_of_isBlank (blanks d List.mem_cons_self))
    have later : ∀ q ∈ spaced.dropLast, q.2 ≠ "" := by
      intro q hq
      have more : spaced ≠ [] := by
        rintro rfl
        cases hq
      exact apart q (by simp [List.dropLast_cons_of_ne_nil more, hq])
    rw [cut]
    refine readTrees_eq_ok_cons.mpr ⟨_, readsBack_of_readable (readable _ List.mem_cons_self) [] _
      stop, ?_⟩
    rw [lexemes_append_of_isBlank blanks]
    exact ih (number + 1) (fun q hq => readable q (List.mem_cons_of_mem _ hq))
      (fun q hq => blank q (List.mem_cons_of_mem _ hq)) later

end Bracketed

/-- Readable trees are read back from their texts, when white space stands between them. -/
theorem Tree.readAll_text (spaced : List (Tree Symbol × String))
    (readable : ∀ p ∈ spaced, p.1.Readable)
    (blank : ∀ p ∈ spaced, ∀ c ∈ p.2.toList, Text.isBlank c = true)
    (apart : ∀ p ∈ spaced.dropLast, p.2 ≠ "") :
    Tree.readAll (String.join (spaced.map fun p => p.1.text ++ p.2)) =
        .ok (spaced.map Prod.fst) ∧
      ∀ p ∈ spaced, Tree.read p.1.text = .ok p.1 := by
  refine ⟨Bracketed.readTrees_spaced 1 spaced readable blank apart, fun p hp => ?_⟩
  have alone := Bracketed.readTrees_spaced 1 [(p.1, "")] (by simpa using readable p hp)
    (by simp) (by simp)
  rw [Bracketed.read_eq_ok_iff]
  simpa [Tree.readAll] using alone

/-- Three trees, the first one without a label at its root, on two lines. -/
theorem Tree.readAll_text_wrapped :
    Tree.readAll "( (S (NP she) sleeps))\nyes (FRAG no) " =
        .ok [.node ⟨""⟩ [.node ⟨"S"⟩ [.node ⟨"NP"⟩ [.leaf ⟨"she"⟩], .leaf ⟨"sleeps"⟩]],
          .leaf ⟨"yes"⟩, .node ⟨"FRAG"⟩ [.leaf ⟨"no"⟩]] ∧
      Tree.read "( (S (NP she) sleeps))" =
        .ok (.node ⟨""⟩ [.node ⟨"S"⟩ [.node ⟨"NP"⟩ [.leaf ⟨"she"⟩], .leaf ⟨"sleeps"⟩]]) := by
  have back := Tree.readAll_text
    [(.node ⟨""⟩ [.node ⟨"S"⟩ [.node ⟨"NP"⟩ [.leaf ⟨"she"⟩], .leaf ⟨"sleeps"⟩]], "\n"),
      (.leaf ⟨"yes"⟩, " "), (.node ⟨"FRAG"⟩ [.leaf ⟨"no"⟩], " ")]
    (by decide +kernel) (by simp [Text.isBlank]) (by decide +kernel)
  exact ⟨back.1, back.2 _ List.mem_cons_self⟩

end Constituency
