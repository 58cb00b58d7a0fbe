import Constituency.Text.Blank
import Constituency.Tree.Basic

/-!
# Reading bracketed trees

A treebank text is a sequence of words and brackets. The word right behind an
opening bracket labels the node that the bracket stands for; an opening bracket
without one stands for a node without a name. The text is first cut into
lexemes, then each tree is put together from the nodes still open.
-/

namespace Constituency

/-- Why a text is not a tree, or not a list of trees. -/
inductive TreeError where
  /-- A tree should start where this text stands. -/
  | noTree (rest : String)
  /-- The text ends inside a bracket with this label. -/
  | unclosed (label : String)
  /-- The text goes on behind the tree. -/
  | trailing (rest : String)
  deriving DecidableEq, Repr

/-- The wording of a fault in a tree. -/
def TreeError.message : TreeError → String
  | .noTree rest => "word: couldn't match ^[^\\s()]+ at " ++ rest
  | .unclosed label => "unclosed bracket after " ++ if label.isEmpty then "(" else label
  | .trailing rest => "trailing input after tree: " ++ rest

/-- Why a text is not a list of trees: the first tree that is none. -/
structure TreesError where
  /-- The number of the tree, from one. -/
  number : Nat
  /-- What is wrong with it. -/
  cause : TreeError
  deriving DecidableEq, Repr

/-- The wording of a fault in a treebank. -/
def TreesError.message (e : TreesError) : String :=
  "tree " ++ toString e.number ++ ": " ++ e.cause.message

namespace Bracketed

/-- What a bracketed text is made of. -/
inductive Token where
  /-- An opening bracket with the word right behind it, if there is one. -/
  | opening (label : List Char)
  /-- A closing bracket. -/
  | closing
  /-- A word that is no label. -/
  | word (name : List Char)
  deriving DecidableEq, Repr

/-- A token and the text from its first character on. -/
structure Lexeme where
  /-- The token. -/
  token : Token
  /-- The text from there on. -/
  place : List Char

/-- Whether a character belongs to a word. -/
def isWordChar (c : Char) : Bool :=
  !Text.isBlank c && c != '(' && c != ')'

/-- Dropping characters leaves no longer text. -/
theorem length_dropWhile_le (p : Char → Bool) (cs : List Char) :
    (cs.dropWhile p).length ≤ cs.length := by
  induction cs with
  | nil => simp
  | cons c cs ih =>
    rw [List.dropWhile_cons]
    split
    · rw [List.length_cons]; omega
    · exact Nat.le_refl _

/-- Cuts a text into lexemes, passing over blanks. -/
def lexemes : List Char → List Lexeme
  | [] => []
  | c :: cs =>
    if c == '(' then
      let inside := Text.dropBlanks cs
      ⟨.opening (inside.takeWhile isWordChar), c :: cs⟩ :: lexemes (inside.dropWhile isWordChar)
    else if c == ')' then ⟨.closing, c :: cs⟩ :: lexemes cs
    else if Text.isBlank c then lexemes cs
    else
      ⟨.word (c :: cs.takeWhile isWordChar), c :: cs⟩ :: lexemes (cs.dropWhile isWordChar)
termination_by cs => cs.length
decreasing_by
  · exact Nat.lt_succ_of_le
      (Nat.le_trans (length_dropWhile_le isWordChar _) (length_dropWhile_le Text.isBlank cs))
  · exact Nat.lt_succ_self cs.length
  · exact Nat.lt_succ_self cs.length
  · exact Nat.lt_succ_of_le (length_dropWhile_le isWordChar cs)

/-- A node whose bracket is still open, with its children so far, the last one first. -/
structure Frame where
  /-- The label. -/
  label : List Char
  /-- The children read so far, the last one first. -/
  children : List (Tree Symbol)

/-- The symbol with the given characters. -/
def symbolOf (cs : List Char) : Symbol :=
  ⟨String.ofList cs⟩

/-- Adds a child to an open node. -/
def Frame.push (frame : Frame) (child : Tree Symbol) : Frame :=
  { frame with children := child :: frame.children }

/-- The node of a bracket that closes. -/
def Frame.close (frame : Frame) : Tree Symbol :=
  .node (symbolOf frame.label) frame.children.reverse

/-- Reads on until the outermost open node is closed, or one word if none is open. -/
def readTree : List Frame → List Lexeme → Except TreeError (Tree Symbol × List Lexeme)
  | [], [] => .error (.noTree "")
  | frame :: _, [] => .error (.unclosed (String.ofList frame.label))
  | frames, lexeme :: rest =>
    match lexeme.token, frames with
    | .opening label, frames => readTree (⟨label, []⟩ :: frames) rest
    | .word name, [] => .ok (.leaf (symbolOf name), rest)
    | .word name, frame :: outer => readTree (frame.push (.leaf (symbolOf name)) :: outer) rest
    | .closing, [] => .error (.noTree (String.ofList lexeme.place))
    | .closing, [frame] => .ok (frame.close, rest)
    | .closing, frame :: next :: outer => readTree (next.push frame.close :: outer) rest

/-- Reading a tree takes at least one lexeme. -/
theorem length_lt_of_readTree {frames : List Frame} {lexemes rest : List Lexeme}
    {t : Tree Symbol} (h : readTree frames lexemes = .ok (t, rest)) :
    rest.length < lexemes.length := by
  induction lexemes generalizing frames with
  | nil => cases frames <;> simp [readTree] at h
  | cons lexeme more ih =>
    unfold readTree at h
    simp only at h
    split at h
    · exact Nat.lt_succ_of_lt (ih h)
    · cases h; exact Nat.lt_succ_self _
    · exact Nat.lt_succ_of_lt (ih h)
    · cases h
    · cases h; exact Nat.lt_succ_self _
    · exact Nat.lt_succ_of_lt (ih h)

/-- Reads trees to the end of the text; they are numbered from the given number on. -/
def readTrees (number : Nat) (lexemes : List Lexeme) : Except TreesError (List (Tree Symbol)) :=
  if lexemes.isEmpty then .ok []
  else
    match h : readTree [] lexemes with
    | .error cause => .error ⟨number, cause⟩
    | .ok (t, rest) =>
      have := length_lt_of_readTree h
      (readTrees (number + 1) rest).map (t :: ·)
termination_by lexemes.length

end Bracketed

/-- Reads a text that holds one tree and nothing else. -/
def Tree.read (source : String) : Except TreeError (Tree Symbol) := do
  let (t, rest) ← Bracketed.readTree [] (Bracketed.lexemes source.toList)
  match rest with
  | [] => return t
  | lexeme :: _ => throw (.trailing (String.ofList (Text.trimChars lexeme.place)))

/-- Reads all trees of a treebank text. -/
def Tree.readAll (source : String) : Except TreesError (List (Tree Symbol)) :=
  Bracketed.readTrees 1 (Bracketed.lexemes source.toList)

end Constituency
