import Constituency.Text.Blank
import Constituency.Text.DecimalDigit
import Constituency.Text.Numeral
import Constituency.Text.Quoted
import Std.Data.TreeMap

/-!
# Lexicons

A lexicon tells how often each word was seen. Its text has one line for each
word, with the word and its count. Numbers are words of their own kind, known
by their spelling.
-/

namespace Constituency

/-- How often each word was seen; a word that is not listed was never seen. -/
structure Lexicon where
  /-- The counts of the listed words. -/
  counts : Std.TreeMap String Nat := ∅

namespace Lexicon

/-- How often a word was seen. -/
def count (lexicon : Lexicon) (word : String) : Nat :=
  lexicon.counts.getD word 0

/-- Counts a word so many times more. -/
def add (lexicon : Lexicon) (word : String) (n : Nat) : Lexicon :=
  ⟨lexicon.counts.insert word (lexicon.count word + n)⟩

/-- The listed words with their counts, in the order of the words. -/
def toList (lexicon : Lexicon) : List (String × Nat) :=
  lexicon.counts.toList

end Lexicon

/-- Whether a word is taken for an integer or a decimal: digits with at most one point, after a plus
sign if one wishes. A point alone is none, but passes behind the sign. -/
def isNumeral (word : String) : Bool :=
  let body :=
    match word.toList with
    | '+' :: rest => rest
    | all => all
  let whole := body.takeWhile Text.isDecimalDigit
  word != "." &&
    match body.dropWhile Text.isDecimalDigit with
    | [] => !whole.isEmpty
    | '.' :: fraction => fraction.all Text.isDecimalDigit
    | _ => false

/-- What is wrong with a line of a lexicon. -/
inductive LexiconCause where
  /-- The second word is not a count. -/
  | badCount (text : String) (cause : Text.NumeralError)
  /-- The line is not two words. -/
  | notAPair (line : String)
  deriving DecidableEq, Repr

/-- Why a text is not a lexicon: the first line that is wrong. -/
structure LexiconError where
  /-- The number of the line. -/
  line : Nat
  /-- What is wrong with it. -/
  cause : LexiconCause
  deriving DecidableEq, Repr

/-- The wording of a fault in a lexicon. -/
def LexiconError.message (e : LexiconError) : String :=
  "lexicon line " ++ toString e.line ++ ": " ++
    match e.cause with
    | .badCount text cause => "bad count " ++ Text.quoted text ++ ": " ++ cause.message
    | .notAPair line => "expected `word count`, got " ++ Text.quoted line

/-- Reads a word and its count from each line that is not blank. -/
def Lexicon.readEntries (source : String) : Except LexiconError (List (String × Nat)) :=
  (Text.filledLines source).mapM fun (number, line) =>
    match Text.words line with
    | [word, text] =>
      match Text.readCount text with
      | .ok n => .ok (word, n)
      | .error cause => .error ⟨number, .badCount text cause⟩
    | _ => .error ⟨number, .notAPair line⟩

end Constituency
