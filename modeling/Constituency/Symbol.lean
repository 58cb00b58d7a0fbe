/-!
# Grammar symbols

A symbol is a name, for a word or for a category. Treebanks tell the two apart
by spelling: punctuation marks and names with a lower-case letter are words,
except for the known category labels. Labels may carry function tags and
indices behind a hyphen or an equals sign.
-/

namespace Constituency

/-- A word or a category, known by its name. -/
structure Symbol where
  /-- The name; symbols with one name are one symbol. -/
  name : String
  deriving DecidableEq, Hashable, Repr, Inhabited

namespace Symbol

/-- Symbols are ordered by name, code point by code point. -/
instance : Ord Symbol := ⟨fun a b => compare a.name b.name⟩

/-- Stands for numbers in trees and rules. -/
def number : Symbol := ⟨"_num_"⟩

/-- Stands for words that were seen too rarely. -/
def rare : Symbol := ⟨"_rare_"⟩

/-- The symbol of sentences. -/
def sentence : Symbol := ⟨"S"⟩

/-- The name of the nth helper symbol. -/
def helper (n : Nat) : Symbol := ⟨"X" ++ String.ofList (Nat.toDigits 10 n)⟩

/-- The punctuation marks, which are words wherever they occur. -/
def punctuationMarks : List String :=
  [".", ",", "!", "?", ":", ";", "\"", "''", "'", "`", "``", "...", "-", "--", "(", ")", "[", "]",
    "\x7b", "\x7d", "…"]

/-- The phrase and tag labels that are categories whatever their spelling. -/
def categoryLabels : List String :=
  ["ADJP", "ADVP", "CC", "CD", "CONJP", "DT", "EX", "FRAG", "FW", "IN", "INTJ", "JJ", "JJR", "JJS",
    "LS", "LST", "MD", "NAC", "NN", "NNP", "NNPS", "NNS", "NP", "NX", "PDT", "POS", "PP", "PRN",
    "PRP", "PRP$", "PRT", "PRT|ADVP", "QP", "RB", "RBR", "RP", "RRC", "S", "SBAR", "SBARQ", "SINV",
    "SQ", "SYM", "TO", "UCP", "UH", "VB", "VBD", "VBG", "VBN", "VBP", "VBZ", "VP", "WDT", "WHADJP",
    "WHADVP", "WHNP", "WP", "WP$", "WRB", "X", "-LRB-", "-RRB-", "-NONE-"]

/-- Whether the symbol is a punctuation mark. -/
def isPunctuation (s : Symbol) : Bool :=
  punctuationMarks.contains s.name

/-- Whether the spelling marks a word: punctuation, the words I and A, and names with a lower-case
letter, unless the name is a category label. -/
def isWordlike (s : Symbol) : Bool :=
  s.isPunctuation ||
    (!categoryLabels.contains s.name &&
      (s.name == "I" || s.name == "A" || s.name.toList.any Char.isLower))

/-- The label without its function tags and indices; a label that starts with a hyphen has none. -/
def base (s : Symbol) : Symbol :=
  match s.name.toList with
  | '-' :: _ => s
  | cs => ⟨String.ofList (cs.takeWhile (fun c => c != '-' && c != '='))⟩

end Symbol

end Constituency
