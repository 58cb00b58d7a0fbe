/-!
# Blanks, words and lines

Blank characters are those with the White_Space property. Texts are cut into
the words between blanks and into the lines between line feeds.
-/

namespace Constituency.Text

/-- The White_Space property. -/
def isBlank (c : Char) : Bool :=
  let n := c.toNat
  (9 ≤ n && n ≤ 13) || n == 0x20 || n == 0x85 || n == 0xa0 || n == 0x1680 ||
    (0x2000 ≤ n && n ≤ 0x200a) || n == 0x2028 || n == 0x2029 || n == 0x202f ||
    n == 0x205f || n == 0x3000

/-- The characters from the first that is not blank on. -/
def dropBlanks (cs : List Char) : List Char :=
  cs.dropWhile isBlank

/-- The characters between the outer blanks. -/
def trimChars (cs : List Char) : List Char :=
  (dropBlanks (dropBlanks cs).reverse).reverse

/-- The text between the outer blanks. -/
def trim (s : String) : String :=
  String.ofList (trimChars s.toList)

/-- Cuts at every character that separates; the pieces may be empty. -/
def pieces (separates : Char → Bool) : List Char → List (List Char)
  | [] => [[]]
  | c :: cs =>
    if separates c then [] :: pieces separates cs
    else
      match pieces separates cs with
      | [] => [[c]]
      | piece :: rest => (c :: piece) :: rest

/-- The maximal runs of characters that are not blank. -/
def wordsOf (cs : List Char) : List String :=
  ((pieces isBlank cs).filter (!·.isEmpty)).map String.ofList

/-- The words of a text. -/
def words (s : String) : List String :=
  wordsOf s.toList

/-- The lines that hold a word, trimmed and numbered from one. -/
def filledLines (s : String) : List (Nat × String) :=
  (((pieces (· == '\n') s.toList).zipIdx 1).map
      (fun line => (line.2, String.ofList (trimChars line.1)))).filter (!·.2.isEmpty)

end Constituency.Text
