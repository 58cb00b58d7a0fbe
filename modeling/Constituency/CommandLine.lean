import Constituency.Directory
import Constituency.Grammar.Treebank
import Constituency.NormalForm.Conversion
import Constituency.Parser

/-!
# The command line

The program reads a grammar from a rule file and a lexicon, brings it into
normal form and parses the sentences it is given, one on each line. This module
decides what is written for which arguments, files and lines; reading and
writing are left to the caller.
-/

namespace Constituency.CommandLine

/-- The name under which the program shows itself. -/
def programName : String := "cli"

/-- How the program is called. -/
def usage : String :=
  "Usage: " ++ programName ++ " RULES LEXICON [options]\n" ++
  "\n" ++
  "Reads one whitespace-tokenized sentence per line from stdin and prints its parse trees.\n" ++
  "\n" ++
  "Options:\n" ++
  "  -h, --help              Print this message\n" ++
  "  -p, --probabilistic     Rules carry [probability] suffixes; print only the best trees\n" ++
  "  -m, --min-count N       Words seen fewer than N times are parsed as _rare_ (default 1)\n" ++
  "  -c, --chart             Print the parse chart (defaults to not printing)\n" ++
  "  -g, --grammar           Print the grammar after conversion to Chomsky normal form"

/-- What the arguments ask for. -/
structure Options where
  /-- The files named so far. -/
  files : List String := []
  /-- Whether rules carry probabilities. -/
  probabilistic : Bool := false
  /-- Words seen fewer times are rare. -/
  rareBelow : Nat := 1
  /-- Whether charts are shown. -/
  showChart : Bool := false
  /-- Whether the grammar is shown. -/
  showGrammar : Bool := false

/-- What is wrong with the arguments. -/
inductive ArgumentError where
  /-- The threshold is not a count. -/
  | badThreshold
  /-- No option has the name. -/
  | unknownOption (name : String)
  /-- Fewer than two files are named. -/
  | missingFile
  /-- More than two files are named. -/
  | tooManyFiles

/-- The wording of a fault in the arguments. -/
def ArgumentError.message : ArgumentError → String
  | .badThreshold => "--min-count needs a number"
  | .unknownOption name => "unknown option " ++ name
  | .missingFile => "missing filename"
  | .tooManyFiles => "invalid arguments"

/-- What the program is asked to do. -/
inductive Request where
  /-- To show how it is called. -/
  | help
  /-- To parse sentences with the grammar in two files. -/
  | parse (rules lexicon : String) (options : Options)
  /-- Nothing that it knows. -/
  | invalid (cause : ArgumentError)

/-- Reads arguments from the left; the first fault or call for help decides. -/
def request (options : Options) : List String → Request
  | [] =>
    match options.files with
    | [rules, lexicon] => .parse rules lexicon options
    | _ :: _ :: _ => .invalid .tooManyFiles
    | _ => .invalid .missingFile
  | arg :: rest =>
    if arg == "-h" || arg == "--help" then .help
    else if arg == "-p" || arg == "--probabilistic" then
      request { options with probabilistic := true } rest
    else if arg == "-c" || arg == "--chart" then request { options with showChart := true } rest
    else if arg == "-g" || arg == "--grammar" then request { options with showGrammar := true } rest
    else if arg == "-m" || arg == "--min-count" then
      match rest with
      | [] => .invalid .badThreshold
      | value :: rest =>
        match Text.readCount value with
        | .ok rareBelow => request { options with rareBelow } rest
        | .error _ => .invalid .badThreshold
    else if arg.startsWith "-" then .invalid (.unknownOption arg)
    else request { options with files := options.files ++ [arg] } rest

/-- A grammar in normal form. -/
inductive Loaded where
  /-- Without probabilities. -/
  | plain (g : Grammar Unit)
  /-- With probabilities. -/
  | probabilistic (g : Grammar (Probability Float))

/-- Reads a grammar and brings it into normal form. -/
def normalFormOf {W : Type} [Weight W] [WeightText W] (rules lexicon : String) (rareBelow : Nat) :
    Except String (Grammar W) := do
  let g ← (Grammar.ofText rules lexicon rareBelow).mapError GrammarError.message
  g.normalForm.mapError Fault.message

/-- Loads the grammar of a request; the file of the rules comes first. -/
def load (options : Options) (rulesName lexiconName : String)
    (contents : String → Except FileError String) : Except String Loaded := do
  let fileText (name : String) : Except String String :=
    (contents name).mapError (fun cause => name ++ ": " ++ cause.message)
  let rules ← fileText rulesName
  let lexicon ← fileText lexiconName
  if options.probabilistic then .probabilistic <$> normalFormOf rules lexicon options.rareBelow
  else .plain <$> normalFormOf rules lexicon options.rareBelow

/-- The text of the grammar. -/
def Loaded.text : Loaded → String
  | .plain g => g.text
  | .probabilistic g => g.text

/-- The text of a chart under its heading. -/
def chartText {S : Type} (c : Chart (Candidate S)) : String :=
  "chart:\n" ++ c.text (·.symbol.name) ++ "\n"

/-- The number of trees, then each tree with its score, if it has one. -/
def treesText (trees : List (NodeTable × Option Float)) : String :=
  "Parsed " ++ toString trees.length ++ " tree" ++ (if trees.length = 1 then "" else "s") ++ "\n" ++
    String.join (trees.map fun (t, score) =>
      t.toTree.text ++ "\n" ++
        (match score with
          | some p => "log p = " ++ Decimal.numeral p ++ "\n"
          | none => "") ++
        "\n")

/-- What is written for a line; nothing for a blank one. -/
def respond (options : Options) (loaded : Loaded) (line : String) : String :=
  let words := Text.words line
  if words.isEmpty then ""
  else
    match loaded with
    | .plain g =>
      (if options.showChart then chartText (g.chart words) else "") ++
        treesText ((g.parse .sentence words).map fun t => (t, none))
    | .probabilistic g =>
      (if options.showChart then chartText (g.bestChart words) else "") ++
        treesText ((g.parseBest .sentence words).map fun (t, p) => (t, some p))

/-- What stands before each line that is read. -/
def prompt : String := "> "

/-- What a run writes, and the code it ends with. -/
structure Outcome where
  /-- The exit code. -/
  code : Nat := 0
  /-- The standard output. -/
  out : String := ""
  /-- The standard error output. -/
  err : String := ""

/-- The end of a run that cannot load its grammar. -/
def failure (message : String) : Outcome :=
  { code := 1, err := "Error: " ++ Text.quoted message ++ "\n" }

/-- The end of a run that was asked how the program is called. -/
def help : Outcome :=
  { out := usage ++ "\n" }

/-- The end of a run that was called wrongly. -/
def misuse (cause : ArgumentError) : Outcome :=
  { code := 255, err := "argument error: " ++ cause.message ++ ".\n\n" ++ usage ++ "\n" }

/-- The end of a run whose next line is not a text. -/
def brokenInput : Outcome :=
  { code := 1
    err := "Error: Error \x7b kind: InvalidData, message: " ++
      Text.quoted FileError.notTextMessage ++ " \x7d\n" }

/-- The lines of an input, each with its line feed. -/
def inputLines : List UInt8 → List (List UInt8)
  | [] => []
  | b :: rest =>
    if b == 10 then [b] :: inputLines rest
    else
      match inputLines rest with
      | [] => [[b]]
      | line :: lines => (b :: line) :: lines

/-- Answers lines until the input ends or a line is not a text. -/
def converse (options : Options) (loaded : Loaded) : List (List UInt8) → Outcome
  | [] => { out := prompt }
  | line :: rest =>
    match textOfBytes ⟨line.toArray⟩ with
    | .ok text =>
      let later := converse options loaded rest
      { later with out := prompt ++ respond options loaded text ++ later.out }
    | .error _ => { brokenInput with out := prompt }

/-- The whole run of the program on given arguments, files and input. -/
def run (args : List String) (contents : String → Except FileError String) (input : ByteArray) :
    Outcome :=
  match request {} args with
  | .help => help
  | .invalid cause => misuse cause
  | .parse rules lexicon options =>
    match load options rules lexicon contents with
    | .error message => failure message
    | .ok loaded =>
      let session := converse options loaded (inputLines input.toList)
      { session with out := (if options.showGrammar then loaded.text else "") ++ session.out }

end Constituency.CommandLine
