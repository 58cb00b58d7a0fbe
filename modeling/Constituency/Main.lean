import Constituency.CommandLine

/-!
# The program

Reads the two files of a grammar and answers the lines of the standard input.
What is written is decided by the command line module.
-/

namespace Constituency.CommandLine

/-- Reads the text of a file. -/
def readFile (name : String) : IO (Except FileError String) := do
  try
    return textOfBytes (← IO.FS.readBinFile name)
  catch
    | .permissionDenied .. => return .error .denied
    | .inappropriateType _ code _ =>
      return .error (if code == 21 then .directory else .notDirectory)
    | .invalidArgument .. => return .error .nameTooLong
    | _ => return .error .missing

/-- Writes what a run writes and ends with its code. -/
def Outcome.write (outcome : Outcome) : IO UInt32 := do
  IO.print outcome.out
  IO.eprint outcome.err
  return outcome.code.toUInt32

/-- Reads on to the next line feed, which is kept, or to the end of the input. -/
partial def readLine (input : IO.FS.Stream) (line : ByteArray) : IO ByteArray := do
  let next ← input.read 1
  let line := line ++ next
  if next.isEmpty || next.data == #[10] then return line
  readLine input line

/-- Answers lines until the input ends or a line is not a text. -/
partial def answerLines (options : Options) (loaded : Loaded) : IO UInt32 := do
  let output ← IO.getStdout
  output.putStr prompt
  output.flush
  let line ← readLine (← IO.getStdin) .empty
  if line.isEmpty then return 0
  match textOfBytes line with
  | .error _ => brokenInput.write
  | .ok text =>
    output.putStr (respond options loaded text)
    answerLines options loaded

end Constituency.CommandLine

open Constituency.CommandLine

/-- The program. -/
def main (args : List String) : IO UInt32 := do
  match request {} args with
  | .help => help.write
  | .invalid cause => (misuse cause).write
  | .parse rules lexicon options =>
    let rulesText ← readFile rules
    let lexiconText ← readFile lexicon
    match load options rules lexicon fun name =>
        if name == rules then rulesText else lexiconText with
    | .error message => (failure message).write
    | .ok loaded =>
      if options.showGrammar then IO.print loaded.text
      answerLines options loaded
