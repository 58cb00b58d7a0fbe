import Constituency.Text.Blank

/-!
# Files and their names

A file name is a path: parts between slashes, followed from the working
directory, or from the root if the path starts with a slash. The parts are
followed from the left, and the first that leads nowhere is the fault that is
reported. A whole path or a part may also be too long to be looked up.
-/

namespace Constituency

/-- Why a file cannot be read. -/
inductive FileError where
  /-- There is no such file. -/
  | missing
  /-- The file may not be read. -/
  | denied
  /-- A part of the name that should be a directory is none. -/
  | notDirectory
  /-- The name is that of a directory. -/
  | directory
  /-- The name or a part of it is longer than names may be. -/
  | nameTooLong
  /-- The bytes are not a text. -/
  | notText

namespace FileError

/-- The wording for bytes that are not a text. -/
def notTextMessage : String := "stream did not contain valid UTF-8"

/-- The wording of a fault in reading a file. -/
def message : FileError → String
  | .missing => "No such file or directory (os error 2)"
  | .denied => "Permission denied (os error 13)"
  | .notDirectory => "Not a directory (os error 20)"
  | .directory => "Is a directory (os error 21)"
  | .nameTooLong => "File name too long (os error 36)"
  | .notText => notTextMessage

end FileError

/-- The text that bytes encode. -/
def textOfBytes (bytes : ByteArray) : Except FileError String :=
  match String.fromUTF8? bytes with
  | some text => .ok text
  | none => .error .notText

/-- What a name in a directory stands for. -/
inductive FileEntry where
  /-- A file with its bytes. -/
  | file (bytes : ByteArray)
  /-- A directory with its names. -/
  | directory (entries : List (String × FileEntry))

namespace FileEntry

/-- The text of an entry, which only a file has. -/
def text : FileEntry → Except FileError String
  | .file bytes => textOfBytes bytes
  | .directory _ => .error .directory

/-- The most bytes that a part of a path may have. -/
def partLimit : Nat := 255

/-- Follows the parts of a path from an entry inside directories, the innermost first. -/
def follow (here : FileEntry) (outer : List FileEntry) : List String → Except FileError FileEntry
  | [] => .ok here
  | part :: rest =>
    match here with
    | .file _ => .error .notDirectory
    | .directory entries =>
      if part == "" || part == "." then follow here outer rest
      else if part == ".." then
        match outer with
        | [] => follow here [] rest
        | parent :: further => follow parent further rest
      else if partLimit < part.utf8ByteSize then .error .nameTooLong
      else
        match entries.lookup part with
        | none => .error .missing
        | some entry => follow entry (here :: outer) rest

end FileEntry

/-- A directory from which names are followed. -/
structure WorkingDirectory where
  /-- The directory. -/
  here : FileEntry
  /-- The directories around it, the innermost first. -/
  outer : List FileEntry := []

namespace WorkingDirectory

/-- The outermost directory. -/
def root (w : WorkingDirectory) : FileEntry :=
  w.outer.getLastD w.here

/-- The most bytes that a path may have. -/
def pathLimit : Nat := 4095

/-- The parts of a path, empty ones included. -/
def parts (path : String) : List String :=
  (Text.pieces (· == '/') path.toList).map String.ofList

/-- The entry to which a path leads. -/
def find (w : WorkingDirectory) (path : String) : Except FileError FileEntry :=
  if path == "" then .error .missing
  else if pathLimit < path.utf8ByteSize then .error .nameTooLong
  else if path.startsWith "/" then w.root.follow [] (parts path)
  else w.here.follow w.outer (parts path)

/-- The text of the file to which a path leads. -/
def readText (w : WorkingDirectory) (path : String) : Except FileError String := do
  (← w.find path).text

end WorkingDirectory

end Constituency
