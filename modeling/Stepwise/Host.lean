/-!
# The system around the program

What the command line needs from the system that it runs on, and the ways in which files fail. A file is opened before
it is read, and a directory can be opened for reading but not read.
-/

namespace Stepwise

/-- Why a file cannot be used. -/
inductive FileError where
  | notFound
  | permissionDenied
  | notADirectory
  | isADirectory
  | nameTooLong
  /-- A path cannot hold the character U+0000. -/
  | nulInPath
  | other (code : Nat) (description : String)
  deriving DecidableEq, Repr, Inhabited

namespace FileError

/-- The number, the class and the words that the system has for it; a path that no system takes has no number. -/
def parts : FileError → Option Nat × String × String
  | notFound => (some 2, "NotFound", "No such file or directory")
  | permissionDenied => (some 13, "PermissionDenied", "Permission denied")
  | notADirectory => (some 20, "NotADirectory", "Not a directory")
  | isADirectory => (some 21, "IsADirectory", "Is a directory")
  | nameTooLong => (some 36, "InvalidFilename", "File name too long")
  | nulInPath => (none, "InvalidInput", "file name contained an unexpected NUL byte")
  | other code description => (some code, "Uncategorized", description)

/-- For a file that cannot be opened: number, class and words. -/
def details (e : FileError) : String :=
  match e.parts with
  | (some code, kind, words) =>
    "Os \x7b code: " ++ toString code ++ ", kind: " ++ kind ++ ", message: \"" ++ words ++ "\" \x7d"
  | (none, kind, words) => "Error \x7b kind: " ++ kind ++ ", message: \"" ++ words ++ "\" \x7d"

/-- For a file that cannot be read: words and number. -/
def summary (e : FileError) : String :=
  match e.parts with
  | (some code, _, words) => words ++ " (os error " ++ toString code ++ ")"
  | (none, _, words) => words

end FileError

/-- Why the contents of a file cannot be had. -/
inductive ReadFailure where
  | opening (e : FileError)
  | reading (e : FileError)
  deriving DecidableEq, Repr, Inhabited

/-- A system with files, standard input and standard output. -/
class Host (m : Type → Type) where
  /-- The contents of a file. -/
  readFile (path : String) : m (Except ReadFailure ByteArray)
  /-- Makes a file empty, creating it if need be. -/
  emptyFile (path : String) : m (Except FileError Unit)
  /-- Fills a file that was emptied before. -/
  writeFile (path text : String) : m Unit
  /-- All of standard input. -/
  readStdin : m ByteArray
  /-- Writes to standard output. -/
  print (text : String) : m Unit

end Stepwise
