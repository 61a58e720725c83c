import Stepwise.CommandLine

/-!
# The program

The command line on the real system.
-/

namespace Stepwise

/-- The error with a number that the system gives. -/
def FileError.ofCode (code : UInt32) (description : String) : FileError :=
  match code.toNat with
  | 2 => .notFound
  | 13 => .permissionDenied
  | 20 => .notADirectory
  | 21 => .isADirectory
  | 36 => .nameTooLong
  | n => .other n description

def FileError.ofError : IO.Error → FileError
  | .noFileOrDirectory _ code description => ofCode code description
  | .permissionDenied _ code description => ofCode code description
  | .inappropriateType _ code description => ofCode code description
  | .invalidArgument _ code description => ofCode code description
  | .resourceExhausted _ code description => ofCode code description
  | .noSuchThing _ code description => ofCode code description
  | .alreadyExists _ code description => ofCode code description
  | .otherError code description => ofCode code description
  | e => .other 0 (toString e)

/-- Opens a file; a path with a character that no path has is refused before the system sees it. -/
def openFile (path : String) (mode : IO.FS.Mode) : IO (Except FileError IO.FS.Handle) :=
  if path.toList.contains '\x00' then pure (.error .nulInPath)
  else
    try return .ok (← IO.FS.Handle.mk path mode)
    catch e => return .error (FileError.ofError e)

instance : Host IO where
  readFile path := do
    match ← openFile path .read with
    | .error e => return .error (.opening e)
    | .ok file =>
      try return .ok (← file.readBinToEnd)
      catch e => return .error (.reading (FileError.ofError e))
  emptyFile path := do
    match ← openFile path .write with
    | .error e => return .error e
    | .ok _ => return .ok ()
  writeFile path text := IO.FS.writeFile path text
  readStdin := do (← IO.getStdin).readBinToEnd
  print text := do
    let out ← IO.getStdout
    out.putStr text
    out.flush

end Stepwise

open Stepwise in
def main (args : List String) : IO UInt32 := do
  let (code, message) := CommandLine.report (← (CommandLine.run args : ExceptT CommandLine.Error IO Unit).run)
  (← IO.getStderr).putStr message
  return code
