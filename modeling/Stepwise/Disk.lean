import Stepwise.Host
import Stepwise.Text.Split

/-!
# Files as data

A disk is a map from places to contents, where a place is the list of names on the way from the root. The directories
are those on the way to a file or to the working directory. `Disk.walk` follows a path; `Disk.read`, `Disk.empty` and
`Disk.put` use files, and a `World`, a disk with standard input and output, is a host.
-/

namespace Stepwise

/-- The names on the way from the root. -/
abbrev Place := List String

structure Disk where
  workingDirectory : Place
  files : List (Place × ByteArray)

/-- What a path leads to. -/
inductive Found where
  | directory (place : Place)
  | file (place : Place) (contents : ByteArray)
  /-- Nothing, but in a directory that exists. -/
  | absent (place : Place)

/-- A path, taken apart. -/
structure Path where
  /-- Whether it starts at the root. -/
  isAbsolute : Bool
  names : List String
  /-- Whether it ends in a slash, and so has to lead to a directory. -/
  endsInSlash : Bool
  deriving DecidableEq, Repr, Inhabited

namespace Path

/-- The longest name, in bytes. -/
def maxName : Nat := 255

/-- The longest path, in bytes. -/
def maxLength : Nat := 4095

/-- Takes a path apart at its slashes. -/
def ofString (path : String) : Except FileError Path :=
  let cs := path.toList
  if cs.contains '\x00' then .error .nulInPath
  else if cs = [] then .error .notFound
  else if maxLength < path.utf8ByteSize then .error .nameTooLong
  else
    .ok {
      isAbsolute := cs.head? = some '/'
      names := ((Text.splitWhere (· = '/') cs).filter (· ≠ [])).map String.ofList
      endsInSlash := cs.getLast? = some '/' }

end Path

namespace Disk

def contents? (d : Disk) (place : Place) : Option ByteArray := d.files.lookup place

def isDirectory (d : Disk) (place : Place) : Bool :=
  place.isPrefixOf d.workingDirectory || d.files.any fun f => place.isPrefixOf f.1.dropLast

/-- Follows names from a directory. -/
def walk (d : Disk) (directory : Place) : List String → Except FileError Found
  | [] => .ok (.directory directory)
  | name :: rest =>
    if name = "." then d.walk directory rest
    else if name = ".." then d.walk directory.dropLast rest
    else if Path.maxName < name.utf8ByteSize then .error .nameTooLong
    else
      let place := directory ++ [name]
      if d.isDirectory place then d.walk place rest
      else
        match d.contents? place with
        | some contents => if rest = [] then .ok (.file place contents) else .error .notADirectory
        | none => if rest = [] then .ok (.absent place) else .error .notFound

/-- Where a path starts. -/
def origin (d : Disk) (path : Path) : Place := if path.isAbsolute then [] else d.workingDirectory

/-- The contents of the file that a path leads to. -/
def read (d : Disk) (path : String) : Except ReadFailure ByteArray :=
  match Path.ofString path with
  | .error e => .error (.opening e)
  | .ok p =>
    match d.walk (d.origin p) p.names with
    | .error e => .error (.opening e)
    | .ok (.directory _) => .error (.reading .isADirectory)
    | .ok (.absent _) => .error (.opening .notFound)
    | .ok (.file _ contents) => if p.endsInSlash then .error (.opening .notADirectory) else .ok contents

/-- The place of the file that a path leads to, or where that file can be created. -/
def locate (d : Disk) (path : String) : Except FileError Place :=
  match Path.ofString path with
  | .error e => .error e
  | .ok p =>
    if p.endsInSlash then
      match d.walk (d.origin p) p.names.dropLast with
      | .error e => .error e
      | .ok (.directory _) => .error .isADirectory
      | .ok (.file _ _) => .error .notADirectory
      | .ok (.absent _) => .error .notFound
    else
      match d.walk (d.origin p) p.names with
      | .error e => .error e
      | .ok (.directory _) => .error .isADirectory
      | .ok (.file place _) => .ok place
      | .ok (.absent place) => .ok place

/-- Replaces the contents of a file. -/
def put (d : Disk) (place : Place) (contents : ByteArray) : Disk :=
  { d with files := (place, contents) :: d.files.filter (·.1 ≠ place) }

/-- Makes a file empty, creating it if need be. -/
def empty (d : Disk) (path : String) : Except FileError Disk :=
  (d.locate path).map fun place => d.put place ByteArray.empty

theorem contents?_put_self (d : Disk) (place : Place) (contents : ByteArray) :
    (d.put place contents).contents? place = some contents := by
  simp [put, contents?]

theorem contents?_put_of_ne (d : Disk) {place other : Place} (contents : ByteArray) (h : other ≠ place) :
    (d.put place contents).contents? other = d.contents? other := by
  have hfilter : ∀ files : List (Place × ByteArray),
      (files.filter (·.1 ≠ place)).lookup other = files.lookup other := by
    intro files
    induction files with
    | nil => rfl
    | cons f files ih =>
      obtain ⟨p, c⟩ := f
      by_cases hp : p = place
      · subst hp
        rw [List.filter_cons_of_neg (by simp), ih, List.lookup_cons, beq_eq_false_iff_ne.mpr h]
      · rw [List.filter_cons_of_pos (by simpa using hp), List.lookup_cons, List.lookup_cons, ih]
  simp only [put, contents?, List.lookup_cons, beq_eq_false_iff_ne.mpr h]
  exact hfilter d.files

end Disk

/-- A disk with standard input and what was written to standard output. -/
structure World where
  disk : Disk
  stdin : ByteArray := ByteArray.empty
  stdout : String := ""

instance : Host (StateM World) where
  readFile path := fun w => (w.disk.read path, w)
  emptyFile path := fun w =>
    match w.disk.empty path with
    | .ok disk => (.ok (), { w with disk })
    | .error e => (.error e, w)
  writeFile path text := fun w =>
    match w.disk.locate path with
    | .ok place => ((), { w with disk := w.disk.put place text.toUTF8 })
    | .error _ => ((), w)
  readStdin := fun w => (w.stdin, w)
  print text := fun w => ((), { w with stdout := w.stdout ++ text })

end Stepwise
