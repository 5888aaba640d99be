import Rover.Text.Quoted

/-!
# Directories

The files that a command can see and make: a finite map from places to texts and folders. A place is given by its parts, from
the working folder or from the root. A folder exists if it is listed or if something in it is; the working folder and the
folders above it exist, and so does the root.
-/

namespace Rover

inductive Entry where
  | file (text : String)
  | folder
  deriving DecidableEq, Repr

/-- Entries by their places. -/
structure Directory where
  entries : List (List String × Entry)

inductive FileProblem where
  | missing
  | notFolder
  | isFolder
  | nameTooLong
  | nulInPath
  deriving DecidableEq, Repr

/-- A problem with the file of a path, as it was given. -/
structure FileError where
  problem : FileProblem
  path : String
  deriving DecidableEq, Repr

def FileError.message (e : FileError) : String :=
  match e.problem with
  | .missing => "[Errno 2] No such file or directory: " ++ quoted e.path
  | .notFolder => "[Errno 20] Not a directory: " ++ quoted e.path
  | .isFolder => "[Errno 21] Is a directory: " ++ quoted e.path
  | .nameTooLong => "[Errno 36] File name too long: " ++ quoted e.path
  | .nulInPath => "embedded null byte"

namespace Directory

/-- The part that stands for the root. -/
def root : String := "/"

/-- The part that leads up. -/
def up : String := ".."

/-- The most bytes that a part may have. -/
def maxPart : Nat := 255

/-- The most bytes that a path may have. -/
def maxPath : Nat := 4095

/-- The parts of a path between slashes, after the root if the path starts there. -/
def pathParts (path : String) : List String :=
  let parts := (path.splitOn "/").filter (· ≠ "")
  if path.startsWith "/" then root :: parts else parts

/-- The path of some parts. -/
def pathText (parts : List String) : String :=
  if parts.head? = some root then "/" ++ "/".intercalate parts.tail
  else if parts.isEmpty then "." else "/".intercalate parts

/-- A path without what does not matter in it. Exactly two slashes at the start are kept. -/
def normalPath (path : String) : String :=
  (if path.startsWith "//" ∧ ¬path.startsWith "///" then "/" else "") ++ pathText ((pathParts path).filter (· ≠ "."))

/-- The folder above a place. Above the root is the root. -/
def parent (place : List String) : List String :=
  match place.getLast? with
  | none => [up]
  | some last => if last = up then place ++ [up] else if last = root then place else place.dropLast

/-- Where a part leads from a place. -/
def follow (place : List String) (part : String) : List String :=
  if part = "." then place else if part = up then parent place else place ++ [part]

/-- The places that parts lead through, the last one included. -/
def visits (place : List String) : List String → List (List String)
  | [] => [place]
  | part :: rest => place :: visits (follow place part) rest

/-- What stands at a place: an entry, or a folder that something is in. -/
def entry? (d : Directory) (place : List String) : Option Entry :=
  if place.all (· = up) ∨ place = [root] then some .folder
  else match d.entries.lookup place with
    | some e => some e
    | none => if d.entries.any fun (p, _) => place.isPrefixOf p then some .folder else none

/-- Follows parts from a place, through folders only. -/
def resolve (d : Directory) (place : List String) : List String → Except FileProblem (List String)
  | [] => .ok place
  | part :: rest =>
    match d.entry? place with
    | none => .error .missing
    | some (.file _) => .error .notFolder
    | some .folder => if part.utf8ByteSize ≤ maxPart then d.resolve (follow place part) rest else .error .nameTooLong

/-- The place that the parts of a path lead to. -/
def locate (d : Directory) (path : String) (parts : List String) : Except FileProblem (List String) :=
  if path.contains '\x00' then .error .nulInPath
  else if maxPath < path.utf8ByteSize then .error .nameTooLong
  else if path.isEmpty then .error .missing
  else d.resolve [] parts

/-- The parts of a path to write to. What stands before a last slash is not looked up: only a folder can be there, so the
path leads no further than to where it would be. -/
def targetParts (path : String) : List String :=
  if path.endsWith "/" then (pathParts path).dropLast ++ ["."] else pathParts path

/-- The text of the file at a path. -/
def read (d : Directory) (path : String) : Except FileError String :=
  match d.locate path (pathParts path) with
  | .error problem => .error ⟨problem, path⟩
  | .ok place => match d.entry? place with
    | some (.file text) => if path.endsWith "/" then .error ⟨.notFolder, path⟩ else .ok text
    | some .folder => .error ⟨.isFolder, path⟩
    | none => .error ⟨.missing, path⟩

/-- Makes or overwrites the file at a path. -/
def write (d : Directory) (path text : String) : Except FileError Directory :=
  match d.locate path (targetParts path) with
  | .error problem => .error ⟨problem, path⟩
  | .ok place => match d.entry? place with
    | some .folder => .error ⟨.isFolder, path⟩
    | _ => .ok ⟨d.entries.filter (·.1 ≠ place) ++ [(place, .file text)]⟩

end Directory

end Rover
