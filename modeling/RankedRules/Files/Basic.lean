/-
Files.

All that is done with files is to read them and to ask whether they exist, so a file system is the
function that reads a name.

* `Files` — the function;
* `Files.has` — whether a name exists, be it a file or a directory;
* `Files.ofTree` — the files of a tree: contents under names, and the directories above them;
* `Files.ofSnapshot` — files that were read before.
-/
import RankedRules.Entries
import RankedRules.Failure
import RankedRules.Files.PathName

namespace RankedRules

/-- What reading a name gives. -/
structure Files where
  read : String → Except FileFault String

namespace Files

/-- Whether a name exists. -/
def has (files : Files) (name : String) : Bool :=
  match files.read name with
  | .ok _ => true
  | .error .missing | .error .notDirectory => false
  | .error .directory | .error (.other _) => true

/-- The parts of a name, those that stay in a directory left out. -/
def parts (name : String) : List String :=
  ((Text.splitOn '/' name.toList).map String.ofList).filter fun part => !part.isEmpty && part ≠ "."

/-- What is at a place of a tree: contents, or a directory if something is below it. -/
def lookUp (tree : List (List String × String)) (place : List String) :
    Except FileFault String :=
  match tree.lookup place with
  | some contents => .ok contents
  | none =>
    if place.isEmpty || tree.any fun entry => place.isPrefixOf entry.1 then .error .directory
    else .error .missing

/-- Goes from a directory along the parts of a name. Every part but the last must be a
directory. -/
def walk (tree : List (List String × String)) :
    List String → List String → Except FileFault String
  | place, [] => lookUp tree place
  | place, part :: rest =>
    match lookUp tree place with
    | .error .directory =>
      if part.isEmpty || part = "." then walk tree place rest
      else if part = ".." then
        if place.isEmpty then .error .missing else walk tree place.dropLast rest
      else walk tree (place ++ [part]) rest
    | .ok _ => .error .notDirectory
    | .error fault => .error fault

/-- The files of a tree. Nothing exists outside it. -/
def ofTree (entries : Entries String) : Files where
  read name :=
    if name.isEmpty then .error .missing
    else if PathName.isAbsolute name then
      if (parts name).isEmpty then .error .directory else .error .missing
    else
      walk (entries.map fun entry => (parts entry.1, entry.2)) []
        ((Text.splitOn '/' name.toList).map String.ofList)

/-- Files that were read before; all others are missing. -/
def ofSnapshot (taken : List (String × Except FileFault String)) : Files where
  read name := (taken.lookup name).getD (.error .missing)

end Files

end RankedRules
