/-
Names of files.

A name is a sequence of parts with slashes between them. Names are taken as they are written:
joining and splitting them changes nothing inside them.

* `PathName.join` — a name seen from a directory;
* `PathName.parent?` — the directory of a name;
* `PathName.fileName?`, `PathName.extension?` — the last part of a name, and its extension.
-/
import RankedRules.Text.Pieces

namespace RankedRules.PathName

/-- A name that starts at the root. -/
def isAbsolute (name : String) : Bool :=
  name.toList.head? = some '/'

/-- A name seen from a directory; an absolute name stays as it is. -/
def join (directory name : String) : String :=
  if isAbsolute name || directory.isEmpty then name
  else if directory.toList.getLast? = some '/' then directory ++ name
  else directory ++ "/" ++ name

/-- The parts of a name behind the root, last part first. -/
def reversedParts (name : String) : List String :=
  let parts := (Text.splitOn '/' name.toList).map String.ofList
  (if isAbsolute name then parts.drop 1 else parts).reverse

/-- The reversed parts without the empty ones and the points at the end of the name. A point that
begins a relative name stays. -/
def dropIdle (absolute : Bool) : List String → List String
  | [] => []
  | part :: rest =>
    if part.isEmpty || (part = "." && (absolute || !rest.isEmpty)) then dropIdle absolute rest
    else part :: rest

/-- The directory of a name. The root and the empty name have none. -/
def parent? (name : String) : Option String :=
  let absolute := isAbsolute name
  match dropIdle absolute (reversedParts name) with
  | [] => none
  | _ :: front =>
    let directory := Text.join "/" (dropIdle absolute front).reverse
    some (if absolute then "/" ++ directory else directory)

/-- The last part of a name, unless it leads upwards. -/
def fileName? (name : String) : Option String :=
  match dropIdle (isAbsolute name) (reversedParts name) with
  | [] => none
  | part :: _ => if part = ".." || part = "." then none else some part

/-- What follows the last point of the last part, unless that is its first character. -/
def extension? (name : String) : Option String := do
  let part ← fileName? name
  let reversed := part.toList.reverse
  match reversed.dropWhile (· ≠ '.') with
  | _ :: _ :: _ => some (String.ofList (reversed.takeWhile (· ≠ '.')).reverse)
  | _ => none

/-- Whether a name has a certain extension, in any case. -/
def hasExtension (wanted name : String) : Bool :=
  (extension? name).any fun found => found.toList.map Char.toLower = wanted.toList

end RankedRules.PathName
