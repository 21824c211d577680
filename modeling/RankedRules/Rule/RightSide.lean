/-
The right side of an assignment.

Quoted strings, numbers, property lists, truth values and null are literals; anything else is the
key path of the value that is meant. A quoted string is taken as it stands between its quotes, and
a closing quote that is missing is not missed.

* `RightSide` — a literal or a key path;
* `RightSide.parse` — what a text is;
* `RightSide.checkedPath` — a text as a key path without an empty segment.
-/
import RankedRules.ParseError

namespace RankedRules

/-- What stands on the right side of an assignment. -/
inductive RightSide
  | literal (value : Value)
  | path (path : String)

namespace RightSide

/-- A text as a key path, which may have no empty segment. -/
def checkedPath (text : String) : Except ParseError String :=
  if (KeyPath.segments? text).isSome then .ok text else .error (.invalidKeyPath text)

/-- A string without the quote that closes it. -/
def unquote (quote : Char) (inner : List Char) : List Char :=
  if inner.getLast? = some quote then inner.dropLast else inner

/-- What a bare word means. -/
def word (text : String) : Except ParseError RightSide :=
  match text with
  | "true" | "YES" => .ok (.literal (.bool true))
  | "false" | "NO" => .ok (.literal (.bool false))
  | "null" | "nil" => .ok (.literal .null)
  | _ => (checkedPath text).map .path

/-- The number that a text must be. -/
def number (cs : List Char) : Except ParseError RightSide :=
  match Number.ofChars? cs with
  | some n => .ok (.literal (.number n))
  | none => .error (.invalidNumber (String.ofList cs))

/-- The property list that a text must be. -/
def propertyList (cs : List Char) : Except ParseError RightSide :=
  match PropertyList.parse cs with
  | .ok value => .ok (.literal value)
  | .error fault => .error (.propertyList (fault.offset cs) fault.cause)

/-- What the text on the right side of an assignment is. No text is the empty string. -/
def parse (text : List Char) : Except ParseError RightSide :=
  match Text.trim text with
  | [] => .ok (.literal (.string ""))
  | c :: rest =>
    if c = '"' ∨ c = '\'' then .ok (.literal (.string (String.ofList (unquote c rest))))
    else if c.isDigit ∨ c = '-' then number (c :: rest)
    else if c = '\x7b' ∨ c = '(' then propertyList (c :: rest)
    else word (String.ofList (c :: rest))

end RightSide

end RankedRules
