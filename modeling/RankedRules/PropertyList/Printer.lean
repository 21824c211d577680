/-
Property lists: how a value is written.

A list stands in parentheses and an object in braces, with a semicolon after every member. Every
string is quoted, truth values are the words `YES` and `NO`, and null is the empty string.

* `PropertyList.quote` — a string with its quotes and escapes;
* `PropertyList.text` — the property list of a value.
-/
import RankedRules.Text.Pieces
import RankedRules.Value.Basic

namespace RankedRules.PropertyList

/-- A character inside quotes. -/
def quoteChar (c : Char) : List Char :=
  if c = '"' then ['\\', '"']
  else if c = '\\' then ['\\', '\\']
  else if c = '\n' then ['\\', 'n']
  else if c = '\t' then ['\\', 't']
  else [c]

/-- A string in double quotes. -/
def quote (text : String) : String :=
  "\"" ++ String.ofList (text.toList.flatMap quoteChar) ++ "\""

mutual

/-- The property list of a value. -/
def text : Value → String
  | .null => "\"\""
  | .bool holds => if holds then "YES" else "NO"
  | .number n => n.text
  | .string s => quote s
  | .array items => "( " ++ Text.join ", " (itemTexts items) ++ " )"
  | .object members => "\x7b " ++ memberTexts members ++ "\x7d"

/-- The property lists of the items of a list. -/
def itemTexts : List Value → List String
  | [] => []
  | item :: rest => text item :: itemTexts rest

/-- The members of an object, each with the semicolon and the blank that end it. -/
def memberTexts : List (String × Value) → String
  | [] => ""
  | (name, value) :: rest => quote name ++ " = " ++ text value ++ "; " ++ memberTexts rest

end

end RankedRules.PropertyList
