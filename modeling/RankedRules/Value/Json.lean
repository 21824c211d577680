/-
Values as compact JSON text.

Nothing stands between the tokens, members are in the order of their names, and only what JSON
does not allow in a string is escaped.

* `Value.jsonString` — a string with its quotes and escapes;
* `Value.json` — the text of a value.
-/
import RankedRules.Text.Pieces
import RankedRules.Value.Basic

namespace RankedRules.Value

/-- A character inside a JSON string: quotes, backslashes and control characters are escaped. -/
def jsonChar (c : Char) : String :=
  if c = '"' then "\\\""
  else if c = '\\' then "\\\\"
  else if c = '\x08' then "\\b"
  else if c = '\t' then "\\t"
  else if c = '\n' then "\\n"
  else if c = '\x0c' then "\\f"
  else if c = '\r' then "\\r"
  else if c.toNat < 0x20 then
    "\\u00" ++ String.ofList [Nat.digitChar (c.toNat / 16), Nat.digitChar (c.toNat % 16)]
  else String.singleton c

/-- A JSON string with its quotes. -/
def jsonString (text : String) : String :=
  "\"" ++ String.join (text.toList.map jsonChar) ++ "\""

mutual

/-- The compact JSON text of a value. -/
def json : Value → String
  | .null => "null"
  | .bool holds => if holds then "true" else "false"
  | .number n => n.text
  | .string text => jsonString text
  | .array items => "[" ++ Text.join "," (jsonItems items) ++ "]"
  | .object members => "\x7b" ++ Text.join "," (jsonMembers members) ++ "\x7d"

/-- The texts of the items of a list. -/
def jsonItems : List Value → List String
  | [] => []
  | item :: rest => json item :: jsonItems rest

/-- The texts of the members of an object, each behind its name. -/
def jsonMembers : List (String × Value) → List String
  | [] => []
  | (name, value) :: rest => (jsonString name ++ ":" ++ json value) :: jsonMembers rest

end

end RankedRules.Value
