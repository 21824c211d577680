/-
Tables that stand for dates and times.

A date or time can also be given as a table whose first name, in the order of names, is
`Toml.datetimeName`. The text under that name must be a date or time, and whatever else the table
holds counts for nothing.

* `Toml.isDated` — whether a table stands for a date or time;
* `Toml.ofDated?` — the date or time that such a table stands for;
* `Toml.dated?` — a value with every such table read, `Toml.datedMembers?` those of a table.
-/
import RankedRules.Toml.Scalar

namespace RankedRules.Toml

/-- Whether a table with these members stands for a date or time. -/
def isDated : List (String × Toml) → Bool
  | [] => false
  | (name, _) :: _ => name = datetimeName

/-- The date or time of a table that stands for one, in its normal form. -/
def ofDated? : List (String × Toml) → Option Toml
  | (_, .string text) :: _ =>
    (datetime? text.toList).map fun chars => .datetime (String.ofList chars)
  | _ => none

mutual

/-- A value with every table in it that stands for a date or time read as one. -/
def dated? : Toml → Option Toml
  | .array items => (datedItems? items).map .array
  | .table members =>
    if isDated members then ofDated? members else (datedMembers? members).map .table
  | item => some item

/-- Several values with every table in them that stands for a date or time read as one. -/
def datedItems? : List Toml → Option (List Toml)
  | [] => some []
  | item :: rest => do
    let first ← dated? item
    let others ← datedItems? rest
    some (first :: others)

/-- The members of a table with every table below that stands for a date or time read as one. -/
def datedMembers? : List (String × Toml) → Option (List (String × Toml))
  | [] => some []
  | (name, item) :: rest => do
    let first ← dated? item
    let others ← datedMembers? rest
    some ((name, first) :: others)

end

end RankedRules.Toml
