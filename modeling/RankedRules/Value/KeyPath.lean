/-
Key paths: names with points between them that lead into a value.

The first segment of a path is looked up in some object, for instance among the stored values of
a context; the others are steps into the value found there. A step is a member of an object, an
index of an array, the count of an array's items or the length of a string.

* `KeyPath.segments?` — the segments of a path, none of which may be empty;
* `KeyPath.first?`, `KeyPath.firsts` — the first segment of a path, and those of several paths;
* `Value.step?`, `Value.descend?` — one step and several steps into a value, never to null;
* `Value.assign` — write at a path, making objects on the way;
* `Value.descend?_append` — steps compose.
-/
import RankedRules.Text.Blank
import RankedRules.Text.Pieces
import RankedRules.Value.Basic

namespace RankedRules

/-- The segments of a path, trimmed, or nothing if one of them is empty. -/
def KeyPath.segments? (path : String) : Option (List String) :=
  let segments := (Text.splitOn '.' path.toList).map fun piece => String.ofList (Text.trim piece)
  if segments.any String.isEmpty then none else some segments

/-- The first segment of a path, which is the key that is looked up. -/
def KeyPath.first? (path : String) : Option String := do
  (← KeyPath.segments? path).head?

/-- The first segments of several paths. -/
def KeyPath.firsts (paths : List String) : List String :=
  paths.filterMap KeyPath.first?

namespace Value

/-- The index that a segment denotes: digits after an optional plus sign, below `2 ^ 64`. -/
def index? (segment : String) : Option Nat :=
  let digits :=
    match segment.toList with
    | '+' :: rest => rest
    | cs => cs
  if digits.isEmpty || !digits.all Char.isDigit then none
  else some (Decimal.digitsValue digits) |>.filter (· < 0x10000000000000000)

/-- What one segment finds in a value; null counts as nothing. -/
def step? (segment : String) : Value → Option Value
  | .object members => (Entries.find? segment members).bind present
  | .array items =>
    if segment = "@count" then
      some (ofInt items.length)
    else
      (index? segment).bind fun i => (items[i]?).bind present
  | .string text => if segment = "length" then some (ofInt text.length) else none
  | _ => none

/-- What the segments find one after the other, from a value on; null counts as nothing. -/
def descend? : List String → Value → Option Value
  | [], value => value.present
  | segment :: rest, value => (value.step? segment).bind (descend? rest)

/-- The members of an object, and none for any other value. -/
def members : Value → List (String × Value)
  | .object members => members
  | _ => []

/-- A value with `new` at a path. Whatever is not an object on the way becomes an empty one
first; null at the end of the path removes the member there. -/
def assign : List String → Value → Value → Value
  | [], _, new => new
  | [name], target, new =>
    .object <|
      if new.isNull then Entries.erase name target.members
      else Entries.insert name new target.members
  | name :: rest, target, new =>
    let child := (Entries.find? name target.members).getD (.object [])
    .object (Entries.insert name (assign rest child new) target.members)

theorem descend?_not_null {segments : List String} {v w : Value}
    (h : v.descend? segments = some w) : w.isNull = false := by
  induction segments generalizing v with
  | nil => exact (present_eq_some_iff.1 h).2
  | cons segment rest ih =>
    obtain ⟨u, _, hu⟩ := Option.bind_eq_some_iff.1 h
    exact ih hu

/-- Steps compose: a longer path is followed from where the shorter one ends. -/
theorem descend?_append (front rest : List String) (v : Value) :
    v.descend? (front ++ rest) = (v.descend? front).bind (descend? rest) := by
  induction front generalizing v with
  | nil =>
    cases rest with
    | nil => cases v <;> rfl
    | cons segment rest => cases v <;> rfl
  | cons segment front ih =>
    rw [List.cons_append, descend?, descend?, Option.bind_assoc]
    exact congrArg _ (funext ih)

end Value

end RankedRules
