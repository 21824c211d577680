/-
Writing to a context.

A context takes values under keys and at key paths. Null removes what is stored, and nothing is
stored under the empty key.

* `Context.take`, `Context.takePath` — store a value under a key, or at a key path;
* `Context.reset` — forget all stored values;
* `Context.whileTaking` — the values of one path while another path takes one value after the
  other.
-/
import RankedRules.Context.Basic

namespace RankedRules.Context

/-- Stores a value under a key; null removes the stored value. -/
def take (c : Context) (value : Value) (key : String) : Context :=
  if key.isEmpty then c
  else if value.isNull then { c with stored := Entries.erase key c.stored }
  else { c with stored := Entries.insert key value c.stored }

/-- Stores several values, in order. -/
def takeAll (c : Context) (values : List (String × Value)) : Context :=
  values.foldl (fun c entry => c.take entry.2 entry.1) c

/-- Stores a value at a key path: the first segment is the key, the others lead into its value. -/
def takePath (c : Context) (value : Value) (path : String) : Except EvalError Context := do
  match ← KeyPath.segments path with
  | [] => .ok c
  | [key] => .ok (c.take value key)
  | key :: rest =>
    let root := (Entries.find? key c.stored).getD .null
    .ok (c.take (root.assign rest value) key)

/-- Forgets all stored values. -/
def reset (c : Context) : Context :=
  { c with stored := [] }

/-- The values at `path` after each of the given values has been stored at `valuePath`, and the
context in the end. The first error ends the run and leaves the context as it is then. -/
def whileTaking (c : Context) (path valuePath : String) :
    List Value → Except EvalError (List (Option Value)) × Context
  | [] => (.ok [], c)
  | value :: rest =>
    match c.takePath value valuePath with
    | .error error => (.error error, c)
    | .ok taken =>
      match taken.path path with
      | .error error => (.error error, taken)
      | .ok found =>
        let (results, last) := taken.whileTaking path valuePath rest
        (results.map (found :: ·), last)

end RankedRules.Context
