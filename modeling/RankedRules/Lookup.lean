/-
Looking keys up, and what can go wrong on the way.

A lookup answers keys: it returns the value under a key, nothing, or an error. Objects, stored
values and whole contexts all serve as lookups. A key path is answered by looking up its first
segment and descending into the value with the others. What reads through a lookup does so in the
monad of the lookup, so that the same code can be followed by more than its result.

* `EvalError` — the errors of evaluation, `EvalError.message` in words;
* `EvalError.recover` — a value in place of all errors but cycles;
* `Lookup` — the type of the functions;
* `Lookup.ofEntries`, `Lookup.ofValue` — entries and any value as lookups;
* `Lookup.path` — the answer to a key path.
-/
import RankedRules.Value.KeyPath

namespace RankedRules

/-- What can go wrong while a key is looked up or a qualifier evaluated. -/
inductive EvalError
  | cyclicReference (chain : List String)
  | unsupportedQualifier (text : String)
  | invalidKeyPath (path : String)
  deriving DecidableEq

/-- The keys of a cycle with arrows between them. -/
def EvalError.chainText (chain : List String) : String :=
  "cyclic rule reference: " ++ Text.join " -> " chain

/-- The error in words. -/
def EvalError.message : EvalError → String
  | .cyclicReference chain => chainText chain
  | .unsupportedQualifier text => "qualifier does not support evaluation: " ++ text
  | .invalidKeyPath path => "invalid key path '" ++ path ++ "'"

/-- A function that answers keys, in the monad in which evaluation takes place. -/
abbrev Lookup (m : Type → Type) := String → m (Option Value)

/-- The segments of a path; a path with an empty segment is an error. -/
def KeyPath.segments (path : String) : Except EvalError (List String) :=
  match KeyPath.segments? path with
  | some segments => .ok segments
  | none => .error (.invalidKeyPath path)

namespace Lookup

/-- Entries as a lookup; null counts as nothing. -/
def ofEntries (entries : Entries Value) : Lookup (Except EvalError) := fun key =>
  .ok ((Entries.find? key entries).bind Value.present)

/-- A value as a lookup, by one step into it. -/
def ofValue (value : Value) : Lookup (Except EvalError) := fun key => .ok (value.step? key)

variable {m : Type → Type} [Monad m] [MonadExceptOf EvalError m]

/-- The answer to a list of segments: the first one is looked up, the others are steps. -/
def segments (look : Lookup m) : List String → m (Option Value)
  | [] => pure none
  | first :: rest => do
    let found ← look first
    pure (found.bind (Value.descend? rest))

/-- The answer to a key path. -/
def path (look : Lookup m) (path : String) : m (Option Value) :=
  match KeyPath.segments path with
  | .ok segments => look.segments segments
  | .error error => throw error

end Lookup

/-- An evaluation with a value in place of its errors. A cycle stays an error. -/
def EvalError.recover {m : Type → Type} [Monad m] [MonadExceptOf EvalError m] {α : Type}
    (value : α) (evaluation : m α) : m α :=
  tryCatch evaluation fun error =>
    match error with
    | .cyclicReference chain => throw (.cyclicReference chain)
    | _ => pure value

end RankedRules
